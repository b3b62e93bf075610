import Lunule.Lib.Exec
import Lunule.Pg.Updates

/-!
# The reverse index of the missing objects

`rmissing` should map the number of every need to its object and hold nothing else, so that its first entry is the missing
object with the smallest need. Since the number leaves the epoch out, two objects can need versions of one number; the
second takes the entry of the first, and when either goes the entry goes with it. That happens in `merge_log`, which
indexes the new entries before it takes the divergent ones out (`rmissing_loses_entry`). As long as no number stands for
two objects among the needs and what a call may add to them, the index is exact in every state (`rmissing_exact`).
-/

namespace Lunule.Pg
open Exec Option PGLog MissingSet
open Std (ExtTreeMap)
variable {ο : Type} [LinearOrder ο]

namespace MissingSet

/-- `rmissing` is the index of the needs by number. -/
def Indexed (m : MissingSet ο) : Prop :=
  ∀ v o, m.rmissing[v]? = some o ↔ ∃ item : MissingItem, m.missing[o]? = some item ∧ item.need.version = v

def needs (m : MissingSet ο) : List (ℕ × ο) := m.missing.toList.map fun i => (i.2.need.version, i.1)

private theorem mem_needs {m : MissingSet ο} {v : ℕ} {o : ο} :
    (v, o) ∈ m.needs ↔ ∃ item : MissingItem, m.missing[o]? = some item ∧ item.need.version = v := by
  unfold needs
  rw [List.mem_map]
  constructor
  · rintro ⟨⟨o', item⟩, hi, heq⟩
    cases heq
    exact ⟨item, ExtTreeMap.mem_toList_iff_getElem?_eq_some.1 hi, rfl⟩
  · rintro ⟨item, hitem, rfl⟩
    exact ⟨(o, item), ExtTreeMap.mem_toList_iff_getElem?_eq_some.2 hitem, rfl⟩

section
variable {R : ℕ → ο → Prop} {m m' : MissingSet ο} {oid : ο} {item new : MissingItem}

private theorem Indexed.rmAt (h : m.Indexed) (hitem : m.missing[oid]? = some item) : (m.rmAt oid item).Indexed := by
  intro v o
  rw [rmissing_rmAt, missing_rmAt]
  constructor
  · intro hv
    obtain ⟨hne, hv⟩ := ite_none_left_eq_some.1 hv
    obtain ⟨item', hitem', hv'⟩ := (h v o).1 hv
    have ho : oid ≠ o := by
      rintro rfl
      rw [hitem] at hitem'
      cases hitem'
      exact hne hv'
    exact ⟨item', by rw [if_neg ho]; exact hitem', hv'⟩
  · rintro ⟨item', hitem', rfl⟩
    obtain ⟨ho, hitem'⟩ := ite_none_left_eq_some.1 hitem'
    have hv := (h _ o).2 ⟨item', hitem', rfl⟩
    rw [if_neg, hv]
    intro heq
    rw [← heq, (h _ oid).2 ⟨item, hitem, rfl⟩] at hv
    exact ho (Option.some.inj hv)

private theorem Indexed.insert (h : m.Indexed) (hR : ∀ v o o', R v o → R v o' → o = o') (hnamed : m.Named R)
    (hnew : R new.need.version oid) (hmiss : ∀ o, m'.missing[o]? = if oid = o then some new else m.missing[o]?)
    (hrmiss : ∀ v, m'.rmissing[v]? = if new.need.version = v then some oid
      else if m.rmissing[v]? = some oid then none else m.rmissing[v]?) : m'.Indexed := by
  intro v o
  rw [hrmiss, hmiss]
  by_cases hv : new.need.version = v
  · rw [if_pos hv]
    constructor
    · intro heq
      cases heq
      exact ⟨new, if_pos rfl, hv⟩
    rintro ⟨item', hitem', rfl⟩
    split at hitem'
    · rename_i ho
      rw [ho]
    · have hname := hnamed o item' hitem'
      rw [← hv] at hname
      rw [hR _ _ _ hname hnew]
  · rw [if_neg hv]
    by_cases ho : oid = o
    · subst ho
      rw [if_pos rfl]
      constructor
      · intro heq
        obtain ⟨hno, heq⟩ := ite_none_left_eq_some.1 heq
        exact absurd heq hno
      · rintro ⟨item', heq, hv'⟩
        cases heq
        exact absurd hv' hv
    · rw [if_neg ho, ← h v o]
      constructor
      · intro heq
        obtain ⟨-, heq⟩ := ite_none_left_eq_some.1 heq
        exact heq
      · intro heq
        rw [if_neg, heq]
        rw [heq]
        intro heq'
        exact ho (Option.some.inj heq').symm

private theorem Indexed.update (hR : ∀ v o o', R v o → R v o' → o = o') (h : m.Indexed) (hnamed : m.Named R)
    (hup : Update R m m') : m'.Indexed ∧ m'.Named R := by
  cases hup with
  | rmAt hitem =>
    refine ⟨h.rmAt hitem, fun o i hi => hnamed o i ?_⟩
    rw [missing_rmAt] at hi
    obtain ⟨-, hi⟩ := ite_none_left_eq_some.1 hi
    exact hi
  | @add oid need have' d hnone hname =>
    constructor
    · have hadd : ∀ o, (m.add oid need have' d).missing[o]? =
          if oid = o then some ⟨need, have', d⟩ else m.missing[o]? := fun o => missing_add
      refine h.insert hR hnamed hname hadd fun v => ?_
      have hno : m.rmissing[v]? ≠ some oid := by
        intro heq
        obtain ⟨item, hitem, -⟩ := (h v oid).1 heq
        rw [hnone] at hitem
        cases hitem
      rw [rmissing_add, if_neg hno]
    · intro o i hi
      rw [missing_add] at hi
      split at hi
      · rename_i ho
        cases hi
        exact ho ▸ hname
      · exact hnamed o i hi
  | @replace oid item new hitem hname =>
    constructor
    · refine h.insert hR hnamed hname (fun o => missing_replace) fun v => ?_
      have hiff : item.need.version = v ↔ m.rmissing[v]? = some oid := by
        rw [h v oid]
        constructor
        · exact fun hv => ⟨item, hitem, hv⟩
        · rintro ⟨item', hitem', hv⟩
          rw [hitem] at hitem'
          cases hitem'
          exact hv
      rw [rmissing_replace, if_congr hiff rfl rfl]
    · intro o i hi
      rw [missing_replace] at hi
      split at hi
      · rename_i ho
        cases hi
        exact ho ▸ hname
      · exact hnamed o i hi
  | @reviseHave oid have' =>
    have hneed : ∀ o : ο, (m.reviseHave oid have').missing[o]?.map MissingItem.need = m.missing[o]?.map MissingItem.need := by
      intro o
      rw [missing_reviseHave]
      split
      · rw [map_map]
        rfl
      · rfl
    constructor
    · intro v o
      rw [rmissing_reviseHave, h v o]
      constructor
      · rintro ⟨item, hitem, hv⟩
        have hmap := hneed o
        rw [hitem, map_some, map_eq_some_iff] at hmap
        obtain ⟨item', hitem', heq⟩ := hmap
        exact ⟨item', hitem', by rw [heq]; exact hv⟩
      · rintro ⟨item, hitem, hv⟩
        have hmap := (hneed o).symm
        rw [hitem, map_some, map_eq_some_iff] at hmap
        obtain ⟨item', hitem', heq⟩ := hmap
        exact ⟨item', hitem', by rw [heq]; exact hv⟩
    · intro o i hi
      have hmap := (hneed o).symm
      rw [hi, map_some, map_eq_some_iff] at hmap
      obtain ⟨item', hitem', heq⟩ := hmap
      rw [← heq]
      exact hnamed o item' hitem'
  | clear =>
    constructor
    · intro v o
      simp [clear]
    · intro o i hi
      simp [clear] at hi

private theorem Indexed.updates (hR : ∀ v o o', R v o → R v o' → o = o') (h : m.Indexed) (hnamed : m.Named R)
    (hup : Updates R m m') : m'.Indexed := by
  have hboth : m'.Indexed ∧ m'.Named R := by
    induction hup with
    | refl => exact ⟨h, hnamed⟩
    | tail _ hlast ih => exact Indexed.update hR ih.1 ih.2 hlast
  exact hboth.1

end

private theorem Indexed.head {m : MissingSet ο} (h : m.Indexed) {o : ο} {item : MissingItem}
    (hitem : m.missing[o]? = some item) :
    ∃ (v : ℕ) (o' : ο) (item' : MissingItem), m.rmissing.toList.head? = some (v, o') ∧ m.missing[o']? = some item' ∧ item'.need.version = v ∧
      v ≤ item.need.version := by
  have hmem := ExtTreeMap.mem_toList_iff_getElem?_eq_some.2 ((h _ _).2 ⟨item, hitem, rfl⟩)
  have hord := ExtTreeMap.ordered_keys_toList (t := m.rmissing)
  cases hl : m.rmissing.toList with
  | nil =>
    rw [hl] at hmem
    cases hmem
  | cons a l =>
    obtain ⟨v, o'⟩ := a
    have hfirst : m.rmissing[v]? = some o' := by
      rw [← ExtTreeMap.mem_toList_iff_getElem?_eq_some, hl]
      simp
    obtain ⟨item', hitem', hv⟩ := (h v o').1 hfirst
    refine ⟨v, o', item', rfl, hitem', hv, ?_⟩
    rw [hl] at hmem hord
    rcases List.mem_cons.1 hmem with heq | hrest
    · cases heq
      exact le_refl _
    · have hlt := (List.pairwise_cons.1 hord).1 _ hrest
      exact (compare_lt_iff_lt.1 hlt).le

end MissingSet

/-- No number stands for two objects. -/
def Unambiguous (l : List (ℕ × ο)) : Prop := ∀ a ∈ l, ∀ b ∈ l, a.1 = b.1 → a.2 = b.2

instance (l : List (ℕ × ο)) : Decidable (Unambiguous l) :=
  inferInstanceAs (Decidable (∀ a ∈ l, ∀ b ∈ l, a.1 = b.1 → a.2 = b.2))

/-- The condition on a call: an object is added only if it is not listed, and among the needs and the versions that the
call may make needs no number stands for two objects. -/
def PGLog.Distinct (p : PGLog ο) (c : Call ο) : Prop := p.AddsUnlisted c ∧ Unambiguous (p.missing.needs ++ p.numbers c)

instance (p : PGLog ο) (c : Call ο) : Decidable (p.Distinct c) := inferInstanceAs (Decidable (_ ∧ _))

private theorem PGLog.indexed_step {conf : Conf ο} {p p' : PGLog ο} {c : Call ο} (hi : p.missing.Indexed)
    (hc : p.Distinct c) (h : p.step conf c = some p') : p'.missing.Indexed := by
  obtain ⟨hadd, hnum⟩ := hc
  have hnamed : p.missing.Named fun v o => (v, o) ∈ p.missing.needs ++ p.numbers c :=
    fun o item hitem => List.mem_append_left _ (mem_needs.2 ⟨item, hitem, rfl⟩)
  have hup := updates_step (fun a ha => List.mem_append_right _ ha) hnamed hadd h
  have hbase : (p.baseMissing c).Indexed ∧
      (p.baseMissing c).Named fun v o => (v, o) ∈ p.missing.needs ++ p.numbers c := by
    cases c with
    | splitOff child bits =>
      constructor
      · intro v o
        simp [baseMissing, empty]
      · intro o item hitem
        simp [baseMissing, empty] at hitem
    | _ => exact ⟨hi, hnamed⟩
  exact hbase.1.updates (R := fun v o => (v, o) ∈ p.missing.needs ++ p.numbers c)
    (fun v o o' ho ho' => hnum (v, o) ho (v, o') ho' rfl) hbase.2 hup

/-- Over any run of calls from an empty log in which no call makes a number ambiguous, the reverse index maps the number
of each need to its object and holds nothing else, and its first entry is a missing object with the smallest need. -/
theorem rmissing_exact (conf : Conf ο) (may_include_deletes : Bool) (calls : List (Call ο)) (p : PGLog ο)
    (hok : AllSteps (step conf) PGLog.Distinct (new may_include_deletes) calls)
    (h : exec (step conf) (new may_include_deletes) calls = some p) :
    (∀ v o, p.missing.rmissing[v]? = some o ↔ ∃ item : MissingItem, p.missing.missing[o]? = some item ∧ item.need.version = v) ∧
      ∀ (o : ο) (item : MissingItem), p.missing.missing[o]? = some item →
        ∃ (v : ℕ) (o' : ο) (item' : MissingItem), p.missing.rmissing.toList.head? = some (v, o') ∧ p.missing.missing[o']? = some item' ∧
          item'.need.version = v ∧ v ≤ item.need.version := by
  have hi : p.missing.Indexed := by
    refine exec_invariant (I := fun p => p.missing.Indexed) (fun s c t hs hc ht => indexed_step hs hc ht) ?_ hok h
    intro v o
    simp [new, empty]
  exact ⟨hi, fun o item hitem => hi.head hitem⟩

section

/-- A modification of object `o`. -/
private def modified (o : ℕ) (version prior : Eversion) : LogEntry ℕ :=
  ⟨.modify, o, version, prior, ⟨0, 0, 0, 0⟩, [], 0, 0, false⟩

private def sampleConf : Conf ℕ := ⟨fun o => BitVec.ofNat 32 o, 3000⟩

/-- Object `0` is created at `1'5`, and the other log has object `1` at `2'5` in its place. -/
private def reused : List (Call ℕ) :=
  [.appendNewLogEntries ⊤ [modified 0 ⟨1, 5⟩ .zero],
    .mergeLog ⟨⟨2, 5⟩, .zero, .zero, .zero, [modified 1 ⟨2, 5⟩ .zero], []⟩ ⊤]

/-- The same with the other log one ahead. -/
private def unused : List (Call ℕ) :=
  [.appendNewLogEntries ⊤ [modified 0 ⟨1, 5⟩ .zero],
    .mergeLog ⟨⟨2, 6⟩, .zero, .zero, .zero, [modified 1 ⟨2, 6⟩ .zero], []⟩ ⊤]

private theorem unused_runs : (exec (step sampleConf) (new false) unused).isSome := by decide +kernel

private theorem reused_runs : (exec (step sampleConf) (new false) reused).isSome := by decide +kernel

theorem rmissing_exact_unused : AllSteps (step sampleConf) PGLog.Distinct (new false) unused ∧
      ∃ p, exec (step sampleConf) (new false) unused = some p ∧
        p.missing.missing[1]? = some ⟨⟨2, 6⟩, .zero, false⟩ ∧
        ∀ v o, p.missing.rmissing[v]? = some o ↔ ∃ item : MissingItem, p.missing.missing[o]? = some item ∧ item.need.version = v := by
  have hok : AllSteps (step sampleConf) PGLog.Distinct (new false) unused := by decide +kernel
  refine ⟨hok, _, (some_get unused_runs).symm, by decide +kernel, ?_⟩
  exact (rmissing_exact sampleConf false unused _ hok (some_get unused_runs).symm).1

/-- The number is used again, so the entry of the new object goes with the old one: it is missing and not indexed. -/
theorem rmissing_loses_entry : ∃ p, exec (step sampleConf) (new false) reused = some p ∧
      p.missing.missing[1]? = some ⟨⟨2, 5⟩, .zero, false⟩ ∧ p.missing.rmissing.toList = [] := by
  exact ⟨_, (some_get reused_runs).symm, by decide +kernel, by decide +kernel⟩

end
end Lunule.Pg
