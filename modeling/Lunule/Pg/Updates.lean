import Lunule.Pg.Log

/-!
# What the log does to the missing set

Every function of the log changes the missing set by a chain of five updates: an item is taken out, an object that is not
listed is added, the item of a listed object is replaced, the version had is revised, or the set is cleared. The first and
the third name the item that is listed, so that the entry of the reverse index that is erased is the one of its need. The relation carries
the pairs of a version number and an object that may become a need: those of the new entries, and the version before the
oldest divergent entry of each object.
-/

namespace Lunule.Pg
open List Option MissingSet PGLog
open Std (ExtTreeMap)
open Relation (ReflTransGen)
variable {ο : Type} [LinearOrder ο]

namespace MissingSet

inductive Update (R : ℕ → ο → Prop) (m : MissingSet ο) : MissingSet ο → Prop
  | rmAt {o : ο} {item : MissingItem} : m.missing[o]? = some item → Update R m (m.rmAt o item)
  | add {o : ο} {need have' : Eversion} {d : Bool} :
      m.missing[o]? = none → R need.version o → Update R m (m.add o need have' d)
  | replace {o : ο} {item new : MissingItem} :
      m.missing[o]? = some item → R new.need.version o → Update R m (m.replace o item new)
  | reviseHave {o : ο} {have' : Eversion} : Update R m (m.reviseHave o have')
  | clear : Update R m m.clear

abbrev Updates (R : ℕ → ο → Prop) : MissingSet ο → MissingSet ο → Prop := ReflTransGen (Update R)

variable {R : ℕ → ο → Prop} {m m' : MissingSet ο} {oid : ο} {v need : Eversion} {d : Bool} {e : LogEntry ο}

private theorem updates_rm : Updates R m (m.rm oid v) := by
  unfold rm
  split
  · exact .refl
  · rename_i item hitem
    split
    · exact .single (.rmAt hitem)
    · exact .refl

private theorem updates_got (h : m.got oid v = some m') : Updates R m m' := by
  unfold got at h
  split at h
  · cases h
  rename_i item hitem
  split at h
  · cases h
    exact .single (.rmAt hitem)
  · cases h

private theorem updates_reviseNeed (hR : R need.version oid) : Updates R m (m.reviseNeed oid need d) := by
  unfold reviseNeed
  split
  · rename_i item hitem
    exact .single (.replace hitem hR)
  · rename_i hnone
    exact .single (.add hnone hR)

private theorem updates_addNextEvent (hR : R e.version.version e.soid) (h : m.addNextEvent e = some m') :
    Updates R m m' := by
  unfold addNextEvent at h
  split at h
  · rename_i item hitem
    split at h <;> cases h <;> exact .single (.replace hitem hR)
  rename_i hnone
  split at h
  · cases h
    exact .single (.add hnone hR)
  · obtain ⟨-, h⟩ := ite_none_left_eq_some.1 h
    cases h
    exact .single (.add hnone hR)

end MissingSet

open MissingSet (Update Updates)

/-!
### Divergent entries
-/

section
variable {R : ℕ → ο → Prop} {m m' : MissingSet ο} {log : PgLog ο} {hoid : ο} {last_backfill : WithTop ο}
  {crt : Eversion} {acts : List (Act ο)}

def entriesOf (hoid : ο) (entries : List (LogEntry ο)) : List (LogEntry ο) := entries.filter (·.soid = hoid)

variable (entries : List (LogEntry ο))

private theorem splitByObject_getElem? (hoid : ο) :
    (splitByObject entries)[hoid]? = if entriesOf hoid entries = [] then none else some (entriesOf hoid entries) := by
  induction entries using reverseRecOn with
  | nil => simp [splitByObject, entriesOf]
  | append_singleton es e ih =>
    have hold : (splitByObject es).getD hoid [] = entriesOf hoid es := by
      rw [ExtTreeMap.getD_eq_getD_getElem?, ih]
      split
      · rename_i h
        rw [h, getD_none]
      · rw [getD_some]
    have hstep : splitByObject (es ++ [e]) =
        (splitByObject es).insert e.soid ((splitByObject es).getD e.soid [] ++ [e]) := by
      simp [splitByObject]
    rw [hstep, ExtTreeMap.getElem?_insert]
    by_cases ho : e.soid = hoid
    · subst ho
      have happ : entriesOf e.soid (es ++ [e]) = entriesOf e.soid es ++ [e] := by simp [entriesOf]
      rw [if_pos (compare_eq_iff_eq.2 rfl), hold, happ, if_neg (by simp)]
    · have happ : entriesOf hoid (es ++ [e]) = entriesOf hoid es := by simp [entriesOf, ho]
      rw [if_neg (fun h => ho (compare_eq_iff_eq.1 h)), ih, happ]

theorem mem_splitByObject {entries : List (LogEntry ο)} {i : ο × List (LogEntry ο)} :
    i ∈ (splitByObject entries).toList ↔ i.2 = entriesOf i.1 entries ∧ i.2 ≠ [] := by
  obtain ⟨o, -⟩ := i
  rw [ExtTreeMap.mem_toList_iff_getElem?_eq_some, splitByObject_getElem?]
  constructor
  · intro h
    obtain ⟨hne, h⟩ := ite_none_left_eq_some.1 h
    obtain rfl := some.inj h
    exact ⟨rfl, hne⟩
  · rintro ⟨heq, hne⟩
    rw [← heq, if_neg hne]

private theorem stripErrors_eq {l es : List (LogEntry ο)} {atBegin seen : Bool} {last : Eversion}
    (h : stripErrors hoid l atBegin seen last = some es) : es = l.filter (!·.isError) := by
  induction l generalizing atBegin seen last es with
  | nil =>
    cases h
    rfl
  | cons i is ih =>
    obtain ⟨-, h⟩ := ite_none_right_eq_some.1 h
    cases herr : i.isError with
    | true =>
      rw [herr, if_pos rfl] at h
      rw [ih h, filter_cons_of_neg (by rw [herr]; decide)]
    | false =>
      rw [herr, if_neg (by decide), map_eq_some_iff] at h
      obtain ⟨es', hes', rfl⟩ := h
      rw [ih hes', filter_cons_of_pos (by rw [herr]; decide)]

/-- The version that the oldest divergent entry of an object replaced, unless it created the object. -/
def divergentPrior : Option Eversion :=
  (entries.find? (!·.isError)).bind fun first =>
    if first.prior_version = .zero ∨ first.isClone then none else some first.prior_version

private theorem updates_mergeObjectDivergentEntries {orig : List (LogEntry ο)}
    (hR : ∀ prior ∈ divergentPrior orig, R prior.version hoid)
    (h : mergeObjectDivergentEntries log hoid orig last_backfill crt m = some (m', acts)) : Updates R m m' := by
  unfold mergeObjectDivergentEntries at h
  split at h
  · cases h
    exact .refl
  obtain ⟨-, h⟩ := ite_none_left_eq_some.1 h
  split at h
  · cases h
  · cases h
    exact .refl
  rename_i first rest hstrip
  have hfirst : orig.find? (!·.isError) = some first := by
    rw [← head?_filter, ← stripErrors_eq hstrip, head?_cons]
  dsimp only at h
  split at h
  · -- case 1
    rename_i newer _
    by_cases hok : ((first :: rest).getLast (by simp)).version < newer.version ∧
        (m.isMissing hoid).map MissingItem.need =
          if (newer.isUpdate || (m.may_include_deletes && newer.isDelete)) then some newer.version else none
    · rw [if_pos hok] at h
      cases h
      exact .single .reviseHave
    · rw [if_neg hok] at h
      cases h
  · split at h
    · -- case 2
      split at h
      · rename_i item hitem
        cases h
        exact .single (.rmAt hitem)
      · cases h
        exact .refl
    · rename_i hcreate
      have hprior : R first.prior_version.version hoid := by
        refine hR _ ?_
        rw [divergentPrior, hfirst, bind_some, if_neg hcreate]
        exact rfl
      split at h
      · -- case 3
        rename_i item hitem
        split at h
        · cases h
          exact .single (.rmAt hitem)
        · cases h
          exact updates_reviseNeed hprior
      · rename_i hnone
        split at h
        · cases h
          exact .refl
        · cases h
          exact .single (.add hnone hprior)

private theorem updates_foldlM {α : Type} {f : MissingSet ο × List (Act ο) → α → Option (MissingSet ο × List (Act ο))}
    {l : List α} (hf : ∀ s a t, a ∈ l → f s a = some t → Updates R s.1 t.1) {s t : MissingSet ο × List (Act ο)}
    (h : l.foldlM f s = some t) : Updates R s.1 t.1 := by
  induction l generalizing s with
  | nil =>
    cases h
    exact .refl
  | cons a l ih =>
    rw [foldlM_cons] at h
    obtain ⟨u, hu, ht⟩ := bind_eq_some_iff.1 h
    exact (hf s a u (by simp) hu).trans (ih (fun s b t hb => hf s b t (mem_cons_of_mem _ hb)) ht)

def divergentNumbers : List (ℕ × ο) :=
  (splitByObject entries).toList.filterMap fun i => (divergentPrior i.2).map fun prior => (prior.version, i.1)

private theorem updates_mergeDivergentEntries {entries : List (LogEntry ο)}
    (hR : ∀ a ∈ divergentNumbers entries, R a.1 a.2)
    (h : mergeDivergentEntries log entries last_backfill crt m = some (m', acts)) : Updates R m m' := by
  refine updates_foldlM (s := (m, [])) (t := (m', acts)) ?_ h
  rintro s ⟨o, es⟩ t hi ht
  obtain ⟨⟨m1, acts1⟩, hr, rfl⟩ := map_eq_some_iff.1 ht
  refine updates_mergeObjectDivergentEntries (fun prior hprior => ?_) hr
  exact hR (prior.version, o) (mem_filterMap.2 ⟨(o, es), hi, by rw [mem_def.1 hprior]; rfl⟩)

end

/-!
### New entries
-/

section
variable {R : ℕ → ο → Prop} {m m' : MissingSet ο} {log log' : PgLog ο} {last_backfill : WithTop ο} {maintain : Bool}
  {acts : List (Act ο)} {entries : List (LogEntry ο)}

private theorem updates_updateMissing {p : LogEntry ο} (hR : R p.version.version p.soid)
    (h : updateMissing last_backfill maintain p m = some (m', acts)) : Updates R m m' := by
  unfold updateMissing at h
  split at h
  · split at h
    · obtain ⟨m1, hm1, heq⟩ := map_eq_some_iff.1 h
      cases heq
      exact updates_addNextEvent hR hm1
    dsimp only at h
    split at h
    · cases h
      exact updates_rm
    · obtain ⟨m1, hm1, heq⟩ := map_eq_some_iff.1 h
      cases heq
      exact updates_addNextEvent hR hm1
  · cases h
    exact .refl

theorem appendLogEntries_cons {p : LogEntry ο} {ps : List (LogEntry ο)} {r : PgLog ο × MissingSet ο × List (Act ο)} :
    appendLogEntries last_backfill maintain (p :: ps) log m = some r ↔
      ∃ log1 m1 acts1 r1, log.add p true = some log1 ∧
        updateMissing last_backfill maintain p m = some (m1, acts1) ∧
        appendLogEntries last_backfill maintain ps log1 m1 = some r1 ∧ r = (r1.1, r1.2.1, acts1 ++ r1.2.2) := by
  rw [appendLogEntries]
  cases hadd : log.add p true with
  | none => simp
  | some log1 =>
    cases hup : updateMissing last_backfill maintain p m with
    | none => simp
    | some u =>
      obtain ⟨m1, acts1⟩ := u
      rw [map_eq_some_iff]
      constructor
      · rintro ⟨r1, hr1, rfl⟩
        exact ⟨log1, m1, acts1, r1, rfl, rfl, hr1, rfl⟩
      · rintro ⟨log1', m1', acts1', r1, hl, hm, hr1, rfl⟩
        cases hl
        cases hm
        exact ⟨r1, hr1, rfl⟩

private theorem updates_appendLogEntries (hR : ∀ e ∈ entries, R e.version.version e.soid)
    (h : appendLogEntries last_backfill maintain entries log m = some (log', m', acts)) : Updates R m m' := by
  induction entries generalizing log m acts with
  | nil =>
    cases h
    exact .refl
  | cons p ps ih =>
    obtain ⟨log1, m1, acts1, r1, -, hup, hrest, heq⟩ := appendLogEntries_cons.1 h
    cases heq
    exact (updates_updateMissing (hR p (by simp)) hup).trans
      (ih (forall_mem_cons.1 hR).2 hrest)

private theorem updates_appendLogEntriesUpdateMissing (hR : ∀ e ∈ entries, R e.version.version e.soid)
    (h : appendLogEntriesUpdateMissing last_backfill entries maintain log m = some (log', m', acts)) :
    Updates R m m' := by
  obtain ⟨-, h⟩ := ite_none_right_eq_some.1 h
  exact updates_appendLogEntries hR h

end

/-!
### The calls
-/

namespace PGLog
variable {R : ℕ → ο → Prop} {p p' : PGLog ο} {last_backfill : WithTop ο} {acts : List (Act ο)} {olog : PgLog ο}
  {orig_tail : Eversion}

variable {newhead : Eversion}

theorem rewindDivergentLog_eq_some : p.rewindDivergentLog newhead last_backfill = some (p', acts) ↔
      ∃ log divergent m', p.log.rewindFromHead newhead = some (log, divergent) ∧
        mergeDivergentEntries log divergent last_backfill log.can_rollback_to p.missing = some (m', acts) ∧
        p' = { p with
          log
          missing := m'
          marks := match divergent.head? with
            | none => p.marks
            | some e => p.marks.markDirtyFrom e.version } := by
  unfold rewindDivergentLog
  cases hrew : p.log.rewindFromHead newhead with
  | none => simp
  | some r =>
    obtain ⟨log, divergent⟩ := r
    rw [map_eq_some_iff]
    constructor
    · rintro ⟨⟨m', acts'⟩, hm, heq⟩
      cases heq
      refine ⟨log, divergent, m', rfl, hm, ?_⟩
      cases divergent <;> rfl
    · rintro ⟨log', divergent', m', heq, hm, rfl⟩
      cases heq
      refine ⟨(m', acts), hm, ?_⟩
      cases divergent <;> rfl

theorem extendHead_eq_some : p.extendHead orig_tail olog last_backfill = some (p', acts) ↔
      ∃ log divergent log' m1 acts1 m' acts2,
        p.log.rewindFromHead (p.lowerBound orig_tail olog) = some (log, divergent) ∧
        appendLogEntriesUpdateMissing last_backfill (olog.log.rtakeWhile (p.log.head < ·.version)) false
          (log.advanceCanRollbackTo log.head).1 p.missing = some (log', m1, acts1) ∧
        mergeDivergentEntries log' divergent last_backfill log'.can_rollback_to m1 = some (m', acts2) ∧
        p' = { p.markDirtyFrom (p.lowerBound orig_tail olog) with
          log := { log' with head := olog.head }.skipCanRollbackToToHead
          missing := m' } ∧
        acts = (log.advanceCanRollbackTo log.head).2.map Act.rollforward ++ acts1 ++ acts2 := by
  unfold extendHead
  dsimp only
  cases hrew : p.log.rewindFromHead (p.lowerBound orig_tail olog) with
  | none => simp
  | some r =>
    obtain ⟨log, divergent⟩ := r
    dsimp only
    cases happ : appendLogEntriesUpdateMissing last_backfill (olog.log.rtakeWhile (p.log.head < ·.version)) false
        (log.advanceCanRollbackTo log.head).1 p.missing with
    | none =>
      constructor
      · intro h
        cases h
      · rintro ⟨log1, divergent1, log', m1, acts1, m', acts2, heq, happ', -⟩
        cases heq
        rw [happ] at happ'
        cases happ'
    | some a =>
      obtain ⟨log', m1, acts1⟩ := a
      rw [map_eq_some_iff]
      constructor
      · rintro ⟨⟨m', acts2⟩, hm, heq⟩
        cases heq
        exact ⟨log, divergent, log', m1, acts1, m', acts2, rfl, happ, hm, rfl, rfl⟩
      · rintro ⟨log1, divergent1, log'₁, m1', acts1', m', acts2, heq, happ', hm, rfl, rfl⟩
        cases heq
        rw [happ] at happ'
        cases happ'
        exact ⟨(m', acts2), hm, rfl⟩

theorem mergeHeads_of_lt (h : olog.head < p.log.head) :
    p.mergeHeads orig_tail olog last_backfill = p.rewindDivergentLog olog.head last_backfill := by
  unfold mergeHeads
  rw [if_pos h]
  cases hrew : p.rewindDivergentLog olog.head last_backfill with
  | none => rfl
  | some r =>
    obtain ⟨p', acts⟩ := r
    obtain ⟨log, divergent, -, hlog, -, rfl⟩ := rewindDivergentLog_eq_some.1 hrew
    have hhead : log.head = olog.head := PgLog.rewindFromHead_head hlog
    exact if_neg (by rw [hhead]; exact lt_irrefl _)

theorem mergeHeads_of_gt (h : p.log.head < olog.head) :
    p.mergeHeads orig_tail olog last_backfill = p.extendHead orig_tail olog last_backfill := by
  unfold mergeHeads
  rw [if_neg h.not_gt]
  dsimp only
  rw [if_pos h]
  cases p.extendHead orig_tail olog last_backfill <;> rfl

theorem mergeHeads_of_eq (h : p.log.head = olog.head) : p.mergeHeads orig_tail olog last_backfill = some (p, []) := by
  unfold mergeHeads
  rw [h, if_neg (lt_irrefl _)]
  dsimp only
  rw [h, if_neg (lt_irrefl _)]

/-- The numbers that `merge_log` may make needs, after the tail was extended. -/
def mergeNumbers (p : PGLog ο) (orig_tail : Eversion) (olog : PgLog ο) : List (ℕ × ο) :=
  if olog.head < p.log.head then divergentNumbers (p.log.divergent olog.head)
  else if p.log.head < olog.head then
    divergentNumbers (p.log.divergent (p.lowerBound orig_tail olog)) ++
      (olog.log.rtakeWhile (p.log.head < ·.version)).map fun e => (e.version.version, e.soid)
  else []

private theorem updates_rewindDivergentLog (hR : ∀ a ∈ divergentNumbers (p.log.divergent newhead), R a.1 a.2)
    (h : p.rewindDivergentLog newhead last_backfill = some (p', acts)) : Updates R p.missing p'.missing := by
  obtain ⟨log, divergent, m', hlog, hm, rfl⟩ := rewindDivergentLog_eq_some.1 h
  obtain ⟨-, -, rfl, -⟩ := PgLog.rewindFromHead_eq_some.1 hlog
  exact updates_mergeDivergentEntries hR hm

private theorem updates_mergeHeads (hR : ∀ a ∈ p.mergeNumbers orig_tail olog, R a.1 a.2)
    (h : p.mergeHeads orig_tail olog last_backfill = some (p', acts)) : Updates R p.missing p'.missing := by
  unfold mergeNumbers at hR
  rcases lt_trichotomy olog.head p.log.head with hlt | heq | hgt
  · rw [if_pos hlt] at hR
    rw [mergeHeads_of_lt hlt] at h
    exact updates_rewindDivergentLog hR h
  · rw [mergeHeads_of_eq heq.symm] at h
    cases h
    exact .refl
  rw [if_neg hgt.not_gt, if_pos hgt] at hR
  rw [mergeHeads_of_gt hgt] at h
  obtain ⟨log, divergent, log', m1, acts1, m', acts2, hlog, happ, hm, rfl, -⟩ := extendHead_eq_some.1 h
  obtain ⟨-, -, rfl, -⟩ := PgLog.rewindFromHead_eq_some.1 hlog
  refine (updates_appendLogEntriesUpdateMissing ?_ happ).trans (updates_mergeDivergentEntries ?_ hm)
  · intro e he
    exact hR (e.version.version, e.soid) (mem_append_right _ (mem_map.2 ⟨e, he, rfl⟩))
  · exact fun a ha => hR a (mem_append_left _ ha)

@[simp] theorem missing_extendTail : (p.extendTail olog).1.missing = p.missing := by
  unfold extendTail
  split <;> rfl

theorem mergeLogDups_eq (p : PGLog ο) (olog : PgLog ο) :
    ∃ dups marks_dups, p.mergeLogDups olog = { p with log := { p.log with dups }, marks_dups } := by
  unfold mergeLogDups dropOverlap extendDupsFront extendDupsBack
  split
  · exact ⟨_, _, rfl⟩
  · dsimp only
    split <;> split <;> exact ⟨_, _, rfl⟩
  · exact ⟨_, _, rfl⟩

theorem mergeLog_eq_some : p.mergeLog olog last_backfill = some (p', acts) ↔
      ((p.log.isNull → olog.tail = .zero) ∧ olog.tail ≤ p.log.head ∧ p.log.tail ≤ olog.head) ∧
        ∃ p1, (p.extendTail olog).1.mergeHeads p.log.tail (p.extendTail olog).2 last_backfill = some (p1, acts) ∧
          p' = p1.mergeLogDups (p.extendTail olog).2 := by
  unfold mergeLog
  split
  · rename_i hpre
    rw [map_eq_some_iff]
    constructor
    · rintro ⟨⟨p1, acts1⟩, hheads, heq⟩
      cases heq
      exact ⟨hpre, p1, hheads, rfl⟩
    · rintro ⟨-, p1, hheads, rfl⟩
      exact ⟨(p1, acts), hheads, rfl⟩
  · rename_i hpre
    constructor
    · intro h
      cases h
    · exact fun h => absurd h.1 hpre

private theorem missing_trim {n : ℕ} {trim_to last_complete : Eversion}
    (h : p.trim n trim_to last_complete = some p') : p'.missing = p.missing := by
  unfold trim at h
  split at h
  · obtain ⟨-, h⟩ := ite_none_right_eq_some.1 h
    obtain ⟨v, -, rfl⟩ := map_eq_some_iff.1 h
    rfl
  · cases h
    rfl

end PGLog

/-!
### Splits
-/

section
variable {R : ℕ → ο → Prop} {hash : ο → BitVec 32} {child : PgT} {bits : ℕ}

private theorem updates_splitItems {l : List (ο × MissingItem)} (hnd : (l.map Prod.fst).Nodup)
    {s : MissingSet ο × MissingSet ο}
    (hfst : ∀ i ∈ l, s.1.missing[i.1]? = some i.2) (hsnd : ∀ i ∈ l, s.2.missing[i.1]? = none)
    (hR : ∀ i ∈ l, R i.2.need.version i.1) :
    Updates R s.1 (l.foldl (splitItem hash child bits) s).1 ∧
      Updates R s.2 (l.foldl (splitItem hash child bits) s).2 := by
  induction l generalizing s with
  | nil => exact ⟨.refl, .refl⟩
  | cons i l ih =>
    obtain ⟨hi, hnd'⟩ := nodup_cons.1 hnd
    obtain ⟨hfst0, hfst⟩ := forall_mem_cons.1 hfst
    obtain ⟨hsnd0, hsnd⟩ := forall_mem_cons.1 hsnd
    obtain ⟨hR0, hR⟩ := forall_mem_cons.1 hR
    have hne : ∀ j ∈ l, i.1 ≠ j.1 := fun j hj heq => hi (heq ▸ mem_map_of_mem hj)
    rw [foldl_cons]
    by_cases hin : inChild child bits (hash i.1)
    · have hs : splitItem hash child bits s i = (s.1.rmAt i.1 i.2, s.2.add i.1 i.2.need i.2.have' i.2.delete) :=
        if_pos hin
      rw [hs]
      obtain ⟨hrest1, hrest2⟩ := ih (s := (s.1.rmAt i.1 i.2, s.2.add i.1 i.2.need i.2.have' i.2.delete)) hnd'
        (fun j hj => by rw [missing_rmAt, if_neg (hne j hj), hfst j hj])
        (fun j hj => by rw [missing_add, if_neg (hne j hj), hsnd j hj]) hR
      exact ⟨.head (.rmAt hfst0) hrest1, .head (.add hsnd0 hR0) hrest2⟩
    · have hs : splitItem hash child bits s i = s := if_neg hin
      rw [hs]
      exact ih hnd' hfst hsnd hR

/-- The needs of a missing set are among the pairs of `R`. -/
def MissingSet.Named (R : ℕ → ο → Prop) (m : MissingSet ο) : Prop :=
  ∀ o item, m.missing[o]? = some item → R item.need.version o

private theorem updates_splitInto {m : MissingSet ο} (hR : m.Named R) :
    Updates R m (m.splitInto hash child bits .empty).1 ∧
      Updates R { empty with may_include_deletes := m.may_include_deletes }
        (m.splitInto hash child bits .empty).2 :=
  updates_splitItems (s := (m, { empty with may_include_deletes := m.may_include_deletes }))
    (nodup_keys m.missing) (fun _ hi => ExtTreeMap.mem_toList_iff_getElem?_eq_some.1 hi)
    (fun i _ => by simp [empty])
    fun i hi => hR i.1 i.2 (ExtTreeMap.mem_toList_iff_getElem?_eq_some.1 hi)

end

def PGLog.numbers (p : PGLog ο) : Call ο → List (ℕ × ο)
  | .appendNewLogEntries _ entries => entries.map fun e => (e.version.version, e.soid)
  | .mergeLog olog _ => (p.extendTail olog).1.mergeNumbers p.log.tail (p.extendTail olog).2
  | .rewindDivergentLog newhead _ => divergentNumbers (p.log.divergent newhead)
  | .missingAdd oid need _ => [(need.version, oid)]
  | .reviseNeed oid need _ => [(need.version, oid)]
  | _ => []

/-- The set that a call updates: the log's own, or the one of a new child. -/
def PGLog.baseMissing (p : PGLog ο) : Call ο → MissingSet ο
  | .splitOff _ _ => { empty with may_include_deletes := p.missing.may_include_deletes }
  | _ => p.missing

/-- `add` is called for an object that is not listed. -/
def PGLog.AddsUnlisted (p : PGLog ο) : Call ο → Prop
  | .missingAdd oid _ _ => p.missing.isMissing oid = none
  | _ => True

instance (p : PGLog ο) (c : Call ο) : Decidable (p.AddsUnlisted c) :=
  decidable_of_bool (match c with
    | .missingAdd oid _ _ => p.missing.isMissing oid = none
    | _ => true) (by cases c <;> simp [PGLog.AddsUnlisted])

theorem PGLog.updates_step {R : ℕ → ο → Prop} {conf : Conf ο} {p p' : PGLog ο} {c : Call ο}
    (hnum : ∀ a ∈ p.numbers c, R a.1 a.2) (hnamed : p.missing.Named R) (hadd : p.AddsUnlisted c)
    (h : p.step conf c = some p') : Updates R (p.baseMissing c) p'.missing := by
  cases c with
  | add e applied =>
    obtain ⟨log, -, rfl⟩ := map_eq_some_iff.1 h
    exact .refl
  | appendNewLogEntries last_backfill entries =>
    obtain ⟨r, hr, rfl⟩ := map_eq_some_iff.1 h
    obtain ⟨⟨log, m, acts⟩, happ, rfl⟩ := map_eq_some_iff.1 hr
    have hup : Updates R p.missing m := updates_appendLogEntriesUpdateMissing (fun e he =>
      hnum (e.version.version, e.soid) (mem_map.2 ⟨e, he, rfl⟩)) happ
    cases entries with
    | nil => exact hup
    | cons e es => exact hup
  | trim trim_to last_complete =>
    rw [missing_trim h]
    exact .refl
  | mergeLog olog last_backfill =>
    obtain ⟨⟨p'', acts⟩, hr, rfl⟩ := map_eq_some_iff.1 h
    obtain ⟨-, p1, hheads, rfl⟩ := mergeLog_eq_some.1 hr
    have hup := updates_mergeHeads hnum hheads
    rw [missing_extendTail] at hup
    obtain ⟨dups, marks_dups, heq⟩ := p1.mergeLogDups_eq (p.extendTail olog).2
    rw [heq]
    exact hup
  | rewindDivergentLog newhead last_backfill =>
    obtain ⟨⟨p'', acts⟩, hr, rfl⟩ := map_eq_some_iff.1 h
    exact updates_rewindDivergentLog hnum hr
  | splitInto child bits =>
    obtain rfl := some.inj h
    exact (updates_splitInto hnamed).1
  | splitOff child bits =>
    obtain rfl := some.inj h
    exact (updates_splitInto hnamed).2
  | resetBackfillClaimLog o =>
    obtain ⟨r, hr, rfl⟩ := map_eq_some_iff.1 h
    obtain ⟨-, hr⟩ := ite_none_right_eq_some.1 hr
    cases hr
    exact .single .clear
  | recoverGot oid v =>
    obtain ⟨-, h⟩ := ite_none_right_eq_some.1 h
    obtain ⟨m, hm, rfl⟩ := map_eq_some_iff.1 h
    split at hm
    · exact updates_got hm
    · cases hm
      exact .refl
  | missingAdd oid need have' =>
    obtain rfl := some.inj h
    exact .single (.add hadd (hnum (need.version, oid) (by simp [numbers])))
  | reviseNeed oid need is_delete =>
    obtain rfl := some.inj h
    exact updates_reviseNeed (hnum (need.version, oid) (by simp [numbers]))
  | reviseHave oid have' =>
    obtain rfl := some.inj h
    exact .single .reviseHave
  | rm oid v =>
    obtain rfl := some.inj h
    exact updates_rm

end Lunule.Pg
