import Lunule.Osdmap.Basic

/-!
# The up set of a placement group

Each stage of the mapping keeps the entries other than `CRUSH_ITEM_NONE` distinct (`Distinct`): the filters leave entries out or
put `CRUSH_ITEM_NONE` in their place, a pair of `pg_upmap_items` puts in an OSD that does not appear, and the primary affinity
moves one entry to the front. After the filter for OSDs that are up every entry is up or `CRUSH_ITEM_NONE` (`Live`).

`pg_to_raw_up` picks the primary from the raw OSDs and not from those that are up. It agrees with `_pg_to_up_acting_osds` on
the primary just if the first raw OSD is up (or is -1, where none is up) or the affinities decide.
-/

namespace Lunule.Osdmap
open OSDMap List
variable {m : OSDMap} {pool : PgPool} {osds raw : List ℤ} {o : ℤ}

def Distinct (osds : List ℤ) : Prop := osds.Pairwise fun a b => a ≠ CRUSH_ITEM_NONE → a ≠ b

instance : DecidablePred Distinct := fun osds => inferInstanceAs (Decidable (osds.Pairwise _))

def Live (m : OSDMap) (osds : List ℤ) : Prop := ∀ o ∈ osds, o ≠ CRUSH_ITEM_NONE → m.exists o ∧ m.isUp o

section
variable (h : Distinct osds)
include h

private theorem Distinct.filter (p : ℤ → Bool) : Distinct (osds.filter p) := h.sublist filter_sublist

private theorem Distinct.map {f : ℤ → ℤ} (hf : ∀ o, f o = o ∨ f o = CRUSH_ITEM_NONE) :
    Distinct (osds.map f) := by
  refine pairwise_map.2 (List.Pairwise.imp (fun {a b} hab hne heq => ?_) h)
  rcases hf a with ha | ha
  · rcases hf b with hb | hb
    · rw [ha] at hne heq
      exact hab hne (heq.trans hb)
    · exact hne (heq.trans hb)
  · exact hne ha

private theorem Distinct.perm {osds' : List ℤ} (hp : osds.Perm osds') : Distinct osds' := by
  refine (List.Perm.pairwise_iff (fun {a b} hab hne heq => ?_) hp).1 h
  exact hab (heq ▸ hne) heq.symm

private theorem Distinct.set (hnew : o ∉ osds) (pos : ℕ) : Distinct (osds.set pos o) := by
  induction osds generalizing pos with
  | nil => exact h
  | cons a osds ih =>
    obtain ⟨hfirst, hrest⟩ := pairwise_cons.1 h
    rw [mem_cons, not_or] at hnew
    cases pos with
    | zero =>
      refine pairwise_cons.2 ⟨fun b hb _ heq => ?_, hrest⟩
      exact hnew.2 (heq ▸ hb)
    | succ pos =>
      refine pairwise_cons.2 ⟨fun b hb hne => ?_, ih hrest hnew.2 pos⟩
      rcases mem_or_eq_of_mem_set hb with hb | rfl
      · exact hfirst b hb hne
      · exact fun heq => hnew.1 heq.symm

end

private theorem not_exists_none (m : OSDMap) : m.exists CRUSH_ITEM_NONE = false := by
  have := m.max_osd_le
  unfold OSDMap.exists
  rw [decide_eq_false_iff_not]
  omega

private theorem ne_neg_one_of_exists (h : m.exists o) : o ≠ -1 := by
  unfold OSDMap.exists at h
  rw [decide_eq_true_eq] at h
  omega

private theorem distinct_removeNonexistentOsds (h : Distinct osds) : Distinct (m.removeNonexistentOsds pool osds) := by
  unfold removeNonexistentOsds
  split
  · exact h.filter _
  · refine h.map fun o => ?_
    split
    · exact .inl rfl
    · exact .inr rfl

section
variable {r : ℤ × ℤ}

private theorem itemPos_spec {i pos : ℕ} {found : Option ℕ} (h : m.itemPos r raw i found = some pos) : r.2 ∉ raw := by
  induction raw generalizing i found with
  | nil => exact not_mem_nil
  | cons osd raw ih =>
    obtain ⟨hne, h⟩ := Option.ite_none_left_eq_some.1 h
    rw [mem_cons, not_or]
    exact ⟨fun heq => hne heq.symm, ih h⟩

private theorem distinct_applyItem (h : Distinct raw) : Distinct (m.applyItem raw r) := by
  unfold applyItem
  split
  · exact h
  · rename_i pos hpos
    exact h.set (itemPos_spec hpos) pos

private theorem distinct_foldl_applyItem (items : List (ℤ × ℤ)) (h : Distinct raw) :
    Distinct (items.foldl m.applyItem raw) := by
  induction items generalizing raw with
  | nil => exact h
  | cons r items ih => exact ih (distinct_applyItem h)

private theorem distinct_applyUpmap {pg : PgT} (hupmap : ∀ pg v, m.pg_upmap pg = some v → Distinct v)
    (h : Distinct raw) : Distinct (m.applyUpmap pool pg raw) := by
  unfold applyUpmap
  dsimp only
  split
  · exact distinct_foldl_applyItem _ h
  · rename_i v hv
    split
    · exact h
    · exact distinct_foldl_applyItem _ (hupmap _ v hv)

end

section

private theorem keep_iff : (!m.exists o || m.isDown o) = false ↔ m.isUp o := by
  unfold isDown isUp
  rw [Bool.or_eq_false_iff, Bool.not_eq_false', Bool.not_eq_false', decide_eq_true_eq]
  exact ⟨fun h => h.2, fun h => ⟨h.1, h⟩⟩

private theorem exists_of_isUp (h : m.isUp o) : m.exists o := (of_decide_eq_true h).1

private theorem distinct_rawToUpOsds (h : Distinct raw) : Distinct (m.rawToUpOsds pool raw) := by
  unfold rawToUpOsds
  split
  · exact h.filter _
  · refine h.map fun o => ?_
    split
    · exact .inr rfl
    · exact .inl rfl

private theorem mem_rawToUpOsds (hne : o ≠ CRUSH_ITEM_NONE) : o ∈ m.rawToUpOsds pool raw ↔ o ∈ raw ∧ m.isUp o := by
  unfold rawToUpOsds
  split
  · rw [mem_filter, Bool.not_eq_true', keep_iff]
  rw [mem_map]
  constructor
  · rintro ⟨o', ho', heq⟩
    split at heq
    · exact absurd heq.symm hne
    · rename_i hkeep
      subst heq
      exact ⟨ho', keep_iff.1 (Bool.eq_false_iff.2 hkeep)⟩
  · rintro ⟨ho, hup⟩
    exact ⟨o, ho, by rw [keep_iff.2 hup]; rfl⟩

private theorem live_rawToUpOsds : Live m (m.rawToUpOsds pool raw) := by
  intro o ho hne
  have hup := ((mem_rawToUpOsds hne).1 ho).2
  exact ⟨exists_of_isUp hup, hup⟩

private theorem none_notMem_rawToUpOsds (hshift : pool.canShiftOsds) : CRUSH_ITEM_NONE ∉ m.rawToUpOsds pool raw := by
  intro h
  unfold rawToUpOsds at h
  rw [if_pos hshift] at h
  have hkeep := (mem_filter.1 h).2
  rw [not_exists_none] at hkeep
  cases hkeep

private theorem positional_rawToUpOsds (hshift : pool.canShiftOsds = false) :
    (m.rawToUpOsds pool raw).length = raw.length ∧
      ∀ (i : ℕ) o, (m.rawToUpOsds pool raw)[i]? = some o → raw[i]? = some o ∨ o = CRUSH_ITEM_NONE := by
  unfold rawToUpOsds
  rw [hshift, if_neg Bool.false_ne_true]
  refine ⟨length_map _, fun i o h => ?_⟩
  rw [getElem?_map] at h
  obtain ⟨o', ho', heq⟩ := Option.map_eq_some_iff.1 h
  split at heq
  · exact .inr heq.symm
  · exact .inl (heq ▸ ho')

end

section

private theorem pickPrimary_spec (osds : List ℤ) : (pickPrimary osds ∈ osds ∧ pickPrimary osds ≠ CRUSH_ITEM_NONE) ∨
      (pickPrimary osds = -1 ∧ ∀ o ∈ osds, o = CRUSH_ITEM_NONE) := by
  unfold pickPrimary
  cases hfind : osds.find? (· ≠ CRUSH_ITEM_NONE) with
  | none =>
    refine .inr ⟨rfl, fun o ho => ?_⟩
    have := find?_eq_none.1 hfind o ho
    simpa using this
  | some o => exact .inl ⟨mem_of_find?_eq_some hfind, by simpa using find?_some hfind⟩

private theorem pickPrimary_cons_none : pickPrimary (CRUSH_ITEM_NONE :: osds) = pickPrimary osds := by
  unfold pickPrimary
  rw [find?_cons_of_neg (by simp)]

private theorem pickPrimary_cons (h : o ≠ CRUSH_ITEM_NONE) : pickPrimary (o :: osds) = o := by
  unfold pickPrimary
  rw [find?_cons_of_pos (by simpa using h)]
  rfl

private theorem pickPrimary_eq_head (h : CRUSH_ITEM_NONE ∉ osds) : pickPrimary osds = osds.headD (-1) := by
  cases osds with
  | nil => rfl
  | cons o osds =>
    rw [mem_cons, not_or] at h
    exact pickPrimary_cons fun heq => h.1 heq.symm

private theorem pickPrimary_rawToUpOsds (h : ∀ o, raw.find? (· ≠ CRUSH_ITEM_NONE) = some o → m.isUp o) :
    pickPrimary (m.rawToUpOsds pool raw) = pickPrimary raw := by
  induction raw with
  | nil =>
    unfold rawToUpOsds
    split <;> rfl
  | cons o raw ih =>
    by_cases hnone : o = CRUSH_ITEM_NONE
    · subst hnone
      rw [find?_cons_of_neg (by simp)] at h
      rw [pickPrimary_cons_none, ← ih h]
      unfold rawToUpOsds
      split
      · rw [filter_cons_of_neg (by rw [not_exists_none]; exact Bool.false_ne_true)]
      · rw [map_cons, not_exists_none]
        exact pickPrimary_cons_none
    · rw [find?_cons_of_pos (by simpa using hnone)] at h
      have hkeep := keep_iff.2 (h o rfl)
      rw [pickPrimary_cons hnone]
      unfold rawToUpOsds
      split
      · rw [filter_cons_of_pos (by rw [hkeep]; rfl)]
        exact pickPrimary_cons hnone
      · rw [map_cons, hkeep]
        exact pickPrimary_cons hnone

/-- The primary picked from the raw OSDs is the one picked from those that are up. -/
def SamePick (m : OSDMap) (raw : List ℤ) : Prop :=
  ∀ o, raw.find? (· ≠ CRUSH_ITEM_NONE) = some o → m.isUp o ∨ o = -1 ∧ ∀ o' ∈ raw, ¬m.isUp o'

private theorem pickPrimary_eq_iff : pickPrimary raw = pickPrimary (m.rawToUpOsds pool raw) ↔ SamePick m raw := by
  rcases pickPrimary_spec (m.rawToUpOsds pool raw) with ⟨hmem, hne⟩ | ⟨hneg, hall⟩
  · -- some OSD is up
    have hup := (mem_rawToUpOsds hne).1 hmem
    refine ⟨fun heq o ho => .inl ?_, fun h => (pickPrimary_rawToUpOsds fun o ho => ?_).symm⟩
    · rw [pickPrimary, ho, Option.getD_some] at heq
      rw [heq]
      exact hup.2
    · exact (h o ho).resolve_right fun hdown => hdown.2 _ hup.1 hup.2
  · have hdown : ∀ o ∈ raw, ¬m.isUp o := fun o ho hup => by
      have hex := exists_of_isUp hup
      by_cases hne : o = CRUSH_ITEM_NONE
      · rw [hne, not_exists_none] at hex
        cases hex
      · exact hne (hall o ((mem_rawToUpOsds hne).2 ⟨ho, hup⟩))
    rw [hneg, SamePick, pickPrimary]
    cases hfirst : raw.find? (· ≠ CRUSH_ITEM_NONE) with
    | none => simp
    | some o => simpa [hdown o (mem_of_find?_eq_some hfirst)] using fun _ => hdown

variable {affinity : ℤ → ℕ} {seed : ℕ} {found : Option ℕ}

private theorem affinityPos_spec {i pos : ℕ} (h : m.affinityPos affinity seed osds i found = some pos) :
    found = some pos ∨ ∃ k o, pos = i + k ∧ osds[k]? = some o ∧ o ≠ CRUSH_ITEM_NONE := by
  induction osds generalizing i found with
  | nil => exact .inl h
  | cons o osds ih =>
    rw [affinityPos] at h
    split_ifs at h with hnone hreject
    · rcases ih h with h | ⟨k, o', hk, ho', hne⟩
      · exact .inl h
      · exact .inr ⟨k + 1, o', by omega, ho', hne⟩
    · rcases ih h with h | ⟨k, o', hk, ho', hne⟩
      · cases found with
        | none =>
          cases h
          exact .inr ⟨0, o, rfl, rfl, hnone⟩
        | some pos' => exact .inl h
      · exact .inr ⟨k + 1, o', by omega, ho', hne⟩
    · cases h
      exact .inr ⟨0, o, rfl, rfl, hnone⟩

private theorem affinityPos_eq_none {i : ℕ} (h : m.affinityPos affinity seed osds i found = none) :
    found = none ∧ ∀ o ∈ osds, o = CRUSH_ITEM_NONE := by
  induction osds generalizing i found with
  | nil => exact ⟨h, fun o ho => absurd ho not_mem_nil⟩
  | cons o osds ih =>
    rw [affinityPos] at h
    split_ifs at h with hnone hreject
    · obtain ⟨hfound, hall⟩ := ih h
      exact ⟨hfound, forall_mem_cons.2 ⟨hnone, hall⟩⟩
    · cases found with
      | none => exact absurd (ih h).1 (by simp)
      | some pos => exact absurd (ih h).1 (by simp)

private theorem exists_of_anyAffinity (h : anyAffinity affinity osds) : ∃ o ∈ osds, o ≠ CRUSH_ITEM_NONE := by
  obtain ⟨o, ho, hne⟩ := any_eq_true.1 h
  exact ⟨o, ho, (of_decide_eq_true hne).1⟩

def Decides (m : OSDMap) (osds : List ℤ) : Prop := ∃ affinity, m.osd_primary_affinity = some affinity ∧ anyAffinity affinity osds

private theorem Decides.perm {osds' : List ℤ} (h : Decides m osds) (hp : osds.Perm osds') : Decides m osds' := by
  obtain ⟨affinity, haff, hany⟩ := h
  exact ⟨affinity, haff, hp.any_eq.symm.trans hany⟩

private theorem applyPrimaryAffinity_cases (m : OSDMap) (seed : ℕ) (pool : PgPool) (osds : List ℤ) :
    (¬Decides m osds ∧ ∀ primary, m.applyPrimaryAffinity seed pool osds primary = (osds, primary)) ∨
      (Decides m osds ∧ ∃ pos o, osds[pos]? = some o ∧ o ≠ CRUSH_ITEM_NONE ∧ ∀ primary,
        m.applyPrimaryAffinity seed pool osds primary =
          (if pool.canShiftOsds && 0 < pos then o :: osds.eraseIdx pos else osds, o)) := by
  unfold applyPrimaryAffinity
  cases haff : m.osd_primary_affinity with
  | none =>
    refine .inl ⟨?_, fun primary => rfl⟩
    rintro ⟨affinity, heq, -⟩
    rw [haff] at heq
    cases heq
  | some affinity =>
    by_cases hany : anyAffinity affinity osds
    · refine .inr ⟨⟨affinity, haff, hany⟩, ?_⟩
      cases hpos : m.affinityPos affinity seed osds 0 none with
      | none =>
        obtain ⟨o, ho, hne⟩ := exists_of_anyAffinity hany
        exact absurd ((affinityPos_eq_none hpos).2 o ho) hne
      | some pos =>
        rcases affinityPos_spec hpos with h | ⟨k, o, hk, ho, hne⟩
        · cases h
        rw [Nat.zero_add] at hk
        subst hk
        refine ⟨pos, o, ho, hne, fun primary => ?_⟩
        dsimp only
        rw [if_pos hany, hpos]
        dsimp only
        rw [getD_eq_getElem?_getD, ho, Option.getD_some]
    · refine .inl ⟨?_, fun primary => ?_⟩
      · rintro ⟨affinity', heq, hany'⟩
        rw [haff, Option.some.injEq] at heq
        exact hany (heq ▸ hany')
      · dsimp only
        rw [if_neg hany]

private theorem perm_front {pos : ℕ} (h : osds[pos]? = some o) : osds.Perm (o :: osds.eraseIdx pos) := by
  obtain ⟨hlt, rfl⟩ := List.getElem?_eq_some_iff.1 h
  exact (getElem_cons_eraseIdx_perm hlt).symm

private theorem applyPrimaryAffinity_perm (seed : ℕ) (primary : ℤ) :
    osds.Perm (m.applyPrimaryAffinity seed pool osds primary).1 := by
  rcases applyPrimaryAffinity_cases m seed pool osds with ⟨-, h⟩ | ⟨-, pos, o, ho, -, h⟩
  · rw [h]
  · rw [h]
    split
    · exact perm_front ho
    · rfl

private theorem applyPrimaryAffinity_positional (hshift : pool.canShiftOsds = false) (seed : ℕ) (primary : ℤ) :
    (m.applyPrimaryAffinity seed pool osds primary).1 = osds := by
  rcases applyPrimaryAffinity_cases m seed pool osds with ⟨-, h⟩ | ⟨-, pos, o, ho, -, h⟩
  · rw [h]
  · rw [h, hshift]
    rfl

private theorem applyPrimaryAffinity_primary (seed : ℕ) :
    let r := m.applyPrimaryAffinity seed pool osds (pickPrimary osds)
    (r.2 ∈ r.1 ∧ r.2 ≠ CRUSH_ITEM_NONE) ∨ (r.2 = -1 ∧ ∀ o ∈ r.1, o = CRUSH_ITEM_NONE) := by
  intro r
  have hperm : osds.Perm r.1 := applyPrimaryAffinity_perm seed _
  rcases applyPrimaryAffinity_cases m seed pool osds with ⟨-, h⟩ | ⟨-, pos, o, ho, hne, h⟩
  · have hr : r = (osds, pickPrimary osds) := h _
    rw [hr]
    exact pickPrimary_spec osds
  · have hr : r.2 = o := by rw [show r = _ from h _]
    exact .inl ⟨hr ▸ hperm.mem_iff.1 (mem_of_getElem? ho), hr ▸ hne⟩

private theorem applyPrimaryAffinity_head (hshift : pool.canShiftOsds) (hnone : CRUSH_ITEM_NONE ∉ osds) (seed : ℕ) :
    let r := m.applyPrimaryAffinity seed pool osds (pickPrimary osds)
    r.2 = r.1.headD (-1) := by
  intro r
  rcases applyPrimaryAffinity_cases m seed pool osds with ⟨-, h⟩ | ⟨-, pos, o, ho, hne, h⟩
  · have hr : r = (osds, pickPrimary osds) := h _
    rw [hr]
    exact pickPrimary_eq_head hnone
  have hr : r = _ := h _
  rw [hr, hshift, Bool.true_and]
  cases pos with
  | zero =>
    cases osds with
    | nil => cases ho
    | cons o' osds =>
      cases ho
      rfl
  | succ pos => rfl

end

/-- Where `_pg_to_up_acting_osds` maps a placement group: its pool exists and, unless it is a raw one, it is one of the pool's. -/
def Mapped (m : OSDMap) (pg : PgT) (raw_pg_to_pg : Bool) (pool : PgPool) : Prop :=
  m.pools pg.m_pool = some pool ∧ (raw_pg_to_pg = true ∨ pg.m_seed < pool.pg_num)

def upOsds (m : OSDMap) (pool : PgPool) (pg : PgT) : List ℤ × ℤ :=
  let up := m.rawToUpOsds pool (m.upmapped pool pg)
  m.applyPrimaryAffinity (m.pgToRawOsds pool pg).2 pool up (pickPrimary up)

section
variable {pg : PgT} {raw_pg_to_pg : Bool}

private theorem pgToUpActingOsds_of_mapped (h : Mapped m pg raw_pg_to_pg pool) :
    let r := m.pgToUpActingOsds pg raw_pg_to_pg
    r.up = (upOsds m pool pg).1 ∧ r.up_primary = (upOsds m pool pg).2 ∧
      r.acting = if (m.getTempOsds pool pg).1 = [] then (upOsds m pool pg).1 else (m.getTempOsds pool pg).1 := by
  have hguard : (!raw_pg_to_pg && decide (pool.pg_num ≤ pg.m_seed)) = false := by
    rcases h.2 with h | h
    · rw [h]
      rfl
    · rw [decide_eq_false (by omega), Bool.and_false]
  unfold pgToUpActingOsds upOsds
  rw [h.1]
  dsimp only
  rw [hguard, if_neg Bool.false_ne_true]
  split_ifs <;> exact ⟨rfl, rfl, rfl⟩

private theorem pgToUpActingOsds_of_not_mapped (h : ∀ pool, ¬Mapped m pg raw_pg_to_pg pool) :
    m.pgToUpActingOsds pg raw_pg_to_pg = ⟨[], -1, [], -1⟩ := by
  unfold pgToUpActingOsds
  cases hpool : m.pools pg.m_pool with
  | none => rfl
  | some pool =>
    have hguard : (!raw_pg_to_pg && decide (pool.pg_num ≤ pg.m_seed)) = true := by
      have := h pool
      unfold Mapped at this
      cases raw_pg_to_pg <;> simp_all
    dsimp only
    rw [hguard]
    rfl

private theorem pgToRawUp_of_pool (h : m.pools pg.m_pool = some pool) :
    m.pgToRawUp pg = m.applyPrimaryAffinity (m.pgToRawOsds pool pg).2 pool (m.rawToUpOsds pool (m.upmapped pool pg))
      (pickPrimary (m.upmapped pool pg)) := by
  unfold pgToRawUp
  rw [h]

private theorem distinct_upmapped
    (hcrush : ∀ ruleno pps size pool, Distinct (m.crush.do_rule ruleno pps size m.osd_weight pool))
    (hupmap : ∀ pg v, m.pg_upmap pg = some v → Distinct v) : Distinct (m.upmapped pool pg) := by
  refine distinct_applyUpmap hupmap (distinct_removeNonexistentOsds ?_)
  split
  · exact hcrush _ _ _ _
  · exact List.Pairwise.nil

private theorem live_upOsds : Live m (upOsds m pool pg).1 := fun o ho =>
  live_rawToUpOsds o ((applyPrimaryAffinity_perm _ _).mem_iff.2 ho)

private theorem upOsds_primary : ((upOsds m pool pg).2 = -1 ↔ ∀ o ∈ (upOsds m pool pg).1, o = CRUSH_ITEM_NONE) ∧
      ((upOsds m pool pg).2 ≠ -1 → (upOsds m pool pg).2 ∈ (upOsds m pool pg).1) := by
  have hprimary : ((upOsds m pool pg).2 ∈ (upOsds m pool pg).1 ∧ (upOsds m pool pg).2 ≠ CRUSH_ITEM_NONE) ∨
      ((upOsds m pool pg).2 = -1 ∧ ∀ o ∈ (upOsds m pool pg).1, o = CRUSH_ITEM_NONE) := applyPrimaryAffinity_primary _
  rcases hprimary with ⟨hmem, hne⟩ | ⟨hneg, hall⟩
  · have hneg := ne_neg_one_of_exists (live_upOsds _ hmem hne).1
    exact ⟨⟨fun h => absurd h hneg, fun hall => absurd (hall _ hmem) hne⟩, fun _ => hmem⟩
  · exact ⟨⟨fun _ => hall, fun _ => hneg⟩, fun h => absurd hneg h⟩

private theorem upOsds_replicated (hshift : pool.canShiftOsds) :
    CRUSH_ITEM_NONE ∉ (upOsds m pool pg).1 ∧ (upOsds m pool pg).2 = (upOsds m pool pg).1.headD (-1) := by
  have hnone : CRUSH_ITEM_NONE ∉ m.rawToUpOsds pool (m.upmapped pool pg) := none_notMem_rawToUpOsds hshift
  exact ⟨fun h => hnone ((applyPrimaryAffinity_perm _ _).mem_iff.2 h), applyPrimaryAffinity_head hshift hnone _⟩

private theorem upOsds_erasure (hshift : pool.canShiftOsds = false) :
    (upOsds m pool pg).1.length = (m.upmapped pool pg).length ∧ ∀ (i : ℕ) o, (upOsds m pool pg).1[i]? = some o →
      (m.upmapped pool pg)[i]? = some o ∨ o = CRUSH_ITEM_NONE := by
  have heq : (upOsds m pool pg).1 = m.rawToUpOsds pool (m.upmapped pool pg) := applyPrimaryAffinity_positional hshift _ _
  rw [heq]
  exact positional_rawToUpOsds hshift

/-- The two pipelines give the same up set, and the same primary where the same one is picked or the affinities decide. -/
theorem pgToRawUp_spec (h : m.pools pg.m_pool = some pool) : (m.pgToRawUp pg).1 = (upOsds m pool pg).1 ∧
      ((m.pgToRawUp pg).2 = (upOsds m pool pg).2 ↔ SamePick m (m.upmapped pool pg) ∨ Decides m (upOsds m pool pg).1) := by
  rw [pgToRawUp_of_pool h]
  unfold upOsds
  rcases applyPrimaryAffinity_cases m (m.pgToRawOsds pool pg).2 pool (m.rawToUpOsds pool (m.upmapped pool pg)) with
    ⟨hnot, heq⟩ | ⟨hdec, pos, o, -, -, heq⟩
  · rw [heq, heq]
    exact ⟨rfl, by simpa [hnot] using pickPrimary_eq_iff⟩
  · refine ⟨by rw [heq, heq], iff_of_true (by rw [heq, heq]) (.inr (hdec.perm (applyPrimaryAffinity_perm _ _)))⟩

end

private theorem canShiftOsds_iff : pool.canShiftOsds ↔ pool.type = .replicated := decide_eq_true_iff

/-- The mapping of a placement group gives a usable up set. -/
theorem mapping_usable (m : OSDMap) (pg : PgT) (raw_pg_to_pg : Bool)
    (hcrush : ∀ ruleno pps size pool, Distinct (m.crush.do_rule ruleno pps size m.osd_weight pool))
    (hupmap : ∀ pg v, m.pg_upmap pg = some v → Distinct v) :
    let r := m.pgToUpActingOsds pg raw_pg_to_pg
    Distinct r.up ∧ Live m r.up ∧
    (r.up_primary = -1 ↔ ∀ o ∈ r.up, o = CRUSH_ITEM_NONE) ∧ (r.up_primary ≠ -1 → r.up_primary ∈ r.up) ∧
    ∀ pool, Mapped m pg raw_pg_to_pg pool →
      (pool.type = .replicated → CRUSH_ITEM_NONE ∉ r.up ∧ r.up_primary = r.up.headD (-1)) ∧
      (pool.type = .erasure → r.up.length = (m.upmapped pool pg).length ∧
        ∀ (i : ℕ) o, r.up[i]? = some o → (m.upmapped pool pg)[i]? = some o ∨ o = CRUSH_ITEM_NONE) ∧
      ((m.getTempOsds pool pg).1 ≠ [] → r.acting = (m.getTempOsds pool pg).1 ∧ Live m r.acting ∧
        (pool.type = .replicated → CRUSH_ITEM_NONE ∉ r.acting)) ∧
      ((m.getTempOsds pool pg).1 = [] → r.acting = r.up) ∧
      (m.pgToRawUp pg).1 = r.up ∧
      ((m.pgToRawUp pg).2 = r.up_primary ↔ SamePick m (m.upmapped pool pg) ∨ Decides m r.up) := by
  intro r
  by_cases hmapped : ∃ pool, Mapped m pg raw_pg_to_pg pool
  · obtain ⟨pool, hpool⟩ := hmapped
    obtain ⟨hup, hprimary, hacting⟩ := pgToUpActingOsds_of_mapped hpool
    rw [show r.up = _ from hup, show r.up_primary = _ from hprimary, show r.acting = _ from hacting]
    refine ⟨(distinct_rawToUpOsds (distinct_upmapped hcrush hupmap)).perm (applyPrimaryAffinity_perm _ _), live_upOsds,
      upOsds_primary.1, upOsds_primary.2, fun pool' hpool' => ?_⟩
    have heq : pool' = pool := Option.some.inj (hpool'.1.symm.trans hpool.1)
    subst heq
    refine ⟨fun htype => upOsds_replicated (canShiftOsds_iff.2 htype), fun htype => upOsds_erasure ?_, fun htemp => ?_,
      fun htemp => if_pos htemp, pgToRawUp_spec hpool.1⟩
    · unfold PgPool.canShiftOsds
      rw [htype]
      rfl
    · rw [if_neg htemp]
      exact ⟨rfl, live_rawToUpOsds, fun htype => none_notMem_rawToUpOsds (canShiftOsds_iff.2 htype)⟩
  · have hr : r = ⟨[], -1, [], -1⟩ := pgToUpActingOsds_of_not_mapped (not_exists.1 hmapped)
    rw [hr]
    exact ⟨List.Pairwise.nil, fun o ho => absurd ho not_mem_nil, by simp, fun h => absurd rfl h,
      fun pool h => absurd ⟨pool, h⟩ hmapped⟩

private theorem noHash_lt (_ : ℕ) (_ _ _ _ : ℤ) : 0 < 2 ^ 32 := by decide

private def noHash : Crush.Hash := ⟨fun _ _ => 0, fun _ _ _ _ => 0, fun _ _ _ _ _ => 0, noHash_lt⟩

/-- Three OSDs in a replicated pool of two; the map remaps 1 to 2. -/
private def remapped (osd_state : ℤ → ℕ) : OSDMap where
  max_osd := 3
  osd_state := osd_state
  osd_weight := fun _ => 0x10000
  osd_primary_affinity := none
  pools := fun p => if p = 1 then some ⟨.replicated, 2, 0, 1, 0, 1, 0, true⟩ else none
  pg_temp := fun _ => none
  primary_temp := fun _ => none
  pg_upmap := fun _ => none
  pg_upmap_items := fun _ => some [(1, 2)]
  crush := ⟨noHash, fun _ _ _ => 0, fun _ _ _ _ _ => [0, 1]⟩
  max_osd_le := by decide

theorem mapping_usable_remapped : ((remapped fun _ => 3).pgToUpActingOsds ⟨1, 0, -1⟩ true).up = [0, 2] ∧
      ((remapped fun _ => 3).pgToRawUp ⟨1, 0, -1⟩).2 =
        ((remapped fun _ => 3).pgToUpActingOsds ⟨1, 0, -1⟩ true).up_primary := by
  have h := mapping_usable (remapped fun _ => 3) ⟨1, 0, -1⟩ true (fun _ _ _ _ => show Distinct [0, 1] by decide)
    nofun
  refine ⟨by decide +kernel, ?_⟩
  refine (h.2.2.2.2 ⟨.replicated, 2, 0, 1, 0, 1, 0, true⟩ ⟨rfl, .inl rfl⟩).2.2.2.2.2.mpr
    (.inl fun o ho => .inl ?_)
  have heq : some 0 = some o := ho
  cases heq
  decide +kernel

/-- If the first raw OSD is down, `pg_to_raw_up` makes it the primary of an up set it is not in. -/
theorem pgToRawUp_primary_down : (remapped fun o => if o = 0 then 1 else 3).pgToRawUp ⟨1, 0, -1⟩ = ([2], 0) ∧
      (remapped fun o => if o = 0 then 1 else 3).pgToUpActingOsds ⟨1, 0, -1⟩ true = ⟨[2], 2, [2], 2⟩ := by
  decide +kernel

end Lunule.Osdmap
