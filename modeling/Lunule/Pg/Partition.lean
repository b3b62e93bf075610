import Lunule.Pg.Missing

/-!
# Splitting the log and the missing set of a group

When its pool grows, a group hands to each child the log entries and the missing items whose hash has the child's low bits,
one child after the other (`splitPgs`). Seen through what it holds, a split keeps exactly the part of one of two
complementary tests on the hash, so after all children the parts are those of the new groups of the hashes
(`splitPgs_view`): each goes to one place, and what stays is what the new pool still maps to the parent.
-/

namespace Lunule.Pg
open LinearHash Std List

/-- `pg_log_t`. -/
structure PgLog (ο : Type) where
  head : Eversion
  tail : Eversion
  can_rollback_to : Eversion
  rollback_info_trimmed_to : Eversion
  log : List (LogEntry ο)
  dups : List DupEntry
deriving DecidableEq

/-- `pg_log_t::split_out_child`: what is left, and the child's log. -/
def PgLog.splitOutChild {ο : Type} (hash : ο → BitVec 32) (child_pgid : PgT) (split_bits : ℕ) (l : PgLog ο) :
    PgLog ο × PgLog ο :=
  let logs := l.log.foldl
    (fun (p : List (LogEntry ο) × List (LogEntry ο)) i =>
      if inChild child_pgid split_bits (hash i.soid) then (p.1, p.2 ++ [i]) else (p.1 ++ [i], p.2))
    ([], [])
  ({ l with log := logs.1 }, { l with log := logs.2 })

/-- Split the children off one after the other, as `OSD::split_pgs` does: their parts, and what is left. -/
def splitPgs {σ : Type} (split : PgT → ℕ → σ → σ × σ) (pg_num : BitVec 32) : List PgT → σ → Option (List (PgT × σ) × σ)
  | [], parent => some ([], parent)
  | child :: children, parent =>
    match child.getSplitBits pg_num with
    | none => none
    | some split_bits =>
      let (parent', part) := split child split_bits parent
      match splitPgs split pg_num children parent' with
      | none => none
      | some (parts, rest) => some ((child, part) :: parts, rest)

def groupOf (pg_num hash : BitVec 32) : BitVec 32 := cephStableMod hash pg_num (pgNumMask pg_num)

section
variable {old new h : BitVec 32} {pg c : PgT}

private theorem splitMask_eq {bits : ℕ} (hbits : bits ≤ 31) : splitMask bits = maskOf bits := by
  have hall : ∀ bits : Fin 32, splitMask bits = maskOf bits := by decide
  exact hall ⟨bits, by omega⟩

private theorem width_le (h₁ : 0 < new.toNat) (h₃ : new.toNat < 2 ^ 31) (c : ℕ) : width new.toNat c ≤ 31 := by
  have := log2_lt_of_lt h₁ h₃
  unfold width
  split <;> omega

private theorem inChild_iff {bits : ℕ} (h₁ : 0 < new.toNat) (h₃ : new.toNat < 2 ^ 31) (hc : c.m_seed < new)
    (hbits : c.getSplitBits new = some bits) : inChild c bits h = decide (groupOf new h = c.m_seed) := by
  have hle : bits ≤ 31 := by
    rw [getSplitBits_eq h₁ h₃] at hbits
    obtain rfl := Option.some.inj hbits
    exact width_le h₁ h₃ _
  unfold inChild groupOf
  rw [decide_eq_decide, stableMod_eq_iff h₁ h₃ hc hbits, splitMask_eq hle, ← BitVec.toNat_inj, toNat_and_maskOf hle]

private theorem groupOf_eq_or_child (h₁ : 0 < old.toNat) (h₂ : old.toNat ≤ new.toNat) (h₃ : new.toNat < 2 ^ 31)
    (hh : groupOf old h = pg.m_seed) :
    groupOf new h = pg.m_seed ∨ pg.Child old new ⟨pg.m_pool, groupOf new h, pg.m_preferred⟩ := by
  have hgroup : groupOf old (groupOf new h) = pg.m_seed := by
    rw [← hh]
    apply BitVec.eq_of_toNat_eq
    unfold groupOf
    rw [stableMod_pgNumMask h₁ (by omega), stableMod_pgNumMask (by omega) h₃, stableMod_pgNumMask h₁ (by omega),
      bin_bin h₁ h₂]
  have hlt : (groupOf new h).toNat < new.toNat := by
    unfold groupOf
    rw [stableMod_pgNumMask (by omega) h₃]
    exact bin_lt (by omega)
  rcases Nat.lt_or_ge (groupOf new h).toNat old.toNat with hold | hold
  · left
    rw [← hgroup]
    apply BitVec.eq_of_toNat_eq
    have hself := stableMod_pgNumMask (x := groupOf new h) h₁ (by omega)
    rw [bin_of_lt hold] at hself
    exact hself.symm
  · right
    exact ⟨rfl, rfl, BitVec.le_def.2 hold, BitVec.lt_def.2 hlt, hgroup⟩

private theorem groupOf_notMem_iff {children : List PgT} (h₁ : 0 < old.toNat) (h₂ : old.toNat ≤ new.toNat)
    (h₃ : new.toNat < 2 ^ 31) (hm : pg.m_seed < old) (hch : ∀ c, c ∈ children ↔ pg.Child old new c)
    (hh : groupOf old h = pg.m_seed) : groupOf new h ∉ children.map PgT.m_seed ↔ groupOf new h = pg.m_seed := by
  constructor
  · intro hno
    rcases groupOf_eq_or_child h₁ h₂ h₃ hh with heq | hc
    · exact heq
    · exact absurd (mem_map_of_mem ((hch _).2 hc)) hno
  · intro heq hmem
    obtain ⟨c, hc, hseed⟩ := mem_map.1 hmem
    have hlow := BitVec.le_def.1 ((hch c).1 hc).2.2.1
    have hm' := BitVec.lt_def.1 hm
    rw [hseed, heq] at hlow
    omega

end

/-!
### Child by child
-/

section
variable {σ τ : Type} {new : BitVec 32} {restrict : (BitVec 32 → Bool) → τ → τ} {view : σ → τ}
  {split : PgT → ℕ → σ → σ × σ}

/-- A split gives the child what passes its test and keeps the rest, as seen through `view`. -/
def SplitsBy (restrict : (BitVec 32 → Bool) → τ → τ) (view : σ → τ) (split : PgT → ℕ → σ → σ × σ) : Prop :=
  ∀ child bits s, view (split child bits s).1 = restrict (fun h => !inChild child bits h) (view s) ∧
    view (split child bits s).2 = restrict (inChild child bits) (view s)

private theorem splitPgs_view (h₁ : 0 < new.toNat) (h₃ : new.toNat < 2 ^ 31) (hid : ∀ t, restrict (fun _ => true) t = t)
    (htwice : ∀ P Q t, restrict P (restrict Q t) = restrict (fun h => Q h && P h) t)
    (hsplit : SplitsBy restrict view split) (children : List PgT) (hnd : (children.map PgT.m_seed).Nodup)
    (hlt : ∀ c ∈ children, c.m_seed < new) (s : σ) :
    ∃ parts rest, splitPgs split new children s = some (parts, rest) ∧ parts.map Prod.fst = children ∧
      (∀ p ∈ parts, view p.2 = restrict (fun h => groupOf new h = p.1.m_seed) (view s)) ∧
      view rest = restrict (fun h => groupOf new h ∉ children.map PgT.m_seed) (view s) := by
  induction children generalizing s with
  | nil => exact ⟨[], s, rfl, rfl, by simp, by simp [hid]⟩
  | cons c cs ih =>
    rw [map_cons, nodup_cons] at hnd
    have hc := hlt c mem_cons_self
    have hbits : c.getSplitBits new = some (width new.toNat c.m_seed.toNat) := getSplitBits_eq h₁ h₃
    have hin : inChild c (width new.toNat c.m_seed.toNat) = fun h => decide (groupOf new h = c.m_seed) :=
      funext fun h => inChild_iff h₁ h₃ hc hbits
    obtain ⟨hrest, hpart⟩ := hsplit c (width new.toNat c.m_seed.toNat) s
    rw [hin] at hrest hpart
    obtain ⟨parts, rest, hrun, hfst, hparts, hleft⟩ :=
      ih hnd.2 (fun c' h => hlt c' (mem_cons_of_mem c h)) (split c (width new.toNat c.m_seed.toNat) s).1
    refine ⟨(c, (split c (width new.toNat c.m_seed.toNat) s).2) :: parts, rest, ?_, ?_, ?_, ?_⟩
    · simp only [splitPgs, hbits, hrun]
    · rw [map_cons, hfst]
    · intro p hp
      rcases mem_cons.1 hp with rfl | hp
      · exact hpart
      -- a later child: none of its hashes went to `c`
      have hmem : p.1 ∈ cs := hfst ▸ mem_map_of_mem hp
      have hne : p.1.m_seed ≠ c.m_seed := fun h => hnd.1 (h ▸ mem_map_of_mem hmem)
      rw [hparts p hp, hrest, htwice]
      congr 1
      funext h
      by_cases heq : groupOf new h = p.1.m_seed
      · simp [heq, hne]
      · simp [heq]
    · rw [hleft, hrest, htwice]
      congr 1
      funext h
      by_cases heq : groupOf new h = c.m_seed
      · simp
      · simp

end

/-!
### The log
-/

section
variable {ο : Type} (hash : ο → BitVec 32)

def restrictLog (P : BitVec 32 → Bool) (l : List (LogEntry ο)) : List (LogEntry ο) := l.filter fun e => P (hash e.soid)

private theorem splitOutChild_foldl (P : LogEntry ο → Bool) (l : List (LogEntry ο))
    (p : List (LogEntry ο) × List (LogEntry ο)) : l.foldl (fun (p : List (LogEntry ο) × List (LogEntry ο)) i =>
      if P i then (p.1, p.2 ++ [i]) else (p.1 ++ [i], p.2)) p =
      (p.1 ++ l.filter fun i => !P i, p.2 ++ l.filter P) := by
  induction l generalizing p with
  | nil => simp
  | cons i l ih =>
    rw [foldl_cons, ih]
    cases hP : P i <;> simp [hP]

theorem splitsBy_log : SplitsBy (restrictLog hash) PgLog.log (PgLog.splitOutChild hash) := by
  intro child bits l
  have hfold := splitOutChild_foldl (fun i => inChild child bits (hash i.soid)) l.log ([], [])
  exact ⟨congrArg Prod.fst hfold, congrArg Prod.snd hfold⟩

private theorem restrictLog_id (l : List (LogEntry ο)) : restrictLog hash (fun _ => true) l = l :=
  filter_eq_self.2 fun _ _ => rfl

private theorem restrictLog_twice (P Q : BitVec 32 → Bool) (l : List (LogEntry ο)) :
    restrictLog hash P (restrictLog hash Q l) = restrictLog hash (fun h => Q h && P h) l := by
  unfold restrictLog
  rw [filter_filter]
  simp only [Bool.and_comm]

end

/-!
### The missing set
-/

section
variable {ο : Type} (hash : ο → BitVec 32)

def restrictItems (P : BitVec 32 → Bool) (f : ο → Option MissingItem) (o : ο) : Option MissingItem :=
  if P (hash o) then f o else none

private theorem restrictItems_id (f : ο → Option MissingItem) : restrictItems hash (fun _ => true) f = f := by
  funext o
  simp [restrictItems]

private theorem restrictItems_twice (P Q : BitVec 32 → Bool) (f : ο → Option MissingItem) :
    restrictItems hash P (restrictItems hash Q f) = restrictItems hash (fun h => Q h && P h) f := by
  funext o
  unfold restrictItems
  cases hP : P (hash o) <;> cases hQ : Q (hash o) <;> simp [hP, hQ]

variable [LinearOrder ο]

/-- The step of the loop of `split_into`. -/
def splitItem (child : PgT) (bits : ℕ) (p : MissingSet ο × MissingSet ο) (i : ο × MissingItem) :
    MissingSet ο × MissingSet ο :=
  if inChild child bits (hash i.1) then (p.1.rmAt i.1 i.2, p.2.add i.1 i.2.need i.2.have' i.2.delete) else p

variable {child : PgT} {bits : ℕ} {o : ο} (l : List (ο × MissingItem)) (p : MissingSet ο × MissingSet ο)

private theorem splitItems_fst : (l.foldl (splitItem hash child bits) p).1.missing[o]? =
      if inChild child bits (hash o) ∧ o ∈ l.map Prod.fst then none else p.1.missing[o]? := by
  induction l generalizing p with
  | nil => simp
  | cons i l ih =>
    rw [foldl_cons, ih]
    simp only [map_cons, mem_cons]
    by_cases heq : o = i.1
    · subst heq
      cases hin : inChild child bits (hash i.1) <;> simp [splitItem, hin]
    · have hmem : (o = i.1 ∨ o ∈ l.map Prod.fst) ↔ o ∈ l.map Prod.fst := or_iff_right heq
      rw [if_congr (and_congr_right fun _ => hmem) rfl rfl]
      cases hin : inChild child bits (hash i.1) <;> simp [splitItem, hin, Ne.symm heq]

private theorem splitItems_snd_of_notMem (h : inChild child bits (hash o) = true → o ∉ l.map Prod.fst) :
    (l.foldl (splitItem hash child bits) p).2.missing[o]? = p.2.missing[o]? := by
  induction l generalizing p with
  | nil => rfl
  | cons i l ih =>
    rw [foldl_cons, ih _ fun hin hmem => h hin (mem_cons_of_mem _ hmem)]
    by_cases hin : inChild child bits (hash i.1)
    · have hne : i.1 ≠ o := by
        rintro rfl
        exact h hin (by simp)
      simp [splitItem, hin, hne]
    · simp [splitItem, hin]

private theorem splitItems_snd_of_mem
    (hnd : (l.map Prod.fst).Nodup) {v : MissingItem} (hmem : (o, v) ∈ l) (hin : inChild child bits (hash o) = true) :
    (l.foldl (splitItem hash child bits) p).2.missing[o]? = some v := by
  induction l generalizing p with
  | nil => simp at hmem
  | cons i l ih =>
    rw [map_cons, nodup_cons] at hnd
    rw [foldl_cons]
    rcases mem_cons.1 hmem with rfl | hmem
    · rw [splitItems_snd_of_notMem hash l _ fun _ => hnd.1]
      simp [splitItem, hin]
    · exact ih _ hnd.2 hmem

theorem nodup_keys (m : ExtTreeMap ο MissingItem) : (m.toList.map Prod.fst).Nodup := by
  have h := ExtTreeMap.distinct_keys_toList (t := m)
  rw [List.Nodup, pairwise_map]
  exact h.imp fun {a b} hab heq => hab (by simp [heq])

private theorem splitsBy_missing : SplitsBy (restrictItems hash) (fun (m : MissingSet ο) o => m.missing[o]?)
      (fun child bits m => m.splitInto hash child bits .empty) := by
  intro child bits m
  have hfold : m.splitInto hash child bits .empty = m.missing.toList.foldl (splitItem hash child bits)
      (m, { MissingSet.empty with may_include_deletes := m.may_include_deletes }) := rfl
  have hnone : ∀ o, o ∉ m.missing.toList.map Prod.fst ↔ m.missing[o]? = none := by
    intro o
    simp
  constructor
  · funext o
    simp only [hfold, splitItems_fst, restrictItems]
    cases hin : inChild child bits (hash o)
    · simp
    · by_cases hmem : o ∈ m.missing.toList.map Prod.fst
      · rw [if_pos ⟨rfl, hmem⟩]
        rfl
      · rw [if_neg fun h => hmem h.2, (hnone o).1 hmem]
        rfl
  · funext o
    simp only [hfold, restrictItems]
    cases hin : inChild child bits (hash o)
    · rw [splitItems_snd_of_notMem hash _ _ (by simp [hin])]
      simp [MissingSet.empty]
    cases hv : m.missing[o]? with
    | none =>
      rw [splitItems_snd_of_notMem hash _ _ fun _ => (hnone o).2 hv]
      simp [MissingSet.empty]
    | some v =>
      exact splitItems_snd_of_mem hash _ _ (nodup_keys _)
        (ExtTreeMap.mem_toList_iff_getElem?_eq_some.2 hv) hin

end

/-!
### The whole split
-/

/-- Sorting a list by a tag loses and repeats nothing: the parts of some distinct tags, and what has none of them. -/
theorem filter_parts_perm {ε κ : Type} [DecidableEq κ] (f : ε → κ) (l : List ε) (tags : List κ) (hnd : tags.Nodup) :
    ((l.filter fun e => f e ∉ tags) ++ (tags.map fun t => l.filter fun e => f e = t).flatten).Perm l := by
  induction tags with
  | nil => simp
  | cons t tags ih =>
    rw [nodup_cons] at hnd
    have hsplit : ((l.filter fun e => f e ∉ t :: tags) ++ l.filter fun e => f e = t).Perm
        (l.filter fun e => f e ∉ tags) := by
      have h := filter_append_perm (fun e => !decide (f e = t)) (l.filter fun e => f e ∉ tags)
      rw [filter_filter, filter_filter] at h
      have hl : (fun e => !decide (f e = t) && decide (f e ∉ tags)) = fun e => decide (f e ∉ t :: tags) := by
        funext e
        by_cases heq : f e = t <;> simp
      have hr : (fun e => !!decide (f e = t) && decide (f e ∉ tags)) = fun e => decide (f e = t) := by
        funext e
        by_cases heq : f e = t
        · simp [heq, hnd.1]
        · simp [heq]
      rw [hl, hr] at h
      exact h
    rw [map_cons, flatten_cons, ← append_assoc]
    exact (hsplit.append_right _).trans (ih hnd.2)

section
variable {ο : Type} (hash : ο → BitVec 32) {old new : BitVec 32} {pg : PgT} {cs : List PgT}

private theorem nodup_seeds (hnd : cs.Nodup) (hch : ∀ c, c ∈ cs ↔ pg.Child old new c) : (cs.map PgT.m_seed).Nodup := by
  refine hnd.map_on fun c hc c' hc' heq => ?_
  obtain ⟨hp, hpr, -⟩ := (hch c).1 hc
  obtain ⟨hp', hpr', -⟩ := (hch c').1 hc'
  cases c
  cases c'
  simp_all

variable (h₁ : 0 < old.toNat) (h₂ : old.toNat ≤ new.toNat) (h₃ : new.toNat < 2 ^ 31) (hm : pg.m_seed < old)
  (hnd : cs.Nodup) (hch : ∀ c, c ∈ cs ↔ pg.Child old new c)

include h₁ h₂ h₃ hm hnd hch

private theorem splitPgs_log (l : PgLog ο) (hl : ∀ e ∈ l.log, groupOf old (hash e.soid) = pg.m_seed) :
    ∃ parts rest, splitPgs (PgLog.splitOutChild hash) new cs l = some (parts, rest) ∧ parts.map Prod.fst = cs ∧
      (∀ p ∈ parts, p.2.log = l.log.filter fun e => groupOf new (hash e.soid) = p.1.m_seed) ∧
      (rest.log = l.log.filter fun e => groupOf new (hash e.soid) = pg.m_seed) ∧
      (rest.log ++ (parts.map fun p => p.2.log).flatten).Perm l.log := by
  have hseeds := nodup_seeds hnd hch
  obtain ⟨parts, rest, hrun, hfst, hparts, hrest⟩ :=
    splitPgs_view (by omega) h₃ (restrictLog_id hash) (restrictLog_twice hash) (splitsBy_log hash) cs hseeds
      (fun c hc => ((hch c).1 hc).2.2.2.1) l
  refine ⟨parts, rest, hrun, hfst, hparts, ?_, ?_⟩
  · rw [hrest]
    refine filter_congr fun e he => ?_
    rw [decide_eq_decide]
    exact groupOf_notMem_iff h₁ h₂ h₃ hm hch (hl e he)
  · have hflat : (parts.map fun p => p.2.log) =
        (cs.map PgT.m_seed).map fun t => l.log.filter fun e => groupOf new (hash e.soid) = t := by
      rw [← hfst, map_map, map_map]
      exact map_congr_left hparts
    rw [hrest, hflat]
    exact filter_parts_perm (fun e : LogEntry ο => groupOf new (hash e.soid)) l.log _ hseeds

private theorem splitPgs_missing [LinearOrder ο] (m : MissingSet ο)
    (hitems : ∀ o item, m.missing[o]? = some item → groupOf old (hash o) = pg.m_seed) :
    ∃ parts rest, splitPgs (fun child bits m => m.splitInto hash child bits .empty) new cs m = some (parts, rest) ∧
      parts.map Prod.fst = cs ∧
      (∀ p ∈ parts, ∀ o : ο, p.2.missing[o]? = if groupOf new (hash o) = p.1.m_seed then m.missing[o]? else none) ∧
      ∀ o : ο, rest.missing[o]? = if groupOf new (hash o) = pg.m_seed then m.missing[o]? else none := by
  obtain ⟨parts, rest, hrun, hfst, hparts, hrest⟩ :=
    splitPgs_view (by omega) h₃ (restrictItems_id hash) (restrictItems_twice hash) (splitsBy_missing hash) cs
      (nodup_seeds hnd hch) (fun c hc => ((hch c).1 hc).2.2.2.1) m
  refine ⟨parts, rest, hrun, hfst, fun p hp o => ?_, fun o => ?_⟩
  · have h := congrFun (hparts p hp) o
    simpa [restrictItems] using h
  have h := congrFun hrest o
  cases hv : m.missing[o]? with
  | none => simpa [restrictItems, hv] using h
  | some item =>
    have hiff := groupOf_notMem_iff h₁ h₂ h₃ hm hch (hitems o item hv)
    simp only [restrictItems, hv] at h
    rw [h, ← if_congr hiff rfl rfl]
    simp

end

/-- Splitting is coherent. Both masks give the same groups; the ancestor of a hash's new group is its old one; a hash is
in a new group exactly if it has the group's low `getSplitBits` bits; `isSplit` ends with exactly the children; and
splitting the log or the missing set off child by child, in any order, gives every group what the new pool maps to it. -/
theorem split_coherent {ο : Type} [LinearOrder ο] (hash : ο → BitVec 32) (old new : BitVec 32) (h₁ : 1 ≤ old.toNat)
    (h₂ : old.toNat ≤ new.toNat) (h₃ : new.toNat < 2 ^ 31) :
    (∀ h : BitVec 32, cephStableMod h old (maskOf (cbits old)) = groupOf old h ∧
      cephStableMod h new (maskOf (cbits new)) = groupOf new h) ∧
    (∀ pg : PgT, (rawPgToPg new pg).getAncestor old = rawPgToPg old pg) ∧
    (∀ c : PgT, c.m_seed < new → ∃ bits, c.getSplitBits new = some bits ∧
      ∀ h : BitVec 32, groupOf new h = c.m_seed ↔ h &&& splitMask bits = c.m_seed) ∧
    ∀ pg : PgT, pg.m_seed < old →
      ∃ split children, (∀ fuel, new.toNat ≤ fuel → pg.isSplit old new fuel = some (split, children)) ∧
        (split = true ↔ children.Nonempty) ∧ (∀ c, c ∈ children ↔ pg.Child old new c) ∧
        ∀ cs : List PgT, cs.Nodup → (∀ c, c ∈ cs ↔ c ∈ children) →
          (∀ l : PgLog ο, (∀ e ∈ l.log, groupOf old (hash e.soid) = pg.m_seed) →
            ∃ parts rest, splitPgs (PgLog.splitOutChild hash) new cs l = some (parts, rest) ∧
              parts.map Prod.fst = cs ∧
              (∀ p ∈ parts, p.2.log = l.log.filter fun e => groupOf new (hash e.soid) = p.1.m_seed) ∧
              (rest.log = l.log.filter fun e => groupOf new (hash e.soid) = pg.m_seed) ∧
              (rest.log ++ (parts.map fun p => p.2.log).flatten).Perm l.log) ∧
          ∀ m : MissingSet ο, (∀ o item, m.missing[o]? = some item → groupOf old (hash o) = pg.m_seed) →
            ∃ parts rest,
              splitPgs (fun child bits m => m.splitInto hash child bits .empty) new cs m = some (parts, rest) ∧
              parts.map Prod.fst = cs ∧
              (∀ p ∈ parts, ∀ o : ο,
                p.2.missing[o]? = if groupOf new (hash o) = p.1.m_seed then m.missing[o]? else none) ∧
              ∀ o : ο, rest.missing[o]? = if groupOf new (hash o) = pg.m_seed then m.missing[o]? else none := by
  refine ⟨fun h => ⟨stableMod_masks h₁ (by omega) h, stableMod_masks (by omega) h₃ h⟩,
    getAncestor_rawPgToPg h₁ h₂ h₃, fun c hc => ?_, fun pg hm => ?_⟩
  · have hbits : c.getSplitBits new = some (width new.toNat c.m_seed.toNat) := getSplitBits_eq (by omega) h₃
    refine ⟨_, hbits, fun h => ?_⟩
    have hin := inChild_iff (h := h) (by omega) h₃ hc hbits
    exact (decide_eq_decide.1 hin).symm
  · obtain ⟨split, children, hrun, hne, hmem⟩ := isSplit_spec h₁ h₃ hm
    refine ⟨split, children, hrun, hne, hmem, fun cs hnd hcs => ?_⟩
    have hch : ∀ c, c ∈ cs ↔ pg.Child old new c := fun c => (hcs c).trans (hmem c)
    exact ⟨splitPgs_log hash h₁ h₂ h₃ hm hnd hch, splitPgs_missing hash h₁ h₂ h₃ hm hnd hch⟩

theorem split_coherent_sample : (1 ≤ (3#32).toNat ∧ (3#32).toNat ≤ (6#32).toNat ∧ (6#32).toNat < 2 ^ 31) ∧
      ∃ split children, (∀ fuel, (6#32).toNat ≤ fuel → (PgT.mk 7 1 0).isSplit 3 6 fuel = some (split, children)) ∧
        ∀ c, c ∈ children ↔ (PgT.mk 7 1 0).Child 3 6 c := by
  refine ⟨by decide, ?_⟩
  have h := (split_coherent (fun o : ℕ => BitVec.ofNat 32 o) 3#32 6#32 (by decide) (by decide) (by decide)).2.2.2
    (PgT.mk 7 1 0) (by decide)
  obtain ⟨split, children, hrun, -, hmem, -⟩ := h
  exact ⟨split, children, hrun, hmem⟩

end Lunule.Pg
