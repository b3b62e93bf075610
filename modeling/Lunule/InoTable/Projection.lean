import Lunule.IntervalSet.Insert

/-!
# The table of free inode numbers

`InoTable` keeps the free numbers twice. A `project_*` call changes `projected_free` at once; the `apply_*` call that
belongs to it changes `free` when the journal entry is safe. The calls are applied in the order in which they were
projected, so that `free` goes through the sets through which `projected_free` went before.

`Chain` says this on finite sets: the operations that are not applied yet lead from the one set to the other, and each
of them is allowed where it will be applied. A canonical interval set is determined by its elements, so the same
holds of the tables themselves.
-/

namespace Lunule
open Exec Intervals Finset Option

namespace IntervalSet

def rangeStart (s : IntervalSet) : Option Int := s.m.head?.map (·.1)

def endAfter (s : IntervalSet) (start : Int) : Option Int :=
  if s.contains start then (findInc s.m start).2.head?.map fun p => p.1 + p.2 else none

end IntervalSet

open IntervalSet

/-- `InoTable`, in the state `STATE_ACTIVE`. -/
structure InoTable where
  free : IntervalSet
  projectedFree : IntervalSet
  version : Nat := 0
  projectedVersion : Nat := 0

namespace InoTable

def projectAllocId (t : InoTable) (id : Int) : Option (Int × InoTable) := do
  let id ← (if id = 0 then t.projectedFree.rangeStart else some id)
  let free ← t.projectedFree.erase id 1
  return (id, { t with projectedFree := free, projectedVersion := t.projectedVersion + 1 })

/-- The loop of `project_alloc_ids`, which takes one number at least in each round. -/
def allocLoop : Nat → Int → IntervalSet → IntervalSet → Option (IntervalSet × IntervalSet)
  | 0, want, free, ids => if want > 0 then none else some (free, ids)
  | n + 1, want, free, ids =>
    if want > 0 then do
      let start ← free.rangeStart
      let stop ← free.endAfter start
      let num := if stop - start > want then want else stop - start
      let free ← free.erase start num
      let ids ← ids.insert start num
      allocLoop n (want - num) free ids
    else some (free, ids)

def projectAllocIds (t : InoTable) (want : Int) : Option (IntervalSet × InoTable) :=
  (allocLoop want.toNat want t.projectedFree {}).map fun (free, ids) =>
    (ids, { t with projectedFree := free, projectedVersion := t.projectedVersion + 1 })

def projectReleaseIds (t : InoTable) (ids : IntervalSet) : Option InoTable :=
  (t.projectedFree.insertSet ids).map fun free =>
    { t with projectedFree := free, projectedVersion := t.projectedVersion + 1 }

inductive Pending
  | allocId (id : Int)
  | allocIds (ids : IntervalSet)
  | releaseIds (ids : IntervalSet)

def Pending.apply (free : IntervalSet) : Pending → Option IntervalSet
  | .allocId id => free.erase id 1
  | .allocIds ids => free.subtract ids
  | .releaseIds ids => free.insertSet ids

def apply (t : InoTable) (op : Pending) : Option InoTable :=
  (op.apply t.free).map fun free => { t with free, version := t.version + 1 }

/-! ### Runs -/

/-- The table with the calls that are still to be applied; `out` is the history of the numbers handed out and not
released since. -/
structure Run where
  table : InoTable
  pending : List Pending := []
  out : Finset Int := ∅

inductive Call
  | projectAllocId (id : Int)
  | projectAllocIds (want : Int)
  | projectReleaseIds (ids : IntervalSet)
  /-- the oldest call that is not applied yet is applied -/
  | apply

def Run.step (r : Run) : Call → Option Run
  | .projectAllocId id => (r.table.projectAllocId id).map fun (id, t) =>
      ⟨t, r.pending ++ [.allocId id], r.out ∪ span id 1⟩
  | .projectAllocIds want => (r.table.projectAllocIds want).map fun (ids, t) =>
      ⟨t, r.pending ++ [.allocIds ids], r.out ∪ elems ids.m⟩
  | .projectReleaseIds ids => (r.table.projectReleaseIds ids).map fun t =>
      ⟨t, r.pending ++ [.releaseIds ids], r.out \ elems ids.m⟩
  | .apply =>
    match r.pending with
    | [] => none
    | op :: pending => (r.table.apply op).map fun t => { r with table := t, pending }

def Run.init (free : IntervalSet) : Run := { table := { free, projectedFree := free } }

def resetFree (rank : Nat) : IntervalSet := ⟨[((rank + 1) * 2 ^ 40, 2 ^ 40)], 2 ^ 40⟩

/-- Numbers are taken only if they are free, and as many as there are; only numbers that are out are released. -/
def Fair (r : Run) : Call → Prop
  | .projectAllocId id => if id = 0 then r.table.projectedFree.m ≠ [] else id ∈ elems r.table.projectedFree.m
  | .projectAllocIds want => want ≤ total r.table.projectedFree.m
  | .projectReleaseIds ids => Rep ids (elems ids.m) ∧ elems ids.m ⊆ r.out
  | .apply => r.pending ≠ []

/-! ### Operations on sets -/

namespace Pending

def act (F : Finset Int) : Pending → Finset Int
  | .allocId id => F \ span id 1
  | .allocIds ids => F \ elems ids.m
  | .releaseIds ids => F ∪ elems ids.m

def Ok (F : Finset Int) : Pending → Prop
  | .allocId id => span id 1 ⊆ F
  | .allocIds ids => Rep ids (elems ids.m) ∧ elems ids.m ⊆ F
  | .releaseIds ids => Rep ids (elems ids.m) ∧ Disjoint (elems ids.m) F ∧ (F ∪ elems ids.m).card < 2 ^ 63

private theorem apply_spec {op : Pending} {s : IntervalSet} {F : Finset Int} (h : Rep s F) (hop : op.Ok F) :
    ∃ t, op.apply s = some t ∧ Rep t (op.act F) := by
  cases op with
  | allocId id => exact h.erase (by decide) hop
  | allocIds ids => exact h.subtract hop.1 hop.2
  | releaseIds ids => exact h.insertSet hop.1 hop.2.1 hop.2.2

end Pending

/-- The operations lead from `F` to `P`, each of them allowed where it comes. -/
def Chain : Finset Int → List Pending → Finset Int → Prop
  | F, [], P => F = P
  | F, op :: ops, P => op.Ok F ∧ Chain (op.act F) ops P

variable {F P : Finset Int} {ops : List Pending} {op : Pending} {s t : IntervalSet} {ids : IntervalSet} {A : Finset Int}

private theorem Chain.snoc (h : Chain F ops P) (hop : op.Ok P) : Chain F (ops ++ [op]) (op.act P) := by
  induction ops generalizing F with
  | nil =>
    obtain rfl : F = P := h
    exact ⟨hop, rfl⟩
  | cons a ops ih => exact ⟨h.1, ih h.2⟩

private theorem Chain.foldlM_apply (h : Chain F ops P) (hs : Rep s F) (ht : Rep t P) :
    ops.foldlM Pending.apply s = some t := by
  induction ops generalizing F s with
  | nil =>
    obtain rfl : F = P := h
    rw [hs.unique ht]
    rfl
  | cons op ops ih =>
    obtain ⟨u, hu, hrep⟩ := Pending.apply_spec hs h.1
    rw [List.foldlM_cons, hu]
    exact ih h.2 hrep

/-! ### Taking numbers -/

private theorem rangeStart_spec (h : Rep s F) (hne : s.m ≠ []) : ∃ start, s.rangeStart = some start ∧ ∃ len, 0 < len ∧
    s.endAfter start = some (start + len) ∧ span start len ⊆ F := by
  obtain ⟨p, m, hm⟩ := List.exists_cons_of_ne_nil hne
  have hcanon := hm ▸ h.canon
  have hpos := hcanon.pos p (by simp)
  refine ⟨p.1, by simp [rangeStart, hm], p.2, hpos, ?_, ?_⟩
  · have hafter : (findInc s.m p.1).2 = p :: m := by
      rw [findInc_snd h.canon, hm, after_cons_of_lt (hcanon.lt_stop (by simp))]
    have hin : s.contains p.1 = true := by
      rw [contains, contains?, hafter]
      dsimp only
      rw [if_neg (lt_irrefl _), if_neg (by omega)]
      rfl
    simp [endAfter, hin, hafter]
  · rw [← h.elems, hm, elems_cons]
    exact subset_union_left

private theorem allocLoop_spec {n : Nat} {want : Int} (h : Rep s F) (hids : Rep ids A)
    (hdisj : Disjoint A F) (hn : want ≤ n) (hwant : want ≤ F.card) (hfits : (A ∪ F).card < 2 ^ 63) :
    ∃ s' ids' B, allocLoop n want s ids = some (s', ids') ∧ Rep s' (F \ B) ∧ Rep ids' (A ∪ B) ∧ B ⊆ F ∧
      B.card = want.toNat := by
  induction n generalizing want s ids F A with
  | zero =>
    have : ¬want > 0 := by omega
    exact ⟨s, ids, ∅, by simp [allocLoop, this], by simpa using h, by simpa using hids, by simp, by simp; omega⟩
  | succ n ih =>
    unfold allocLoop
    split_ifs with hpos
    · have hne : s.m ≠ [] := by
        intro hnil
        rw [h.isEmpty_iff] at hnil
        simp [hnil] at hwant
        omega
      obtain ⟨start, hstart, len, hlen, hstop, hsub⟩ := rangeStart_spec h hne
      obtain ⟨num, hnum⟩ : ∃ num, num = if start + len - start > want then want else start + len - start := ⟨_, rfl⟩
      have hnum0 : 0 < num ∧ num ≤ want ∧ num ≤ len := by
        rw [hnum]
        split_ifs <;> omega
      have hspan : span start num ⊆ F := fun x hx => hsub (by rw [mem_between] at hx ⊢; omega)
      have hcard : ((span start num).card : Int) = num := by
        rw [card_between]
        omega
      obtain ⟨s1, hs1, hrep1⟩ := h.erase hnum0.1 hspan
      obtain ⟨ids1, hids1, hrep2⟩ := hids.insert hnum0.1 (hdisj.mono_right hspan).symm
        (lt_of_le_of_lt (card_le_card (union_subset_union_right hspan)) hfits)
      have hleft := card_sdiff_add_card_eq_card hspan
      have hroom : want - num ≤ n := by omega
      obtain ⟨s', ids', B, hloop, hs', hids', hB, hBcard⟩ := ih hrep1 hrep2
        (disjoint_union_left.2 ⟨hdisj.mono_right sdiff_subset, disjoint_sdiff⟩) hroom
        (by omega) (by rwa [union_assoc, union_sdiff_of_subset hspan])
      refine ⟨s', ids', span start num ∪ B, ?_, ?_, ?_, ?_, ?_⟩
      · simp only [hstart, hstop, bind_eq_bind, bind_some, ← hnum, hs1, hids1, hloop]
      · rwa [← sup_eq_union, ← sdiff_sdiff_left]
      · rwa [← union_assoc]
      · exact union_subset hspan (hB.trans sdiff_subset)
      · rw [card_union_of_disjoint (disjoint_of_subset_right hB disjoint_sdiff)]
        omega
    · exact ⟨s, ids, ∅, rfl, by simpa using h, by simpa using hids, by simp, by simp; omega⟩

/-! ### The invariant -/

/-- The numbers in `U` are free, as projected, or out, and what is pending leads from `free` to `projected_free`. -/
structure Sound (U : Finset Int) (r : Run) : Prop where
  projected : Rep r.table.projectedFree (elems r.table.projectedFree.m)
  disjoint : Disjoint (elems r.table.projectedFree.m) r.out
  union : elems r.table.projectedFree.m ∪ r.out = U
  version : r.table.projectedVersion = r.table.version + r.pending.length
  chain : ∃ F, Rep r.table.free F ∧ Chain F r.pending (elems r.table.projectedFree.m)

variable {U : Finset Int} {r : Run}

section
variable (h : Sound U r)
include h

private theorem Sound.project {out : Finset Int} (hok : op.Ok (elems r.table.projectedFree.m))
    (ht : Rep t (op.act (elems r.table.projectedFree.m))) (hdisj : Disjoint (op.act (elems r.table.projectedFree.m)) out)
    (hunion : op.act (elems r.table.projectedFree.m) ∪ out = U) :
    Sound U ⟨{ r.table with projectedFree := t, projectedVersion := r.table.projectedVersion + 1 }, r.pending ++ [op],
      out⟩ := by
  obtain ⟨F, hF, hchain⟩ := h.chain
  have hsnoc := hchain.snoc hok
  have helems := ht.elems.symm
  rw [helems] at ht hdisj hunion hsnoc
  exact ⟨ht, hdisj, hunion, by simp [h.version, Nat.add_assoc], F, hF, hsnoc⟩

private theorem Sound.taken (hA : A ⊆ elems r.table.projectedFree.m)
    (hok : op.Ok (elems r.table.projectedFree.m)) (ht : Rep t (op.act (elems r.table.projectedFree.m)))
    (hact : op.act (elems r.table.projectedFree.m) = elems r.table.projectedFree.m \ A) :
    Sound U ⟨{ r.table with projectedFree := t, projectedVersion := r.table.projectedVersion + 1 }, r.pending ++ [op],
      r.out ∪ A⟩ := by
  refine h.project hok ht ?_ ?_
  · rw [hact]
    exact disjoint_union_right.2 ⟨h.disjoint.mono_left sdiff_subset, sdiff_disjoint⟩
  · rw [hact, union_comm r.out, ← union_assoc, sdiff_union_of_subset hA, h.union]

private theorem Sound.projectAllocId {id : Int} (hfair : Fair r (.projectAllocId id)) :
    ∃ i t, r.table.projectAllocId id = some (i, t) ∧ i ∉ r.out ∧
      Sound U ⟨t, r.pending ++ [.allocId i], r.out ∪ span i 1⟩ := by
  obtain ⟨i, hi, hin⟩ : ∃ i, (if id = 0 then r.table.projectedFree.rangeStart else some id) = some i ∧
      i ∈ elems r.table.projectedFree.m := by
    simp only [Fair] at hfair
    split_ifs at hfair ⊢ with hid
    · obtain ⟨i, hi, len, hlen, -, hsub⟩ := rangeStart_spec h.projected hfair
      exact ⟨i, hi, hsub (by rw [mem_between]; omega)⟩
    · exact ⟨id, rfl, hfair⟩
  have hsub : span i 1 ⊆ elems r.table.projectedFree.m := by
    intro x hx
    rw [mem_between] at hx
    rwa [show x = i by omega]
  obtain ⟨free, hfree, hrep⟩ := h.projected.erase (by decide) hsub
  refine ⟨i, _, ?_, disjoint_left.1 h.disjoint hin, h.taken hsub hsub hrep rfl⟩
  simp only [InoTable.projectAllocId, hi, hfree, bind_eq_bind, bind_some]
  rfl

private theorem Sound.projectAllocIds {want : Int} (hfair : Fair r (.projectAllocIds want)) :
    ∃ ids t, r.table.projectAllocIds want = some (ids, t) ∧ (elems ids.m).card = want.toNat ∧
      Disjoint (elems ids.m) r.out ∧ Sound U ⟨t, r.pending ++ [.allocIds ids], r.out ∪ elems ids.m⟩ := by
  obtain ⟨free, ids, B, hloop, hfree, hids, hB, hcard⟩ := allocLoop_spec h.projected rep_empty (disjoint_empty_left _)
    want.self_le_toNat (h.projected.total ▸ hfair) (by rw [empty_union]; exact h.projected.fits)
  rw [empty_union] at hids
  obtain rfl := hids.elems
  exact ⟨ids, _, by simp [InoTable.projectAllocIds, hloop], hcard, h.disjoint.mono_left hB,
    h.taken hB ⟨hids, hB⟩ hfree rfl⟩

private theorem Sound.projectReleaseIds (hU : U.card < 2 ^ 63)
    (hfair : Fair r (.projectReleaseIds ids)) : ∃ t, r.table.projectReleaseIds ids = some t ∧
      Sound U ⟨t, r.pending ++ [.releaseIds ids], r.out \ elems ids.m⟩ := by
  obtain ⟨hids, hout⟩ := hfair
  have hdisj := (h.disjoint.mono_right hout).symm
  have hfits := lt_of_le_of_lt (card_le_card (h.union ▸ union_subset_union_right hout)) hU
  obtain ⟨free, hfree, hrep⟩ := h.projected.insertSet hids hdisj hfits
  have hok : (Pending.releaseIds ids).Ok (elems r.table.projectedFree.m) := ⟨hids, hdisj, hfits⟩
  refine ⟨_, by rw [InoTable.projectReleaseIds, hfree, map_some], h.project hok hrep ?_ ?_⟩
  · exact disjoint_union_left.2 ⟨h.disjoint.mono_right sdiff_subset, disjoint_sdiff⟩
  · show _ ∪ _ ∪ _ = _
    rw [union_assoc, union_sdiff_of_subset hout, h.union]

private theorem Sound.step (hU : U.card < 2 ^ 63) {c : Call} (hfair : Fair r c) :
    ∃ r', r.step c = some r' ∧ Sound U r' := by
  cases c with
  | projectAllocId id =>
    obtain ⟨i, t, ht, -, hs⟩ := h.projectAllocId hfair
    exact ⟨_, by simp only [Run.step, ht, map_some], hs⟩
  | projectAllocIds want =>
    obtain ⟨ids, t, ht, -, -, hs⟩ := h.projectAllocIds hfair
    exact ⟨_, by simp only [Run.step, ht, map_some], hs⟩
  | projectReleaseIds ids =>
    obtain ⟨t, ht, hs⟩ := h.projectReleaseIds hU hfair
    exact ⟨_, by simp only [Run.step, ht, map_some], hs⟩
  | apply =>
    obtain ⟨op, pending, hp⟩ := List.exists_cons_of_ne_nil hfair
    obtain ⟨F, hF, hchain⟩ := h.chain
    rw [hp] at hchain
    obtain ⟨free, hfree, hrep⟩ := Pending.apply_spec hF hchain.1
    have hlen := h.version
    rw [hp, List.length_cons] at hlen
    refine ⟨{ r with table := { r.table with free, version := r.table.version + 1 }, pending }, ?_,
      h.projected, h.disjoint, h.union, ?_, _, hrep, hchain.2⟩
    · simp only [Run.step, hp, InoTable.apply, hfree, map_some]
    · simp only
      omega

end

/-- Whatever fair calls are made, none fails; applying what is pending to `free` gives `projected_free`; the versions
are apart by what is pending; and what is handed out next is not out, and as much as was asked for. -/
theorem projection_consistent {free : IntervalSet} {U : Finset Int} (hfree : Rep free U) {calls : List Call}
    (hfair : AllSteps Run.step Fair (.init free) calls) : ∃ r, exec Run.step (.init free) calls = some r ∧
      r.pending.foldlM Pending.apply r.table.free = some r.table.projectedFree ∧
      r.table.version ≤ r.table.projectedVersion ∧ (r.table.version = r.table.projectedVersion ↔ r.pending = []) ∧
      (∀ id, Fair r (.projectAllocId id) → ∃ i t, r.table.projectAllocId id = some (i, t) ∧ i ∉ r.out) ∧
      ∀ want, Fair r (.projectAllocIds want) → ∃ ids t, r.table.projectAllocIds want = some (ids, t) ∧
        (elems ids.m).card = want.toNat ∧ Disjoint (elems ids.m) r.out := by
  have hinit : Sound U (.init free) := ⟨hfree.elems.symm ▸ hfree, disjoint_empty_right _,
    (union_empty _).trans hfree.elems, rfl, U, hfree, hfree.elems.symm⟩
  obtain ⟨r, hr, h⟩ := exec_total (fun _ _ h hf => h.step hfree.fits hf) hinit hfair
  obtain ⟨F, hF, hchain⟩ := h.chain
  have hlen := h.version
  refine ⟨r, hr, hchain.foldlM_apply hF h.projected, by omega, ?_, ?_, ?_⟩
  · rw [← List.length_eq_zero_iff]
    omega
  · intro id hid
    obtain ⟨i, t, ht, hi, -⟩ := h.projectAllocId hid
    exact ⟨i, t, ht, hi⟩
  · intro want hwant
    obtain ⟨ids, t, ht, hcard, hdisj, -⟩ := h.projectAllocIds hwant
    exact ⟨ids, t, ht, hcard, hdisj⟩

theorem projection_consistent_reuse : ∃ r, exec Run.step (.init ⟨[(5, 4)], 4⟩) [.projectAllocId 0,
      .projectReleaseIds ⟨[(5, 1)], 1⟩, .apply] = some r ∧ r.table.free = ⟨[(6, 3)], 3⟩ ∧
    r.pending.foldlM Pending.apply r.table.free = some r.table.projectedFree := by
  have hfree : Rep ⟨[(5, 4)], 4⟩ (span 5 4) := ⟨by constructor <;> simp, by decide, by decide, by decide⟩
  have hone : Rep ⟨[(5, 1)], 1⟩ (elems [(5, 1)]) := ⟨by constructor <;> simp, by decide, by decide, by decide⟩
  have hfair : AllSteps Run.step Fair (.init ⟨[(5, 4)], 4⟩) [.projectAllocId 0, .projectReleaseIds ⟨[(5, 1)], 1⟩, .apply] := by
    refine ⟨List.cons_ne_nil _ _, fun r hr => ?_⟩
    cases hr
    refine ⟨⟨hone, by decide⟩, fun r hr => ?_⟩
    cases hr
    exact ⟨List.cons_ne_nil _ _, fun _ _ => trivial⟩
  obtain ⟨r, hr, hfold, -⟩ := projection_consistent hfree hfair
  cases hr
  exact ⟨_, rfl, rfl, hfold⟩

/-- A table that has run out of numbers: after 512 calls that ask for `INT_MAX` numbers there are 512 left. -/
theorem projectAllocIds_exhausted :
    exec Run.step (.init (resetFree 0)) (List.replicate 513 (.projectAllocIds (2 ^ 31 - 1))) = none := by
  decide +kernel

end InoTable
end Lunule
