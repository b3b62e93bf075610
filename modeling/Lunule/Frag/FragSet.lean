import Lunule.Frag.Basic
import Lunule.Lib.PrefixTree

/-!
# Sets of fragments

`fragset_t`: inserting a fragment merges siblings into their parent until no two members are siblings; members inside of
other members stay. A merge covers the same values as the siblings, and a set without siblings that covers a fragment has
the fragment or one above it.
-/

namespace Lunule
open List

/-- `ceph_frag_sibling`. -/
def Frag.sibling (f : Frag) : Frag := make f.bits (f.value ^^^ (0x1000000 >>> f.bits))

/-- The order of `std::set<frag_t>`: a fragment converts to its encoded word. -/
instance : LinearOrder Frag := LinearOrder.lift' Frag.enc fun f g h => by cases f; cases g; cases h; rfl

namespace FragSet
open Frag
variable {s : Finset Frag} {r : Finset Frag × Bool} {f g p : Frag} {q t : List Bool} {fs : List Frag}

/-- `p` and its sibling are replaced by their parent. -/
def merged (p : Frag) (s : Finset Frag) : Finset Frag := insert p.parent ((s.erase p.sibling).erase p)

/-- The body of the inner loop of `simplify` on the set and `clean`. The iterator goes over the members at the begin of
the pass that were not erased, as a parent is inserted before it. -/
def visit (r : Finset Frag × Bool) (p : Frag) : Finset Frag × Bool :=
  if p ∈ r.1 ∧ p.bits ≠ 0 ∧ p.sibling ∈ r.1 then (merged p r.1, false) else r

def sweep (s : Finset Frag) : Finset Frag × Bool := (s.sort (· ≤ ·)).foldl visit (s, true)

private theorem sum_bits_merged (hp : p ∈ s) (h0 : p.bits ≠ 0) : ∑ f ∈ merged p s, f.bits < ∑ f ∈ s, f.bits := by
  have hrest : ∑ f ∈ (s.erase p.sibling).erase p, f.bits ≤ ∑ f ∈ s.erase p, f.bits :=
    Finset.sum_le_sum_of_subset (Finset.erase_subset_erase p (Finset.erase_subset _ s))
  have hall := Finset.add_sum_erase s bits hp
  have hparent := bits_parent p
  unfold merged
  by_cases hmem : p.parent ∈ (s.erase p.sibling).erase p
  · rw [Finset.insert_eq_of_mem hmem]
    omega
  · rw [Finset.sum_insert hmem]
    omega

private theorem sweep_cases (s : Finset Frag) : ((sweep s).2 = false ∧ ∑ f ∈ (sweep s).1, f.bits < ∑ f ∈ s, f.bits) ∨
    (sweep s = (s, true) ∧ ∀ p ∈ s, p.bits ≠ 0 → p.sibling ∉ s) := by
  suffices h : ∀ l : List Frag, ((l.foldl visit (s, true)).2 = false ∧
      ∑ f ∈ (l.foldl visit (s, true)).1, f.bits < ∑ f ∈ s, f.bits) ∨
      (l.foldl visit (s, true) = (s, true) ∧ ∀ p ∈ l, p ∈ s → p.bits ≠ 0 → p.sibling ∉ s) by
    refine (h (s.sort (· ≤ ·))).imp_right (And.imp_right fun hnone p hp => hnone p ((Finset.mem_sort _).2 hp) hp)
  intro l
  induction l using reverseRecOn with
  | nil => exact .inr ⟨rfl, nofun⟩
  | append_singleton l p ih =>
    rw [foldl_append, foldl_cons, foldl_nil, visit]
    split
    · rename_i hp
      have hless := sum_bits_merged hp.1 hp.2.1
      refine .inl ⟨rfl, hless.trans_le ?_⟩
      rcases ih with ⟨-, hsum⟩ | ⟨heq, -⟩
      · exact hsum.le
      · rw [heq]
    · rename_i hp
      refine ih.imp_right fun ⟨heq, hnone⟩ => ⟨heq, forall_mem_append.2 ⟨hnone, forall_mem_singleton.2 ?_⟩⟩
      rw [heq] at hp
      exact fun hmem h0 hsib => hp ⟨hmem, h0, hsib⟩

/-- Each pass but the last merges siblings. -/
def simplify (s : Finset Frag) : Finset Frag := if (sweep s).2 = true then (sweep s).1 else simplify (sweep s).1
  termination_by ∑ f ∈ s, f.bits
  decreasing_by
    rename_i h
    exact (sweep_cases s).elim And.right fun ⟨heq, _⟩ => absurd (by rw [heq]) h

private theorem simplify_apart (s : Finset Frag) : ∀ f ∈ simplify s, f.bits ≠ 0 → f.sibling ∉ simplify s := by
  fun_induction simplify s with
  | case1 s hclean =>
    rcases sweep_cases s with ⟨hflag, -⟩ | ⟨heq, hnone⟩
    · simp [hflag] at hclean
    · rwa [heq]
  | case2 s hdirty ih => exact ih

def insert (s : Finset Frag) (f : Frag) : Finset Frag := simplify (Insert.insert f s)

/-- The loop of `contains`. -/
def contains (s : Finset Frag) (f : Frag) : Bool :=
  if f ∈ s then true else if f.bits = 0 then false else contains s f.parent
  termination_by f.bits
  decreasing_by
    rw [bits_parent]
    omega

/-! ### What a set covers -/

private theorem valuePath_succ (v n : Nat) : valuePath v (n + 1) = valuePath v n ++ [v.testBit (23 - n)] := by
  rw [valuePath, range_succ, map_append]
  rfl

private theorem exists_path (h0 : p.bits ≠ 0) : ∃ q b, p.path = q ++ [b] := by
  refine (eq_nil_or_concat' p.path).resolve_left fun hnil => h0 ?_
  rw [← length_path, hnil]
  rfl

private theorem path_sibling (hp : p.WF) {b : Bool} (hq : p.path = q ++ [b]) : p.sibling.path = q ++ [!b] := by
  have h24 := hp.1
  have hbits : p.bits = q.length + 1 := by rw [← length_path, hq, length_append, length_singleton]
  obtain ⟨v, hv⟩ : ∃ v, p.value ^^^ (0x1000000 >>> p.bits) = v := ⟨_, rfl⟩
  have hbit : ∀ j, v.testBit j = (p.value.testBit j ^^ decide (24 = p.bits + j)) := by
    intro j
    rw [← hv, Nat.testBit_xor, Nat.testBit_shiftRight, show 0x1000000 = 2 ^ 24 from rfl, Nat.testBit_two_pow]
  have hinit : valuePath v q.length = valuePath p.value q.length := by
    refine (valuePath_eq_iff (by omega)).2 fun j _ _ => ?_
    rw [hbit, decide_eq_false (by omega), Bool.xor_false]
  rw [path, hbits, valuePath_succ] at hq
  obtain ⟨hinit', hlast⟩ := append_inj' hq rfl
  rw [sibling, hv, path_make h24, hbits, valuePath_succ, hinit, hinit', hbit, singleton_inj.1 hlast,
    decide_eq_true (by omega), Bool.xor_true]

private theorem parent_prefix_iff (hp : p.WF) (h0 : p.bits ≠ 0) (ht : t.length = 24) :
    p.parent.path <+: t ↔ p.path <+: t ∨ p.sibling.path <+: t := by
  obtain ⟨q, b, hq⟩ := exists_path h0
  have hlt : q.length < t.length := by
    have := hp.1
    rw [← length_path, hq, length_append, length_singleton] at this
    omega
  rw [path_parent hp, path_sibling hp hq, hq, dropLast_concat]
  constructor
  · rintro ⟨r, rfl⟩
    cases r with
    | nil => simp at hlt
    | cons c r =>
      by_cases hc : c = b
      · exact .inl ⟨r, by simp [hc]⟩
      · exact .inr ⟨r, by simp [Bool.eq_not.2 hc]⟩
  · exact fun h => h.elim (prefix_append q _).trans (prefix_append q _).trans

structure Covering (fs : List Frag) (s : Finset Frag) : Prop where
  wf : ∀ f ∈ s, f.WF
  covers : ∀ t, t.length = 24 → ((∃ f ∈ s, f.path <+: t) ↔ ∃ f ∈ fs, f.path <+: t)

private theorem Covering.visit (h : Covering fs r.1) (p : Frag) : Covering fs (visit r p).1 := by
  unfold FragSet.visit
  split
  case isFalse => exact h
  rename_i hp
  obtain ⟨hmem, h0, hsib⟩ := hp
  have hwf := h.wf p hmem
  constructor
  · refine Finset.forall_mem_insert _ _ _ |>.2 ⟨wf_parent hwf, fun f hf => h.wf f ?_⟩
    exact Finset.mem_of_mem_erase (Finset.mem_of_mem_erase hf)
  intro t ht
  rw [← h.covers t ht, merged, Finset.exists_mem_insert, parent_prefix_iff hwf h0 ht]
  constructor
  · rintro ((hpt | hst) | ⟨f, hf, hft⟩)
    · exact ⟨_, hmem, hpt⟩
    · exact ⟨_, hsib, hst⟩
    · exact ⟨f, Finset.mem_of_mem_erase (Finset.mem_of_mem_erase hf), hft⟩
  · rintro ⟨f, hf, hft⟩
    simp only [Finset.mem_erase]
    by_cases hfp : f = p
    · exact .inl (.inl (hfp ▸ hft))
    by_cases hfs : f = p.sibling
    · exact .inl (.inr (hfs ▸ hft))
    exact .inr ⟨f, ⟨hfp, hfs, hf⟩, hft⟩

private theorem Covering.simplify (h : Covering fs s) : Covering fs (simplify s) := by
  have hsweep : ∀ s, Covering fs s → Covering fs (sweep s).1 := fun s h =>
    foldlRecOn (motive := fun r => Covering fs r.1) _ FragSet.visit h fun _ hr p _ => hr.visit p
  fun_induction FragSet.simplify s with
  | case1 s hclean => exact hsweep s h
  | case2 s hdirty ih => exact ih (hsweep s h)

private theorem covering_foldl_insert (hfs : ∀ f ∈ fs, f.WF) : Covering fs (fs.foldl insert ∅) := by
  induction fs using reverseRecOn with
  | nil => exact ⟨nofun, fun t _ => by simp⟩
  | append_singleton fs f ih =>
    rw [forall_mem_append, forall_mem_singleton] at hfs
    have h := ih hfs.1
    rw [foldl_append, foldl_cons, foldl_nil]
    refine Covering.simplify ⟨Finset.forall_mem_insert _ _ _ |>.2 ⟨hfs.2, h.wf⟩, fun t ht => ?_⟩
    rw [Finset.exists_mem_insert, h.covers t ht]
    simp [or_comm]

private theorem foldl_insert_apart (fs : List Frag) :
    ∀ f ∈ fs.foldl insert ∅, f.bits ≠ 0 → f.sibling ∉ fs.foldl insert ∅ := by
  rcases eq_nil_or_concat' fs with rfl | ⟨fs, f, rfl⟩
  · exact nofun
  · rw [foldl_append, foldl_cons, foldl_nil]
    exact simplify_apart _

private theorem contains_iff_covers (hwf : ∀ f ∈ s, f.WF) (hf : f.WF) :
    contains s f = true ↔ ∃ g ∈ s, g.path <+: f.path := by
  fun_induction contains s f with
  | case1 f hmem => exact iff_of_true rfl ⟨f, hmem, prefix_refl _⟩
  | case2 f hmem h0 =>
    refine iff_of_false Bool.false_ne_true ?_
    rintro ⟨g, hg, hgf⟩
    have hnil : f.path = [] := length_eq_zero_iff.1 (by rw [length_path, h0])
    rw [hnil, prefix_nil, ← hnil] at hgf
    exact hmem (path_injective (hwf g hg) hf hgf ▸ hg)
  | case3 f hmem h0 ih =>
    obtain ⟨q, b, hq⟩ := exists_path h0
    rw [ih (wf_parent hf), path_parent hf, hq, dropLast_concat]
    refine exists_congr fun g => and_congr_right fun hg => ?_
    rw [prefix_concat_iff, ← hq]
    exact (or_iff_right fun heq => hmem (path_injective (hwf g hg) hf heq ▸ hg)).symm

private theorem contains_iff_values (hfs : ∀ f ∈ fs, f.WF) (hg : g.WF) : contains (fs.foldl insert ∅) g = true ↔
    ∀ v < 2 ^ 24, g.containsValue v = true → ∃ f ∈ fs, f.containsValue v = true := by
  have h := covering_foldl_insert hfs
  rw [contains_iff_covers h.wf hg]
  constructor
  · rintro ⟨f, hf, hfg⟩ v - hv
    rw [containsValue_iff hg] at hv
    obtain ⟨e, he, hev⟩ := (h.covers _ (length_valuePath v 24)).1 ⟨f, hf, hfg.trans hv⟩
    exact ⟨e, he, (containsValue_iff (hfs e he) v).2 hev⟩
  intro hall
  have happart : ∀ q, (∃ f ∈ fs.foldl insert ∅, f.path = q ++ [false]) → ¬∃ f ∈ fs.foldl insert ∅, f.path = q ++ [true] := by
    rintro q ⟨f, hf, hfq⟩ ⟨f', hf', hfq'⟩
    have hsib : f.sibling = f' :=
      path_injective (wf_make (h.wf f hf).1 _) (h.wf f' hf') ((path_sibling (h.wf f hf) hfq).trans hfq'.symm)
    refine foldl_insert_apart fs f hf ?_ (hsib ▸ hf')
    simp [← length_path, hfq]
  have hcover : ∀ t, g.path <+: t → t.length = 24 → ∃ u, (∃ f ∈ fs.foldl insert ∅, f.path = u) ∧ u <+: t := by
    intro t hgt ht
    have hval : valuePath (natOf t) 24 = t := by
      have := path_ofPath ht.le
      rwa [ofPath, path_make ht.le, ht] at this
    obtain ⟨f, hf, hfv⟩ := hall (natOf t) (ht ▸ natOf_lt t) ((containsValue_iff hg _).2 (hval.symm ▸ hgt))
    rw [containsValue_iff (hfs f hf), hval] at hfv
    obtain ⟨e, he, het⟩ := (h.covers t ht).2 ⟨f, hf, hfv⟩
    exact ⟨_, ⟨e, he, rfl⟩, het⟩
  obtain ⟨u, ⟨f, hf, rfl⟩, hfg⟩ := PrefixTree.exists_prefix_of_covered happart (by rw [length_path]; exact hg.1) hcover
  exact ⟨f, hf, hfg⟩

/-- After any insertions no two members are siblings, and a fragment is contained exactly if its values are those of
inserted fragments, in whatever order they came. -/
theorem fragset_canonical (fs : List Frag) (hfs : ∀ f ∈ fs, f.WF) :
    (∀ f ∈ fs.foldl insert ∅, f.bits ≠ 0 → f.sibling ∉ fs.foldl insert ∅) ∧
    ∀ g : Frag, g.WF → (contains (fs.foldl insert ∅) g = true ↔
        ∀ v < 2 ^ 24, g.containsValue v = true → ∃ f ∈ fs, f.containsValue v = true) ∧
      ∀ fs' : List Frag, fs'.Perm fs → contains (fs'.foldl insert ∅) g = contains (fs.foldl insert ∅) g := by
  refine ⟨foldl_insert_apart fs, fun g hg => ⟨contains_iff_values hfs hg, fun fs' hperm => ?_⟩⟩
  rw [Bool.eq_iff_iff, contains_iff_values hfs hg, contains_iff_values (fun f hf => hfs f (hperm.mem_iff.1 hf)) hg]
  simp only [hperm.mem_iff]

/-- The two quarters of the first half become the half. -/
theorem fragset_canonical_halves : contains ([make 2 0x400000, make 2 0].foldl insert ∅) (make 1 0) = true := by
  refine ((fragset_canonical [make 2 0x400000, make 2 0] (by decide)).2 (make 1 0) (by decide)).1.2 fun v _ hv => ?_
  obtain ⟨rest, hrest⟩ : ∃ rest, valuePath v 24 = v.testBit 23 :: v.testBit 22 :: rest := ⟨_, rfl⟩
  rw [containsValue_iff (by decide), show (make 1 0).path = [false] by decide, hrest, cons_prefix_cons] at hv
  cases hnext : v.testBit 22 with
  | false =>
    refine ⟨make 2 0, by simp, (containsValue_iff (by decide) v).2 ?_⟩
    rw [show (make 2 0).path = [false, false] by decide, hrest, ← hv.1, hnext]
    exact prefix_append _ _
  | true =>
    refine ⟨make 2 0x400000, by simp, (containsValue_iff (by decide) v).2 ?_⟩
    rw [show (make 2 0x400000).path = [false, true] by decide, hrest, ← hv.1, hnext]
    exact prefix_append _ _

end FragSet
end Lunule
