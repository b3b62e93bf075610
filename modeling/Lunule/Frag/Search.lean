import Lunule.Frag.Tree
import Lunule.Lib.PrefixTree

/-!
# The searches of the fragment tree

A fragment tree, read through the bits of its fragments, is a tree of strings given by its split points (`shape`). It is
tidy when every split point is one of its nodes and ends within the 24 bits. On a tidy tree each search of the source
ends, without a failed assertion, with what its name says: `getLeaves` with the leaves, `getLeavesUnder` with those below
a fragment, `isLeaf` and `contains` with whether a fragment is a leaf, `lookup` with the leaf that holds a value.

`force_to_leaf` also calls `is_leaf` while the map holds split points that are no nodes. The last part says what the
answer is there.
-/

namespace Lunule.FragTree
open PrefixTree Worklist List Option Frag
variable {t : FragTree} {f g x : Frag} {nb : Nat}

def shape (t : FragTree) (s : List Bool) : Nat := t.splits (ofPath s)

theorem shape_path (t : FragTree) (hf : f.WF) : t.shape f.path = t.splits f := by
  rw [shape, ofPath_path hf]

/-- Every split point ends within the 24 bits. -/
def Within (t : FragTree) : Prop := ∀ f, t.splits f ≠ 0 → f.WF ∧ f.bits + t.splits f ≤ 24

/-- Every split point is a node as well. -/
structure Tidy (t : FragTree) : Prop where
  within : t.Within
  shape : PrefixTree.Tidy 24 t.shape

structure IsNode (t : FragTree) (f : Frag) : Prop where
  wf : f.WF
  node : Node t.shape f.path

structure IsLeaf (t : FragTree) (f : Frag) : Prop extends t.IsNode f where
  unsplit : t.splits f = 0

private theorem isNode_root (t : FragTree) : t.IsNode .root := ⟨wf_root, .root⟩

theorem Tidy.isNode (ht : t.Tidy) (hf : t.splits f ≠ 0) : t.IsNode f := by
  have hwf := (ht.within f hf).1
  refine ⟨hwf, (ht.shape f.path ?_).1⟩
  rwa [shape_path t hwf]

theorem IsNode.eq_or_below (hf : t.IsNode f) (hg : t.IsNode g) (h : f.path <+: g.path) :
    f = g ∨ (t.splits f ≠ 0 ∧ f.bits + t.splits f ≤ g.bits) := by
  rcases hf.node.eq_or_below hg.node h with he | hb
  · exact .inl (path_injective hf.wf hg.wf he)
  · rw [shape_path t hf.wf, length_path, length_path] at hb
    exact .inr hb

theorem IsLeaf.eq_of_below (hf : t.IsLeaf f) (hg : t.IsNode g) (h : f.path <+: g.path) : f = g := by
  rcases hf.toIsNode.eq_or_below hg h with he | hb
  · exact he
  · exact absurd hf.unsplit hb.1

theorem IsLeaf.toLeaf (hf : t.IsLeaf f) : Leaf t.shape f.path := ⟨hf.node, by rw [shape_path t hf.wf, hf.unsplit]⟩

private theorem path_take {n : Nat} (hn : n ≤ x.bits) (hx : x.WF) : (make n x.value).path = x.path.take n := by
  have h24 := hx.1
  rw [path_make (by omega), path, valuePath_take hn]

private theorem IsNode.child (hf : t.IsNode f) (hs : t.splits f ≠ 0) (hg : g.WF) (h : f.path <+: g.path)
    (hlen : g.bits = f.bits + t.splits f) : t.IsNode g := by
  refine ⟨hg, ?_⟩
  have hS := shape_path t hf.wf
  have := hf.node.child_on_path (hS ▸ hs) h (by rw [hS, length_path, length_path]; omega)
  rwa [hS, length_path, ← hlen, ← length_path, take_length] at this

theorem IsNode.of_mem_split (hf : t.IsNode f) (hs : t.splits f ≠ 0) (hb : f.bits + t.splits f ≤ 24)
    (hg : g ∈ f.split (t.splits f)) : t.IsNode g := by
  obtain ⟨hg, h, hlen⟩ := (mem_split hf.wf hb).1 hg
  exact hf.child hs hg h hlen

theorem exists_child (hf : f.WF) (hb : f.bits + nb ≤ 24) (hx : x.WF) (h : f.path <+: x.path)
    (hle : f.bits + nb ≤ x.bits) : ∃ c ∈ f.split nb, c.path <+: x.path := by
  refine ⟨make (f.bits + nb) x.value, ?_, ?_⟩
  · rw [mem_split hf hb, path_take hle hx]
    refine ⟨wf_make hb _, prefix_take h (by rw [length_path]; omega), bits_make _ _⟩
  · rw [path_take hle hx]
    exact take_prefix _ _

/-! ### The rounds of a search -/

/-- One less than the fragments at or below a fragment, counted by levels of one bit. -/
def weight (f : Frag) : Nat := 2 ^ (25 - f.bits) - 1

theorem sum_weight_split (hb : f.bits + nb ≤ 24) (hnb : nb ≠ 0) : ((f.split nb).map weight).sum < weight f := by
  have hall : (f.split nb).map weight = (f.split nb).map fun _ => 2 ^ (25 - (f.bits + nb)) - 1 := by
    refine map_congr_left fun c hc => ?_
    obtain ⟨i, _, rfl⟩ := mem_map.1 hc
    rw [weight, bits_makeChild]
  rw [hall, map_const', sum_replicate, length_split, Nat.nsmul_eq_mul, weight, Nat.mul_sub, Nat.mul_one,
    ← Nat.pow_add, show nb + (25 - (f.bits + nb)) = 25 - f.bits by omega]
  have h1 : 1 < 2 ^ nb := Nat.one_lt_two_pow hnb
  have h2 : 2 ^ nb ≤ 2 ^ (25 - f.bits) := Nat.pow_le_pow_right (by omega) (by omega)
  omega

theorem weight_lt_rounds (f : Frag) : ([f].map weight).sum < rounds := by
  have h : 2 ^ (25 - f.bits) ≤ 2 ^ 25 := Nat.pow_le_pow_right (by omega) (by omega)
  simp only [map_cons, map_nil, sum_cons, sum_nil, weight, rounds]
  omega

theorem weight_pos (hf : f.WF) : (([] : List Frag).map weight).sum < weight f := by
  have h : 2 ^ 1 ≤ 2 ^ (25 - f.bits) := Nat.pow_le_pow_right (by omega) (by have := hf.1; omega)
  simp only [map_nil, sum_nil, weight]
  omega

/-! ### Fragments apart -/

def Separate (l : List Frag) : Prop := l.Pairwise fun f g => Apart f.path g.path

private theorem Separate.perm {l l' : List Frag} (h : Separate l) (hp : l.Perm l') : Separate l' :=
  (hp.pairwise_iff fun h => Apart.symm h).1 h

private theorem separate_split (hf : f.WF) (hb : f.bits + nb ≤ 24) : Separate (f.split nb) := by
  refine (nodup_split hf hb).imp_of_mem fun {c d} hc hd hne => ?_
  obtain ⟨hcw, _, hcl⟩ := (mem_split hf hb).1 hc
  obtain ⟨hdw, _, hdl⟩ := (mem_split hf hb).1 hd
  refine apart_of_length_eq (by rw [length_path, length_path, hcl, hdl]) fun h => ?_
  exact hne (path_injective hcw hdw h)

theorem Separate.replace {l : List Frag} (h : Separate (f :: l)) (hf : f.WF) (hb : f.bits + nb ≤ 24) :
    Separate (l ++ f.split nb) := by
  obtain ⟨hfl, hl⟩ := pairwise_cons.1 h
  refine pairwise_append.2 ⟨hl, separate_split hf hb, fun g hg c hc => ?_⟩
  exact (hfl g hg).symm.extend ((mem_split hf hb).1 hc).2.1

/-! ### Searches up the tree -/

private theorem branchFrom_spec (t : FragTree) {n : Nat} (hx : x.WF) (hn : x.bits < n) :
    ∃ b, t.branchFrom n x = some b ∧ b.WF ∧ b.path <+: x.path ∧ (t.splits b ≠ 0 ∨ b = .root) ∧
      ∀ f, f.WF → b.path <+: f.path → f.path <+: x.path → f ≠ b → t.splits f = 0 := by
  induction n generalizing x with
  | zero => omega
  | succ n ih =>
    -- no fragment lies strictly between `x` and itself
    have hself : ∀ f : Frag, f.WF → x.path <+: f.path → f.path <+: x.path → f ≠ x → t.splits f = 0 := by
      intro f hf hxf hfx hne
      exact absurd (path_injective hf hx (hfx.eq_of_length_le hxf.length_le)) hne
    rw [branchFrom]
    by_cases hroot : x = .root
    · rw [if_pos hroot]
      exact ⟨x, rfl, hx, prefix_refl _, .inr hroot, hself⟩
    rw [if_neg hroot]
    by_cases hs : t.getSplit x ≠ 0
    · rw [if_pos hs]
      exact ⟨x, rfl, hx, prefix_refl _, .inl hs, hself⟩
    have h0 : x.bits ≠ 0 := fun h0 => hroot (eq_root hx h0)
    rw [if_neg hs, if_neg h0]
    obtain ⟨b, hb, hbw, hbx, hbs, hbetween⟩ := ih (wf_parent hx) (by rw [bits_parent]; omega)
    rw [path_parent hx] at hbx hbetween
    refine ⟨b, hb, hbw, hbx.trans <| dropLast_prefix _, hbs, fun f hf hbf hfx hne => ?_⟩
    by_cases hfe : f = x
    · rw [hfe]
      exact not_not.1 hs
    have hlt : f.bits < x.bits := by
      refine Nat.lt_of_le_of_ne (by simpa using hfx.length_le) fun hl => hfe ?_
      exact path_injective hf hx (hfx.eq_of_length (by simpa using hl))
    refine hbetween f hf hbf ?_ hne
    rw [dropLast_eq_take]
    exact prefix_take hfx (by rw [length_path, length_path]; omega)

private theorem getBranch_spec (t : FragTree) (hx : x.WF) :
    ∃ b, t.getBranch x = some b ∧ b.WF ∧ b.path <+: x.path ∧ (t.splits b ≠ 0 ∨ b = .root) ∧
      ∀ f, f.WF → b.path <+: f.path → f.path <+: x.path → f ≠ b → t.splits f = 0 :=
  t.branchFrom_spec hx (Nat.lt_succ_self _)

theorem getBranchAbove_some (t : FragTree) (hx : x.WF) : ∃ b, t.getBranchAbove x = some b := by
  suffices h : ∀ n, x.bits < n → ∃ b, t.branchAboveFrom n x = some b from h _ (Nat.lt_succ_self _)
  intro n hn
  induction n generalizing x with
  | zero => omega
  | succ n ih =>
    rw [branchAboveFrom]
    by_cases hroot : x = .root
    · exact ⟨x, by rw [if_pos hroot]⟩
    have h0 : x.bits ≠ 0 := fun h0 => hroot (eq_root hx h0)
    rw [if_neg hroot, if_neg h0]
    by_cases hs : t.getSplit x.parent ≠ 0
    · exact ⟨x.parent, by rw [if_pos hs]⟩
    · rw [if_neg hs]
      exact ih (wf_parent hx) (by rw [bits_parent]; omega)

theorem Tidy.getBranchOrLeaf_spec (ht : t.Tidy) (hx : x.WF) :
    ∃ b, t.getBranchOrLeaf x = some b ∧ t.IsNode b ∧ b.path <+: x.path ∧
      (b = x ∨ t.splits b = 0 ∨ x.bits < b.bits + t.splits b) := by
  obtain ⟨b, hb, hbw, hbx, hbs, hbetween⟩ := t.getBranch_spec hx
  have hbn : t.IsNode b := by
    rcases hbs with hs | rfl
    · exact ht.isNode hs
    · exact t.isNode_root
  rw [getBranchOrLeaf, hb, map_some]
  by_cases hc : 0 < t.getSplit b ∧ b.bits + t.getSplit b ≤ x.bits
  · rw [if_pos hc]
    obtain ⟨hpos, hle⟩ := hc
    have hs : t.splits b ≠ 0 := Nat.pos_iff_ne_zero.1 hpos
    have hw : (make (b.bits + t.getSplit b) x.value).WF := wf_make (Nat.le_trans hle hx.1) _
    have hpx : (make (b.bits + t.getSplit b) x.value).path <+: x.path := by
      rw [path_take hle hx]
      exact take_prefix _ _
    have hbp : b.path <+: (make (b.bits + t.getSplit b) x.value).path := by
      rw [path_take hle hx]
      exact prefix_take hbx (by rw [length_path]; omega)
    refine ⟨_, rfl, hbn.child hs hw hbp (bits_make _ _), hpx, .inr (.inl ?_)⟩
    refine hbetween _ hw hbp hpx fun he => ?_
    have := congrArg bits he
    rw [bits_make] at this
    omega
  · rw [if_neg hc]
    refine ⟨b, rfl, hbn, hbx, .inr ?_⟩
    unfold getSplit at hc
    omega

/-! ### Searches down the tree -/

/-- A search for the leaves that meet `keep`: those not yet listed lie below the queue, and nothing overlaps. -/
structure Listing (t : FragTree) (keep : Frag → Prop) (q ls : List Frag) : Prop where
  separate : Separate (q ++ ls)
  nodes : ∀ f ∈ q, t.IsNode f
  sound : ∀ f ∈ ls, t.IsLeaf f ∧ keep f
  complete : ∀ l, t.IsLeaf l → keep l → l ∈ ls ∨ ∃ f ∈ q, f.path <+: l.path

namespace Listing
variable {keep : Frag → Prop} {q q' ls ls' : List Frag}

private theorem perm (h : t.Listing keep q ls) (hq : q.Perm q') (hl : ls.Perm ls') : t.Listing keep q' ls' where
  separate := h.separate.perm (hq.append hl)
  nodes f hf := h.nodes f (hq.mem_iff.2 hf)
  sound f hf := h.sound f (hl.mem_iff.2 hf)
  complete l hl' hk := by
    rcases h.complete l hl' hk with hm | ⟨f, hf, hp⟩
    · exact .inl (hl.mem_iff.1 hm)
    · exact .inr ⟨f, hq.mem_iff.1 hf, hp⟩

section
variable (h : t.Listing keep (f :: q) ls)
include h

private theorem expand (hs : t.splits f ≠ 0) (hb : f.bits + t.splits f ≤ 24) :
    t.Listing keep (q ++ f.split (t.splits f)) ls := by
  have hf := h.nodes f mem_cons_self
  refine ⟨?_, ?_, h.sound, ?_⟩
  · have hr : Separate (q ++ ls ++ f.split (t.splits f)) := Separate.replace h.separate hf.wf hb
    refine hr.perm ?_
    rw [append_assoc, append_assoc]
    exact perm_append_comm.append_left q
  · intro c hc
    rcases mem_append.1 hc with hc | hc
    · exact h.nodes c (mem_cons_of_mem _ hc)
    · exact hf.of_mem_split hs hb hc
  intro l hl hk
  rcases h.complete l hl hk with hm | ⟨g, hg, hp⟩
  · exact .inl hm
  rcases mem_cons.1 hg with rfl | hg
  · rcases hf.eq_or_below hl.toIsNode hp with rfl | ⟨_, hle⟩
    · exact absurd hl.unsplit hs
    · obtain ⟨c, hc, hcl⟩ := exists_child hf.wf hb hl.wf hp hle
      exact .inr ⟨c, mem_append_right _ hc, hcl⟩
  · exact .inr ⟨g, mem_append_left _ hg, hp⟩

private theorem emit (hs : t.splits f = 0) (hk : keep f) : t.Listing keep q (f :: ls) := by
  have hf : t.IsLeaf f := ⟨h.nodes f mem_cons_self, hs⟩
  refine ⟨h.separate.perm perm_middle.symm, (forall_mem_cons.1 h.nodes).2,
    forall_mem_cons.2 ⟨⟨hf, hk⟩, h.sound⟩, ?_⟩
  · intro l hl hkl
    rcases h.complete l hl hkl with hm | ⟨g, hg, hp⟩
    · exact .inl (mem_cons_of_mem _ hm)
    rcases mem_cons.1 hg with rfl | hg
    · rw [hf.eq_of_below hl.toIsNode hp]
      exact .inl mem_cons_self
    · exact .inr ⟨g, hg, hp⟩

private theorem drop (hno : ∀ l, t.IsLeaf l → keep l → ¬ f.path <+: l.path) :
    t.Listing keep q ls := by
  refine ⟨h.separate.tail, (forall_mem_cons.1 h.nodes).2, h.sound, ?_⟩
  intro l hl hk
  rcases h.complete l hl hk with hm | ⟨g, hg, hp⟩
  · exact .inl hm
  rcases mem_cons.1 hg with rfl | hg
  · exact absurd hp (hno l hl hk)
  · exact .inr ⟨g, hg, hp⟩

end

private theorem done (h : t.Listing keep [] ls) : Separate ls ∧ ∀ f, f ∈ ls ↔ t.IsLeaf f ∧ keep f := by
  refine ⟨h.separate, fun f => ⟨h.sound f, fun hf => ?_⟩⟩
  rcases h.complete f hf.1 hf.2 with hm | ⟨g, hg, _⟩
  · exact hm
  · exact absurd hg not_mem_nil

end Listing

theorem Separate.singleton (f : Frag) : Separate [f] := pairwise_singleton _ f

theorem Tidy.getLeaves_spec (ht : t.Tidy) : ∃ ls, t.getLeaves = some ls ∧ Separate ls ∧ ∀ f, f ∈ ls ↔ t.IsLeaf f := by
  have hstart : t.Listing (fun _ => True) [.root] [] := by
    refine ⟨Separate.singleton _, ?_, fun f hf => absurd hf not_mem_nil, ?_⟩
    · intro f hf
      rw [mem_singleton.1 hf]
      exact t.isNode_root
    · exact fun l _ _ => .inr ⟨.root, mem_singleton_self _, nil_prefix⟩
  have hvisit : ∀ f q ls, t.Listing (fun _ => True) (f :: q) ls →
      Keeps lifo weight (t.Listing fun _ => True) (fun _ => False) f q (t.leavesVisit f ls) := by
    intro f q ls h
    have hf := h.nodes f mem_cons_self
    unfold leavesVisit getSplit
    split_ifs with hs
    · have hb := (ht.within f hs).2
      exact ⟨sum_weight_split hb hs, (h.expand hs hb).perm (lifo_perm _ _).symm (List.Perm.refl _)⟩
    · exact ⟨weight_pos hf.wf, h.emit (not_not.1 hs) trivial⟩
  obtain ⟨ls, hls, hdone⟩ := drain_ok lifo_perm hvisit hstart (weight_lt_rounds _)
  refine ⟨ls, ?_, hdone.done.1, fun f => by simpa using hdone.done.2 f⟩
  rw [getLeaves, getLeavesUnderSplit, hls]
  rfl

private theorem skip_iff (hx : x.WF) (f : Frag) :
    (x.bits ≤ f.bits ∧ x.contains f = false) ↔ x.bits ≤ f.bits ∧ ¬ x.path <+: f.path := by
  rw [← Bool.not_eq_true, contains_iff hx]

section
variable (ht : t.Tidy)
include ht

theorem Tidy.getLeavesUnder_spec (hx : x.WF) :
    ∃ ls, t.getLeavesUnder x = some ls ∧ Separate ls ∧ ∀ f, f ∈ ls ↔ t.IsLeaf f ∧ x.path <+: f.path := by
  obtain ⟨b, hb, hbn, hbx, _⟩ := ht.getBranchOrLeaf_spec hx
  have hstart : t.Listing (fun f => x.path <+: f.path) [b] [] := by
    refine ⟨Separate.singleton _, ?_, fun f hf => absurd hf not_mem_nil, ?_⟩
    · intro f hf
      rw [mem_singleton.1 hf]
      exact hbn
    · exact fun l _ hl => .inr ⟨b, mem_singleton_self _, hbx.trans hl⟩
  have hvisit : ∀ f q ls, t.Listing (fun f => x.path <+: f.path) (f :: q) ls →
      Keeps fifo weight (t.Listing fun f => x.path <+: f.path) (fun _ => False) f q (t.underVisit x f ls) := by
    intro f q ls h
    have hf := h.nodes f mem_cons_self
    have hq : (fifo q []).Perm q := by rw [fifo, append_nil]
    unfold underVisit getSplit
    split_ifs with hskip hs hc
    · refine ⟨weight_pos hf.wf, (h.drop fun l _ hxl hfl => ?_).perm hq.symm (List.Perm.refl _)⟩
      -- a longer fragment outside `x` shares nothing with what lies in `x`
      obtain ⟨hle, hnot⟩ := (skip_iff hx f).1 hskip
      exact hnot (prefix_of_prefix_length_le hxl hfl (by simpa using hle))
    · have hb := (ht.within f hs).2
      exact ⟨sum_weight_split hb hs, h.expand hs hb⟩
    · rw [contains_iff hx] at hc
      exact ⟨weight_pos hf.wf, (h.emit (not_not.1 hs) hc).perm hq.symm (perm_append_singleton f ls).symm⟩
    · rw [contains_iff hx] at hc
      refine ⟨weight_pos hf.wf, (h.drop fun l hl hxl hfl => hc ?_).perm hq.symm (List.Perm.refl _)⟩
      rw [IsLeaf.eq_of_below ⟨hf, not_not.1 hs⟩ hl.toIsNode hfl]
      exact hxl
  obtain ⟨ls, hls, hdone⟩ := drain_ok fifo_perm hvisit hstart (weight_lt_rounds _)
  refine ⟨ls, ?_, hdone.done.1, fun f => hdone.done.2 f⟩
  rw [getLeavesUnder, hb, bind_some, hls]
  rfl

theorem Tidy.isLeaf_spec (hx : x.WF) : ∃ b, t.isLeaf x = some b ∧ (b = true ↔ t.IsLeaf x) := by
  obtain ⟨ls, hls, hsep, hmem⟩ := ht.getLeavesUnder_spec hx
  refine ⟨_, by rw [isLeaf, hls, map_some], ?_⟩
  rw [decide_eq_true_iff]
  constructor
  · rintro ⟨hhead, _⟩
    exact ((hmem x).1 (mem_of_head? hhead)).1
  intro hl
  -- a leaf is the only leaf below itself, and it is listed once
  have hall : ∀ f ∈ ls, f = x := fun f hf => (hl.eq_of_below ((hmem f).1 hf).1.toIsNode ((hmem f).1 hf).2).symm
  have hxm : x ∈ ls := (hmem x).2 ⟨hl, prefix_refl _⟩
  match ls, hall, hxm, hsep with
  | [f], hall, _, _ => exact ⟨by rw [hall f mem_cons_self]; rfl, rfl⟩
  | f :: g :: l, hall, _, hsep =>
    have hfg := rel_of_pairwise_cons hsep (mem_cons_self (a := g))
    rw [hall f mem_cons_self, hall g (mem_cons_of_mem _ mem_cons_self)] at hfg
    exact absurd (prefix_refl _) hfg.1

theorem Tidy.isLeaf_iff (hx : x.WF) : t.isLeaf x = some true ↔ t.IsLeaf x := by
  obtain ⟨b, hb, hiff⟩ := ht.isLeaf_spec hx
  rw [hb, ← hiff, Option.some.injEq]

theorem Tidy.isLeaf_eq_false (hx : x.WF) (h : ¬ t.IsLeaf x) : t.isLeaf x = some false := by
  obtain ⟨b, hb, hiff⟩ := ht.isLeaf_spec hx
  rw [hb, Option.some.injEq, ← Bool.not_eq_true, hiff]
  exact h

theorem Tidy.contains_spec (hx : x.WF) : ∃ b, t.contains x = some b ∧ (b = true ↔ t.IsLeaf x) := by
  obtain ⟨b, hb, hbw, hbx, hbs, _⟩ := t.getBranch_spec hx
  have hbn : t.IsNode b := by
    rcases hbs with hs | rfl
    · exact ht.isNode hs
    · exact t.isNode_root
  -- the queue holds nodes, and one of them lies above `x` as long as `x` may still turn out to be a leaf
  let I : List Frag → Unit → Prop := fun q _ => (∀ f ∈ q, t.IsNode f) ∧ (t.IsLeaf x → ∃ f ∈ q, f.path <+: x.path)
  have hstart : I [b] () := by
    refine ⟨fun f hf => ?_, fun _ => ⟨b, mem_singleton_self _, hbx⟩⟩
    rw [mem_singleton.1 hf]
    exact hbn
  have hvisit : ∀ f q u, I (f :: q) u →
      Keeps fifo weight I (fun r => r = true ↔ t.IsLeaf x) f q (t.containsVisit x f u) := by
    intro f q u h
    have hf := h.1 f mem_cons_self
    have hrest : ∀ g ∈ q, t.IsNode g := fun g hg => h.1 g (mem_cons_of_mem _ hg)
    have hdrop : (t.IsLeaf x → ¬ f.path <+: x.path) → I (fifo q []) () := by
      intro hno
      rw [fifo, append_nil]
      refine ⟨hrest, fun hl => ?_⟩
      obtain ⟨g, hg, hp⟩ := h.2 hl
      rcases mem_cons.1 hg with rfl | hg
      · exact absurd hp (hno hl)
      · exact ⟨g, hg, hp⟩
    unfold containsVisit getSplit
    split_ifs with hskip hs hfx hfx
    · refine ⟨weight_pos hf.wf, hdrop fun _ hp => ?_⟩
      obtain ⟨hle, hnot⟩ := (skip_iff hx f).1 hskip
      have he := hp.eq_of_length (Nat.le_antisymm hp.length_le (by simpa using hle))
      exact hnot (he ▸ prefix_refl _)
    · subst hfx
      exact ⟨fun h => absurd h (by decide), fun hl => absurd hl.unsplit hs⟩
    · have hb := (ht.within f hs).2
      refine ⟨sum_weight_split hb hs, ?_, fun hl => ?_⟩
      · intro g hg
        rcases mem_append.1 hg with hg | hg
        · exact hrest g hg
        · exact hf.of_mem_split hs hb hg
      · obtain ⟨g, hg, hp⟩ := h.2 hl
        rcases mem_cons.1 hg with rfl | hg
        · rcases hf.eq_or_below hl.toIsNode hp with he | ⟨_, hle⟩
          · exact absurd he hfx
          · obtain ⟨c, hc, hcx⟩ := exists_child hf.wf hb hx hp hle
            exact ⟨c, mem_append_right _ hc, hcx⟩
        · exact ⟨g, mem_append_left _ hg, hp⟩
    · subst hfx
      exact ⟨fun _ => ⟨hf, not_not.1 hs⟩, fun _ => rfl⟩
    · exact ⟨weight_pos hf.wf, hdrop fun hl hp => hfx (IsLeaf.eq_of_below ⟨hf, not_not.1 hs⟩ hl.toIsNode hp)⟩
  rw [contains, hb, bind_some]
  rcases drain_spec fifo_perm hvisit hstart (weight_lt_rounds _) with ⟨_, hd, hend⟩ | ⟨r, hd, hr⟩
  · refine ⟨false, by rw [hd]; rfl, fun h => absurd h (by decide), fun hl => ?_⟩
    obtain ⟨g, hg, _⟩ := hend.2 hl
    exact absurd hg not_mem_nil
  · exact ⟨r, by rw [hd]; rfl, hr⟩

theorem Tidy.lookup_spec (v : Nat) :
    ∃ f, t.lookup v = some f ∧ t.IsLeaf f ∧ f.containsValue v = true := by
  suffices h : ∀ n g, t.IsNode g → g.containsValue v = true → 24 < g.bits + n →
      ∃ f, t.lookupFrom v n g = some f ∧ t.IsLeaf f ∧ f.containsValue v = true from
    h 25 .root t.isNode_root ((containsValue_iff wf_root v).2 nil_prefix) (by simp)
  intro n
  induction n with
  | zero =>
    intro g hg _ hn
    have := hg.wf.1
    omega
  | succ n ih =>
    intro g hg hv hn
    rw [lookupFrom, hv, if_neg (by decide)]
    by_cases hs : t.getSplit g = 0
    · rw [if_pos hs]
      exact ⟨g, rfl, ⟨hg, hs⟩, hv⟩
    rw [if_neg hs]
    have hb : g.bits + t.getSplit g ≤ 24 := (ht.within g hs).2
    -- some child holds the value, so the search over the children ends with one
    have hsome : ((g.split (t.getSplit g)).find? (·.containsValue v)).isSome := by
      rw [find?_isSome]
      refine ⟨make (g.bits + t.getSplit g) v, ?_, ?_⟩
      · rw [mem_split hg.wf hb, path_make hb]
        refine ⟨wf_make hb v, ?_, bits_make _ _⟩
        have hp := (containsValue_iff hg.wf v).1 hv
        rw [← valuePath_take hb]
        exact prefix_take hp (by rw [length_path]; omega)
      · rw [containsValue_iff (wf_make hb v), path_make hb, ← valuePath_take hb]
        exact take_prefix _ _
    obtain ⟨c, hc⟩ := isSome_iff_exists.1 hsome
    have hcm := mem_of_find?_eq_some hc
    have hcl := ((mem_split hg.wf hb).1 hcm).2.2
    have hcv : c.containsValue v = true := by simpa using find?_some hc
    rw [hc, bind_some]
    exact ih c (hg.of_mem_split hs hb hcm) hcv (by omega)

end

/-! ### Trees with stray split points -/

theorem Within.isLeaf_of_split (ht : t.Within) (hx : x.WF) (hs : t.splits x ≠ 0) : t.isLeaf x = some false := by
  have hbranch : t.getBranchOrLeaf x = some x := by
    have hb : t.getBranch x = some x := by
      rw [getBranch, branchFrom, if_pos (show t.getSplit x ≠ 0 from hs), ite_self]
    have hno : ¬ (0 < t.getSplit x ∧ x.bits + t.getSplit x ≤ x.bits) := by omega
    rw [getBranchOrLeaf, hb, map_some, if_neg hno]
  -- only unsplit fragments are listed
  let I : List Frag → List Frag → Prop := fun q ls => (∀ f ∈ q, f.WF) ∧ ∀ f ∈ ls, t.splits f = 0
  have hstart : I [x] [] := by
    refine ⟨fun f hf => ?_, fun f hf => absurd hf not_mem_nil⟩
    rw [mem_singleton.1 hf]
    exact hx
  have hvisit : ∀ f q ls, I (f :: q) ls → Keeps fifo weight I (fun _ => False) f q (t.underVisit x f ls) := by
    intro f q ls h
    have hf := h.1 f mem_cons_self
    have hrest : ∀ g ∈ fifo q [], g.WF := by
      intro g hg
      rw [fifo, append_nil] at hg
      exact h.1 g (mem_cons_of_mem _ hg)
    unfold underVisit getSplit
    split_ifs with hskip hsf hc
    · exact ⟨weight_pos hf, hrest, h.2⟩
    · have hb := (ht f hsf).2
      refine ⟨sum_weight_split hb hsf, fun g hg => ?_, h.2⟩
      rcases mem_append.1 hg with hg | hg
      · exact h.1 g (mem_cons_of_mem _ hg)
      · exact ((mem_split hf hb).1 hg).1
    · refine ⟨weight_pos hf, hrest, forall_mem_append.2 ⟨h.2, forall_mem_singleton.2 (not_not.1 hsf)⟩⟩
    · exact ⟨weight_pos hf, hrest, h.2⟩
  obtain ⟨ls, hls, hdone⟩ := drain_ok fifo_perm hvisit hstart (weight_lt_rounds _)
  have hunder : t.getLeavesUnder x = some ls := by
    rw [getLeavesUnder, hbranch, bind_some, hls]
    rfl
  rw [isLeaf, hunder, map_some, Option.some.injEq, decide_eq_false_iff_not]
  rintro ⟨hhead, _⟩
  exact hs (hdone.2 x (mem_of_head? hhead))

/-- `c` is an unsplit child of `u`, or the root, with no split point in between. -/
def Hangs (t : FragTree) (c : Frag) : Prop :=
  c = .root ∨ ∃ u : Frag, u.WF ∧ u.path <+: c.path ∧ t.splits u ≠ 0 ∧ u.bits + t.splits u = c.bits ∧
    ∀ f : Frag, f.WF → u.path <+: f.path → f.path <+: c.path → f ≠ u → f ≠ c → t.splits f = 0

private theorem getBranchOrLeaf_of_hangs {c : Frag} (hc : c.WF) (h0 : t.splits c = 0) (h : t.Hangs c) :
    t.getBranchOrLeaf c = some c := by
  obtain ⟨b, hb, hbw, hbc, hbs, hbetween⟩ := t.getBranch_spec hc
  rw [getBranchOrLeaf, hb, map_some, Option.some.injEq]
  rcases h with rfl | ⟨u, huw, huc, hus, hlen, hnone⟩
  · have hbr : b = .root := by
      have hp : b.path = [] := prefix_nil.1 (by simpa using hbc)
      exact path_injective hbw wf_root (hp.trans path_root.symm)
    subst hbr
    rw [if_neg]
    simp [getSplit, h0]
  -- the nearest split point above `c` is `u`
  have hbu : b = u := by
    rcases List.prefix_or_prefix_of_prefix hbc huc with hbu | hub
    · by_contra hne
      exact hus (hbetween u huw hbu huc fun h => hne h.symm)
    by_contra hne
    have hbc' : b ≠ c := by
      rintro rfl
      rcases hbs with hs | hroot
      · exact hs h0
      · have : u.bits ≤ 0 := by simpa [hroot] using huc.length_le
        have : b.bits = 0 := by rw [hroot]; rfl
        omega
    have hb0 := hnone b hbw hub hbc hne hbc'
    rcases hbs with hs | hroot
    · exact hs hb0
    · have : u.path = [] := prefix_nil.1 (by simpa [hroot] using hub)
      exact hne (path_injective hbw huw (by rw [this, hroot]; rfl))
  subst hbu
  have hpos : 0 < t.getSplit b ∧ b.bits + t.getSplit b ≤ c.bits := by
    unfold getSplit
    omega
  rw [if_pos hpos, getSplit, hlen]
  exact hc.2

theorem isLeaf_of_hangs {c : Frag} (hc : c.WF) (h0 : t.splits c = 0) (h : t.Hangs c) : t.isLeaf c = some true := by
  have hself : c.contains c = true := (contains_iff hc).2 (prefix_refl _)
  have hvisit : t.underVisit c c [] = .ok ([], [c]) := by
    simp [underVisit, getSplit, h0, hself]
  have hd : drain fifo (t.underVisit c) rounds [c] [] = some (.ok [c]) := by
    rw [show rounds = (2 ^ 25 - 2) + 1 + 1 from rfl, drain, hvisit]
    rfl
  rw [isLeaf, getLeavesUnder, getBranchOrLeaf_of_hangs hc h0 h, bind_some, hd]
  simp [Except.toOption]

theorem IsNode.hangs (hx : t.IsNode x) (ht : t.Tidy) : t.Hangs x := by
  obtain ⟨hw, hn⟩ := hx
  by_cases hroot : x = .root
  · exact .inl hroot
  right
  generalize hp : x.path = p at hn
  cases hn with
  | root => exact absurd (path_injective hw wf_root (hp.trans path_root.symm)) hroot
  | @child s w hs hS hw' =>
    have hslen : s.length ≤ 24 := by
      have := congrArg length hp
      rw [length_path, length_append] at this
      have := hw.1
      omega
    have hsp := path_ofPath hslen
    have hsw := wf_ofPath hslen
    have hu : t.IsNode (ofPath s) := ⟨hsw, by rw [hsp]; exact hs⟩
    have hlen : (ofPath s).bits + t.splits (ofPath s) = x.bits := by
      have := congrArg length hp
      rw [length_path, length_append, hw'] at this
      rw [bits_ofPath, this]
      rfl
    refine ⟨ofPath s, hsw, ?_, hS, hlen, fun f hf huf hfx hfu hfx' => ?_⟩
    · rw [hsp]
      exact prefix_append s w
    by_contra hsf
    rcases hu.eq_or_below (ht.isNode hsf) huf with he | ⟨_, hle⟩
    · exact hfu he.symm
    refine hfx' (path_injective hf hw ?_)
    rw [hp]
    refine hfx.eq_of_length (Nat.le_antisymm hfx.length_le ?_)
    rw [← hp, length_path, length_path]
    omega

end Lunule.FragTree
