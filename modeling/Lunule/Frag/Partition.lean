import Lunule.Frag.Search
import Lunule.Lib.Exec

/-!
# The leaves partition the hash space

Every modifier of the fragment tree keeps it tidy and fails no assertion when its caller keeps to `Allowed`. For a split
and a merge this is one update of the map, followed by the assimilation of equally split children. `force_to_leaf` goes
through states in which the map holds split points that are no nodes: it removes the split of the parent, enters the
intermediary generation child by child, and then merges everything below `x`. What it leaves of the tree is `Forced`.
The main theorems read the partition off the tidy tree that a run of modifiers ends in.
-/

namespace Lunule.FragTree
open PrefixTree Worklist Exec List Option Frag FragTree Function
open FragTree (split merge)
variable {t : FragTree} {f g x p : Frag} {b : Nat}

/-! ### Updates of the map -/

variable (t)

@[simp] theorem splits_set_self (x : Frag) (b : Nat) : (t.set x b).splits x = b := update_self _ _ _

private theorem splits_set_of_ne (b : Nat) (h : f ≠ x) : (t.set x b).splits f = t.splits f := update_of_ne h _ _

private theorem ofPath_eq_iff (hx : x.WF) (s : List Bool) : ofPath s = x ↔ s = x.path := by
  constructor
  · intro h
    have hlen : s.length = x.bits := by rw [← h, bits_ofPath]
    rw [← h, path_ofPath (hlen ▸ hx.1)]
  · rintro rfl
    exact ofPath_path hx

private theorem ofPath_mem_split (hx : x.WF) (hb : x.bits + b ≤ 24) (s : List Bool) :
    ofPath s ∈ x.split b ↔ x.path <+: s ∧ s.length = x.path.length + b := by
  rw [mem_split hx hb, bits_ofPath, length_path]
  constructor
  · rintro ⟨_, hp, hlen⟩
    rw [path_ofPath (by omega)] at hp
    exact ⟨hp, hlen⟩
  · rintro ⟨hp, hlen⟩
    exact ⟨wf_ofPath (by omega), by rwa [path_ofPath (by omega)], hlen⟩

private theorem shape_set (hx : x.WF) (b : Nat) : (t.set x b).shape = update t.shape x.path b := by
  funext s
  by_cases hs : s = x.path
  · rw [hs, update_self, shape_path _ hx, splits_set_self]
  · rw [update_of_ne hs]
    exact splits_set_of_ne t b fun h => hs ((ofPath_eq_iff hx s).1 h)

def setAll (cs : List Frag) (b : Nat) : FragTree := cs.foldl (fun u c => u.set c b) t

private theorem splits_setAll (cs : List Frag) (b : Nat) (f : Frag) :
    (t.setAll cs b).splits f = if f ∈ cs then b else t.splits f := by
  induction cs generalizing t with
  | nil => rfl
  | cons c cs ih =>
    rw [setAll, foldl_cons, ← setAll, ih]
    by_cases hcs : f ∈ cs
    · rw [if_pos hcs, if_pos (mem_cons_of_mem _ hcs)]
    · rw [if_neg hcs]
      by_cases hf : f = c
      · rw [hf, splits_set_self, if_pos mem_cons_self]
      · rw [splits_set_of_ne t b hf, if_neg fun hm => (mem_cons.1 hm).elim hf hcs]

variable {t}

private theorem Within.set (ht : t.Within) (hx : x.WF) (hb : x.bits + b ≤ 24) : (t.set x b).Within := by
  intro f hf
  by_cases hfx : f = x
  · rw [hfx, splits_set_self]
    exact ⟨hx, hb⟩
  · rw [splits_set_of_ne t b hfx] at hf ⊢
    exact ht f hf

theorem tidy_empty : empty.Tidy := ⟨fun _ h => absurd rfl h, fun _ h => absurd rfl h⟩

/-! ### Assimilation -/

private theorem commonSplit_spec {a cb : Nat} {cs : List Frag} (h : t.commonSplit a cs = some cb) :
    (∀ c ∈ cs, t.splits c = cb ∧ cb ≠ 0) ∧ (a ≠ 0 → cb = a) := by
  induction cs generalizing a with
  | nil =>
    cases h
    exact ⟨fun c hc => absurd hc not_mem_nil, fun _ => rfl⟩
  | cons c cs ih =>
    rw [commonSplit] at h
    split_ifs at h with hc hne
    obtain ⟨hall, hcb⟩ := ih h
    have hcb := hcb hc
    refine ⟨fun d hd => ?_, fun ha => ?_⟩
    · rcases mem_cons.1 hd with rfl | hd
      · exact ⟨hcb.symm, hcb ▸ hc⟩
      · exact hall d hd
    · rw [hcb]
      by_contra hca
      exact hne ⟨ha, hca⟩

private theorem tryAssimilateChildren_spec (ht : t.Tidy) (x : Frag) :
    t.tryAssimilateChildren x = t ∨ ∃ cb, Assimilates t.shape (t.tryAssimilateChildren x).shape x.path cb ∧
      (t.tryAssimilateChildren x).Within := by
  unfold tryAssimilateChildren
  by_cases hs : t.getSplit x = 0
  · rw [if_pos hs]
    exact .inl rfl
  rw [if_neg hs]
  cases hc : t.commonSplit 0 (x.split (t.getSplit x)) with
  | none => exact .inl rfl
  | some cb =>
    right
    have hall := (commonSplit_spec hc).1
    obtain ⟨hx, hb⟩ : x.WF ∧ x.bits + t.getSplit x ≤ 24 := ht.within x hs
    have hSx : t.shape x.path = t.getSplit x := shape_path t hx
    -- a child, to bound the new split
    obtain ⟨c, hcm⟩ : ∃ c, c ∈ x.split (t.getSplit x) :=
      exists_mem_of_ne_nil _ (ne_nil_of_length_pos (by rw [length_split]; exact Nat.two_pow_pos _))
    have hcb := (hall c hcm).2
    have hcx := (mem_split hx hb).1 hcm
    have hbound : x.bits + (t.getSplit x + cb) ≤ 24 := by
      have := (ht.within c (by rw [(hall c hcm).1]; exact hcb)).2
      rw [(hall c hcm).1, hcx.2.2] at this
      omega
    have hsplits : ∀ f, f ≠ x → (((t.setAll (x.split (t.getSplit x)) 0).set x (t.getSplit x + cb)).splits f =
        if f ∈ x.split (t.getSplit x) then 0 else t.splits f) := by
      intro f hf
      rw [splits_set_of_ne _ _ hf, splits_setAll]
    have hchild : ∀ s, (x.path <+: s ∧ s.length = x.path.length + t.shape x.path) ↔
        ofPath s ∈ x.split (t.getSplit x) := fun s => by rw [ofPath_mem_split hx hb, hSx]
    have hne : ∀ s, x.path <+: s ∧ s.length = x.path.length + t.shape x.path → ofPath s ≠ x := by
      intro s hs' he
      rw [(ofPath_eq_iff hx s).1 he, hSx] at hs'
      omega
    refine ⟨cb, ⟨(ht.isNode hs).node, by rw [hSx]; exact hs, hcb, ?_, ?_, ?_, ?_⟩, ?_⟩
    · intro s hp hl
      exact (hall _ ((hchild s).1 ⟨hp, hl⟩)).1
    · rw [shape_path _ hx, hSx]
      exact splits_set_self _ _ _
    · intro s hp hl
      have := hsplits _ (hne s ⟨hp, hl⟩)
      rwa [if_pos ((hchild s).1 ⟨hp, hl⟩)] at this
    · intro s hsx hnc
      have := hsplits (ofPath s) fun he => hsx ((ofPath_eq_iff hx s).1 he)
      rwa [if_neg fun hm => hnc ((hchild s).2 hm)] at this
    · refine Within.set (fun f hf => ?_) hx hbound
      change (t.setAll _ 0).splits f ≠ 0 at hf
      change f.WF ∧ f.bits + (t.setAll _ 0).splits f ≤ 24
      rw [splits_setAll] at hf ⊢
      split_ifs at hf ⊢ with hm
      · exact absurd rfl hf
      · exact ht.within f hf

private theorem Tidy.tryAssimilateChildren (ht : t.Tidy) (x : Frag) : (t.tryAssimilateChildren x).Tidy := by
  rcases tryAssimilateChildren_spec ht x with h | ⟨cb, h, hw⟩
  · rw [h]
    exact ht
  · refine ⟨hw, h.tidy ht.shape ⟨x.path ++ replicate (t.shape x.path) false, prefix_append _ _, ?_⟩⟩
    rw [length_append, length_replicate]

private theorem IsLeaf.tryAssimilateChildren (hf : t.IsLeaf f) (ht : t.Tidy) (x : Frag) :
    (t.tryAssimilateChildren x).IsLeaf f := by
  rcases tryAssimilateChildren_spec ht x with h | ⟨cb, h, _⟩
  · rw [h]
    exact hf
  · have hl := h.leaf_of hf.toLeaf
    exact ⟨⟨hf.wf, hl.1⟩, (shape_path _ hf.wf).symm.trans hl.2⟩

private theorem Tidy.simplifyAbove (ht : t.Tidy) (hx : x.WF) (simplify : Bool) :
    ∃ t', t.simplifyAbove x simplify = some t' ∧ t'.Tidy ∧ ∀ f, t.IsLeaf f → t'.IsLeaf f := by
  cases simplify with
  | false => exact ⟨t, rfl, ht, fun _ h => h⟩
  | true =>
    obtain ⟨b, hb⟩ := t.getBranchAbove_some hx
    refine ⟨t.tryAssimilateChildren b, ?_, ht.tryAssimilateChildren b, fun f hf => hf.tryAssimilateChildren ht b⟩
    rw [FragTree.simplifyAbove, hb, map_some]

/-! ### Split and merge -/

private theorem Tidy.setLeaf (ht : t.Tidy) (hx : t.IsLeaf x) (hb : x.bits + b ≤ 24) : (t.set x b).Tidy := by
  refine ⟨ht.within.set hx.wf hb, ?_⟩
  rw [shape_set t hx.wf]
  exact ht.shape.splitLeaf hx.toLeaf (by rw [length_path]; exact hb)

private theorem IsLeaf.set_of_ne (hg : t.IsLeaf g) (hx : t.IsLeaf x) (hne : g ≠ x) (b : Nat) :
    (t.set x b).IsLeaf g := by
  refine ⟨⟨hg.wf, ?_⟩, (splits_set_of_ne t b hne).trans hg.unsplit⟩
  rw [shape_set t hx.wf]
  refine hg.node.congr fun u hu hug => update_of_ne (fun hux => hug ?_) _ _
  rw [hux] at hu ⊢
  exact hx.toLeaf.eq_of_below hg.node hu

private theorem IsLeaf.child_set (hx : t.IsLeaf x) (ht : t.Tidy) (hb : x.bits + b ≤ 24) (hb0 : b ≠ 0)
    (hf : f ∈ x.split b) : (t.set x b).IsLeaf f := by
  have hself := splits_set_self t x b
  obtain ⟨_, hxf, hfl⟩ := (mem_split hx.wf hb).1 hf
  have hfx : f ≠ x := by
    rintro rfl
    omega
  refine ⟨IsNode.of_mem_split ((ht.setLeaf hx hb).isNode (by omega)) (by omega) (by omega) (hself.symm ▸ hf), ?_⟩
  rw [splits_set_of_ne t _ hfx]
  by_contra hs
  exact hfx (hx.eq_of_below (ht.isNode hs) hxf).symm

private theorem Tidy.split_spec (ht : t.Tidy) (hx : t.IsLeaf x) (hb : x.bits + b ≤ 24) (simplify : Bool) :
    ∃ t', t.split x b simplify = some t' ∧ t'.Tidy ∧ ∀ f, (t.set x b).IsLeaf f → t'.IsLeaf f := by
  obtain ⟨t', h, htidy⟩ := (ht.setLeaf hx hb).simplifyAbove hx.wf simplify
  refine ⟨t', ?_, htidy⟩
  rw [split, (ht.isLeaf_iff hx.wf).2 hx]
  exact h

private theorem Tidy.merge_spec (ht : t.Tidy) (hs : t.splits x ≠ 0) (hleaf : ∀ c ∈ x.split (t.splits x), t.IsLeaf c)
    (simplify : Bool) : ∃ t', t.merge x (t.splits x) simplify = some t' ∧ t'.Tidy := by
  have hx := ht.isNode hs
  have hb := (ht.within x hs).2
  have hSx := shape_path t hx.wf
  have htidy : (t.set x 0).Tidy := by
    refine ⟨ht.within.set hx.wf (by have := hx.wf.1; omega), ?_⟩
    rw [shape_set t hx.wf]
    refine ht.shape.mergeLeaves hx.node (by rw [hSx]; exact hs) fun c hp hl => ?_
    exact (hleaf _ ((ofPath_mem_split hx.wf hb c).2 ⟨hp, hSx ▸ hl⟩)).unsplit
  obtain ⟨t', h, ht', _⟩ := htidy.simplifyAbove hx.wf simplify
  refine ⟨t', ?_, ht'⟩
  rw [merge, ht.isLeaf_eq_false hx.wf fun hl => hs hl.unsplit]
  exact (if_pos rfl).trans h

/-! ### The intermediary generation -/

private theorem foldlM_split (hp : p.WF) {d k : Nat} (hd : d ≠ 0) (hb : p.bits + d ≤ 24) (cs : List Frag) {u : FragTree}
    (hcs : cs.Nodup) (hmem : ∀ c ∈ cs, c ∈ p.split d) (hself : u.splits p = d) (hfree : ∀ c ∈ cs, u.splits c = 0)
    (hmid : ∀ f : Frag, f.WF → p.path <+: f.path → f ≠ p → f.bits < p.bits + d → u.splits f = 0) :
    cs.foldlM (fun u c => u.split c k false) u = some (u.setAll cs k) := by
  induction cs generalizing u with
  | nil => rfl
  | cons c cs ih =>
    obtain ⟨hcn, hcs⟩ := nodup_cons.1 hcs
    obtain ⟨hcw, hpc, hcl⟩ := (mem_split hp hb).1 (hmem c mem_cons_self)
    have hhang : u.Hangs c := by
      refine .inr ⟨p, hp, hpc, hself ▸ hd, by omega, fun f hf hpf hfc hfp hne => hmid f hf hpf hfp ?_⟩
      refine lt_of_le_of_ne (by simpa [hcl] using hfc.length_le) fun hl => hne ?_
      exact path_injective hf hcw (hfc.eq_of_length (by simpa [hcl] using hl))
    have hleaf := isLeaf_of_hangs hcw (hfree c mem_cons_self) hhang
    have hsplit : u.split c k false = some (u.set c k) := by
      rw [split, hleaf]
      rfl
    have hne : ∀ f, f.bits < c.bits → f ≠ c := by
      rintro f hf rfl
      omega
    rw [foldlM_cons, hsplit]
    refine ih hcs (forall_mem_cons.1 hmem).2 ?_ (fun e he => ?_) fun f hf hpf hfp hfl => ?_
    · rw [splits_set_of_ne u k (hne p (by omega)), hself]
    · have hec : e ≠ c := fun h => hcn (h ▸ he)
      rw [splits_set_of_ne u k hec]
      exact hfree e (mem_cons_of_mem _ he)
    · rw [splits_set_of_ne u k (hne f (by omega))]
      exact hmid f hf hpf hfp hfl

private theorem Hangs.set (h : t.Hangs x) (b : Nat) : (t.set x b).Hangs x := by
  rcases h with h | ⟨u, huw, hux, hus, hlen, hnone⟩
  · exact .inl h
  have hne : u ≠ x := by
    rintro rfl
    omega
  refine .inr ⟨u, huw, hux, ?_, ?_, fun f hf huf hfx hfu hfx' => ?_⟩
  · rwa [splits_set_of_ne t b hne]
  · rwa [splits_set_of_ne t b hne]
  · rw [splits_set_of_ne t b hfx']
    exact hnone f hf huf hfx hfu hfx'

private theorem set_set (t : FragTree) (x : Frag) (a b : Nat) : (t.set x a).set x b = t.set x b := by
  simp [set]

private theorem Tidy.addIntermediary_eq (ht : t.Tidy) (hp : t.IsNode p) {d : Nat} (hd : d ≠ 0) (hlt : d < t.splits p) :
    t.addIntermediary p d = some ((t.set p d).setAll (p.split d) (t.splits p - d)) := by
  have hs : t.splits p ≠ 0 := by omega
  have hb : p.bits + d ≤ 24 := by have := (ht.within p hs).2; omega
  have hmerge : t.merge p (t.getSplit p) false = some (t.set p 0) := by
    rw [merge, ht.within.isLeaf_of_split hp.wf hs]
    exact if_pos rfl
  have hsplit : (t.set p 0).split p d false = some (t.set p d) := by
    rw [split, isLeaf_of_hangs hp.wf (splits_set_self t p 0) ((hp.hangs ht).set 0)]
    exact congrArg some (set_set t p 0 d)
  -- before its children a split has no entries below it
  have hmid : ∀ f, f.WF → p.path <+: f.path → f ≠ p → f.bits < p.bits + t.splits p → t.splits f = 0 := by
    intro f _ hpf hfp hl
    by_contra hsf
    rcases hp.eq_or_below (ht.isNode hsf) hpf with he | ⟨_, hle⟩
    · exact hfp he.symm
    · omega
  have hfold := foldlM_split (k := t.splits p - d) hp.wf hd hb (p.split d) (u := t.set p d)
    (nodup_split hp.wf hb) (fun _ h => h) (splits_set_self t p d) (fun c hc => ?_) fun f hf hpf hfp hl => ?_
  · rw [addIntermediary]
    simp only [hmerge, hsplit, bind_eq_bind, bind_some]
    exact hfold
  · obtain ⟨hcw, hpc, hcl⟩ := (mem_split hp.wf hb).1 hc
    have hcp : c ≠ p := by
      rintro rfl
      omega
    rw [splits_set_of_ne t d hcp]
    exact hmid c hcw hpc hcp (by omega)
  · rw [splits_set_of_ne t d hfp]
    exact hmid f hf hpf hfp (by omega)

private theorem Tidy.addIntermediary_spec (ht : t.Tidy) (hp : t.IsNode p) {d : Nat} (hd : d ≠ 0)
    (hlt : d < t.splits p) : ∃ t', t.addIntermediary p d = some t' ∧ t'.Tidy ∧ (∀ c ∈ p.split d, t'.IsNode c) ∧
      ∀ g, t.IsLeaf g → t'.IsLeaf g := by
  refine ⟨_, ht.addIntermediary_eq hp hd hlt, ?_⟩
  have hbS := (ht.within p (by omega)).2
  have hb : p.bits + d ≤ 24 := by omega
  have hSp := shape_path t hp.wf
  set t' := (t.set p d).setAll (p.split d) (t.splits p - d) with ht'
  have hpm : p ∉ p.split d := fun hm => by
    have := ((mem_split hp.wf hb).1 hm).2.2
    omega
  have hself : t'.splits p = d := by rw [ht', splits_setAll, if_neg hpm, splits_set_self]
  have hmid : ∀ c ∈ p.split d, t'.splits c = t.splits p - d := fun c hc => by rw [ht', splits_setAll, if_pos hc]
  have hother : ∀ f, f ≠ p → f ∉ p.split d → t'.splits f = t.splits f := fun f hf hm => by
    rw [ht', splits_setAll, if_neg hm, splits_set_of_ne t d hf]
  have hint : Interposes t.shape t'.shape p.path d := by
    refine ⟨hp.node, hd, by rw [hSp]; exact hlt, by rw [shape_path _ hp.wf, hself], fun c hpc hl => ?_,
      fun s hs hnc => ?_⟩
    · rw [hSp]
      exact hmid _ ((ofPath_mem_split hp.wf hb c).2 ⟨hpc, hl⟩)
    · exact hother _ (fun he => hs ((ofPath_eq_iff hp.wf s).1 he)) fun hm => hnc ((ofPath_mem_split hp.wf hb s).1 hm)
  refine ⟨⟨fun f hf => ?_, hint.tidy ht.shape⟩, fun c hc => ?_, fun g hg => ⟨⟨hg.wf, hint.node_of hg.node⟩, ?_⟩⟩
  · by_cases hfp : f = p
    · rw [hfp, hself]
      exact ⟨hp.wf, hb⟩
    by_cases hm : f ∈ p.split d
    · obtain ⟨hfw, _, hfl⟩ := (mem_split hp.wf hb).1 hm
      rw [hmid f hm, hfl]
      exact ⟨hfw, by omega⟩
    · rw [hother f hfp hm] at hf ⊢
      exact ht.within f hf
  · obtain ⟨hcw, hpc, hcl⟩ := (mem_split hp.wf hb).1 hc
    exact ⟨hcw, hint.node_mid hpc (by rw [length_path, length_path, hcl])⟩
  · have hgp : g ≠ p := by
      rintro rfl
      have := hg.unsplit
      omega
    -- the new generation lies between `p` and its children, where no node was
    rw [hother g hgp fun hm => ?_, hg.unsplit]
    obtain ⟨_, hpg, hgl⟩ := (mem_split hp.wf hb).1 hm
    rcases hp.eq_or_below hg.toIsNode hpg with he | ⟨_, hle⟩
    · exact hgp he.symm
    · omega

/-! ### Forcing a fragment to be a leaf -/

/-- The tree after `x` was forced to be a leaf: the leaves apart from `x` are kept, and a leaf that `x` lies in is cut to
the width of `x`. -/
structure Forced (t : FragTree) (x : Frag) (t' : FragTree) : Prop where
  tidy : t'.Tidy
  leaf : t'.IsLeaf x
  apart : ∀ g, t.IsLeaf g → Apart g.path x.path → t'.IsLeaf g
  cut : ∀ g, t.IsLeaf g → g.path <+: x.path → ∀ c ∈ g.split (x.bits - g.bits), t'.IsLeaf c

private theorem Forced.of_node {t' : FragTree} (hx : t.IsNode x) (ht : t'.Tidy) (hl : t'.IsLeaf x)
    (hapart : ∀ g, t.IsLeaf g → Apart g.path x.path → t'.IsLeaf g) : Forced t x t' := by
  refine ⟨ht, hl, hapart, fun g hg hgx c hc => ?_⟩
  rw [hg.eq_of_below hx hgx, Nat.sub_self] at hc
  obtain ⟨hcw, hxc, hcl⟩ := (mem_split hx.wf hx.wf.1).1 hc
  rw [← path_injective hx.wf hcw (hxc.eq_of_length (by simp [hcl]))]
  exact hl

private theorem Forced.of_leaves {t1 t' : FragTree} (h : Forced t1 x t') (hkeep : ∀ g, t.IsLeaf g → t1.IsLeaf g) :
    Forced t x t' :=
  ⟨h.tidy, h.leaf, fun g hg => h.apart g (hkeep g hg), fun g hg => h.cut g (hkeep g hg)⟩

private theorem Forced.mem_cut_iff {t' : FragTree} (h : Forced t x t') (hg : t.IsLeaf g) (hgx : g.path <+: x.path)
    (c : Frag) : c ∈ g.split (x.bits - g.bits) ↔ t'.IsLeaf c ∧ g.path <+: c.path := by
  have hle : g.bits ≤ x.bits := by simpa using hgx.length_le
  have hb : g.bits + (x.bits - g.bits) ≤ 24 := by have := h.leaf.wf.1; omega
  constructor
  · intro hc
    exact ⟨h.cut g hg hgx c hc, ((mem_split hg.wf hb).1 hc).2.1⟩
  rintro ⟨hc, hgc⟩
  -- a fragment of the width of `x` lies above `c` or below it, and both are leaves
  rcases le_total x.bits c.bits with hxc | hcx
  · obtain ⟨d, hd, hdc⟩ := exists_child hg.wf hb hc.wf hgc (by omega)
    rw [← (h.cut g hg hgx d hd).eq_of_below hc.toIsNode hdc]
    exact hd
  have hlen : (c.path ++ replicate (x.bits - c.bits) false).length = x.bits := by simp; omega
  have hpre := prefix_append c.path (replicate (x.bits - c.bits) false)
  have hd := (ofPath_mem_split hg.wf hb _).2 ⟨hgc.trans hpre, by rw [hlen, length_path]; omega⟩
  have hpath := path_ofPath (by rw [hlen]; exact h.leaf.wf.1)
  rw [hc.eq_of_below (h.cut g hg hgx _ hd).toIsNode (by rw [hpath]; exact hpre)]
  exact hd

/-! ### Merging everything below a fragment -/

/-- The loop that merges everything below `x`: what is left below `x` lies below the queue, and nothing else changes. -/
structure Hoovering (t₀ : FragTree) (x : Frag) (q : List Frag) (t : FragTree) : Prop where
  separate : Separate q
  nodes : ∀ f ∈ q, t₀.IsNode f ∧ x.path <+: f.path
  below : ∀ f ∈ q, ∀ g : Frag, g.WF → f.path <+: g.path → t.splits g = t₀.splits g
  out : ∀ g : Frag, ¬ (g.WF ∧ x.path <+: g.path) → t.splits g = t₀.splits g
  sub : ∀ g, t.splits g ≠ 0 → t.splits g = t₀.splits g
  rest : ∀ g : Frag, g.WF → x.path <+: g.path → t.splits g ≠ 0 → ∃ f ∈ q, f.path <+: g.path

namespace Hoovering
variable {t₀ : FragTree} {q : List Frag}

private theorem within (h : Hoovering t₀ x q t) (ht : t₀.Within) : t.Within := by
  intro g hg
  have hsub := h.sub g hg
  rw [hsub] at hg ⊢
  exact ht g hg

private theorem drop (h : Hoovering t₀ x (f :: q) t) (ht : t₀.Tidy) (hs : t.splits f = 0) : Hoovering t₀ x q t := by
  have hf := (h.nodes f mem_cons_self).1
  have hs0 : t₀.splits f = 0 := by rw [← h.below f mem_cons_self f hf.wf (prefix_refl _), hs]
  refine ⟨h.separate.tail, (forall_mem_cons.1 h.nodes).2,
    (forall_mem_cons.1 h.below).2, h.out, h.sub, fun g hg hxg hsg => ?_⟩
  obtain ⟨e, he, hp⟩ := h.rest g hg hxg hsg
  rcases mem_cons.1 he with rfl | he
  · have hsg0 : t₀.splits g ≠ 0 := by rwa [← h.sub g hsg]
    rw [IsLeaf.eq_of_below ⟨hf, hs0⟩ (ht.isNode hsg0) hp] at hs
    exact absurd hs hsg
  · exact ⟨e, he, hp⟩

private theorem merge (h : Hoovering t₀ x (f :: q) t) (ht : t₀.Tidy) (hs : t.splits f ≠ 0) :
    Hoovering t₀ x (q ++ f.split (t.splits f)) (t.set f 0) := by
  obtain ⟨hf, hxf⟩ := h.nodes f mem_cons_self
  have hsf := h.sub f hs
  have hb := (h.within ht.within f hs).2
  obtain ⟨hapart, _⟩ := pairwise_cons.1 h.separate
  have hset : ∀ g, g ≠ f → (t.set f 0).splits g = t.splits g := fun g hg => splits_set_of_ne t 0 hg
  refine ⟨Separate.replace h.separate hf.wf hb, fun e he => ?_, fun e he g hg heg => ?_, fun g hg => ?_,
    fun g hg => ?_, fun g hg hxg hsg => ?_⟩
  · rcases mem_append.1 he with he | he
    · exact h.nodes e (mem_cons_of_mem _ he)
    · have hfe := ((mem_split hf.wf hb).1 he).2.1
      rw [hsf] at hb he
      exact ⟨hf.of_mem_split (hsf ▸ hs) hb he, hxf.trans hfe⟩
  · rcases mem_append.1 he with heq | he
    · -- another element of the queue is apart from `f`
      rw [hset g]
      · exact h.below e (mem_cons_of_mem _ heq) g hg heg
      · rintro rfl
        exact (hapart e heq).2 heg
    obtain ⟨_, hfe, hel⟩ := (mem_split hf.wf hb).1 he
    rw [hset g]
    · exact h.below f mem_cons_self g hg (hfe.trans heg)
    · rintro rfl
      have := heg.length_le
      rw [length_path, length_path] at this
      omega
  · rw [hset g]
    · exact h.out g hg
    · rintro rfl
      exact hg ⟨hf.wf, hxf⟩
  · have hgf : g ≠ f := by
      rintro rfl
      exact hg (splits_set_self t g 0)
    rw [hset g hgf] at hg ⊢
    exact h.sub g hg
  · have hgf : g ≠ f := by
      rintro rfl
      exact hsg (splits_set_self t g 0)
    rw [hset g hgf] at hsg
    obtain ⟨e, he, hp⟩ := h.rest g hg hxg hsg
    rcases mem_cons.1 he with rfl | he
    · have hsg0 : t₀.splits g ≠ 0 := by rwa [← h.sub g hsg]
      rcases hf.eq_or_below (ht.isNode hsg0) hp with he | ⟨_, hle⟩
      · exact absurd he.symm hgf
      · obtain ⟨c, hc, hcg⟩ := exists_child hf.wf hb hg hp (by rw [hsf]; exact hle)
        exact ⟨c, mem_append_right _ hc, hcg⟩
    · exact ⟨e, mem_append_left _ he, hp⟩

private theorem done (h : Hoovering t₀ x [] t) (ht : t₀.Tidy) (hx : t₀.IsNode x) : Forced t₀ x t := by
  have hzero : ∀ g, g.WF → x.path <+: g.path → t.splits g = 0 := by
    intro g hg hxg
    by_contra hsg
    obtain ⟨e, he, _⟩ := h.rest g hg hxg hsg
    exact absurd he not_mem_nil
  have hin : ∀ s, x.path <+: s → t.shape s = 0 := by
    intro s hs
    by_cases hlen : s.length ≤ 24
    · exact hzero _ (wf_ofPath hlen) (by rwa [path_ofPath hlen])
    · by_contra hne
      have := (h.within ht.within _ hne).1.1
      rw [bits_ofPath] at this
      omega
  have hout : ∀ s, ¬ x.path <+: s → t.shape s = t₀.shape s := by
    intro s hs
    refine h.out _ fun ⟨hw, hp⟩ => hs ?_
    have hlen := hw.1
    rw [bits_ofPath] at hlen
    rwa [path_ofPath hlen] at hp
  refine .of_node hx ⟨h.within ht.within, ht.shape.prune hin hout⟩
    ⟨⟨hx.wf, hx.node.congr fun u hu hne => hout u fun hxu => hne ?_⟩, hzero x hx.wf (prefix_refl _)⟩
    fun g hg hgx => ⟨⟨hg.wf, hg.node.congr fun u hu _ => hout u fun hxu => hgx.2 (hxu.trans hu)⟩, ?_⟩
  · exact hu.eq_of_length (le_antisymm hu.length_le hxu.length_le)
  · rw [h.out g fun hxg => hgx.2 hxg.2, hg.unsplit]

end Hoovering

private theorem Tidy.hoover_spec (ht : t.Tidy) (hx : t.IsNode x) : ∃ t', t.hoover x = some t' ∧ Forced t x t' := by
  have hstart : Hoovering t x [x] t := by
    refine ⟨Separate.singleton x, fun f hf => ?_, fun _ _ _ _ _ => rfl, fun _ _ => rfl, fun _ _ => rfl,
      fun g _ hxg _ => ⟨x, mem_singleton_self x, hxg⟩⟩
    rw [mem_singleton.1 hf]
    exact ⟨hx, prefix_refl _⟩
  have hvisit : ∀ f q u, Hoovering t x (f :: q) u →
      Keeps fifo weight (Hoovering t x) (fun _ => False) f q (hooverVisit f u) := by
    intro f q u h
    have hf := (h.nodes f mem_cons_self).1
    unfold hooverVisit
    by_cases hs : u.getSplit f = 0
    · rw [if_neg (not_not.2 hs)]
      refine ⟨weight_pos hf.wf, ?_⟩
      rw [fifo, append_nil]
      exact h.drop ht hs
    have hw := h.within ht.within
    have hmerge : u.merge f (u.getSplit f) false = some (u.set f 0) := by
      rw [merge, hw.isLeaf_of_split hf.wf hs]
      exact if_pos rfl
    rw [if_pos hs, hmerge]
    exact ⟨sum_weight_split (hw f hs).2 hs, h.merge ht hs⟩
  obtain ⟨t', hd, hdone⟩ := drain_ok fifo_perm hvisit hstart (weight_lt_rounds x)
  have hforced := hdone.done ht hx
  refine ⟨t', ?_, hforced⟩
  have hl := (hforced.tidy.isLeaf_iff hx.wf).2 hforced.leaf
  simp [hoover, hd, Except.toOption, hl]

theorem Tidy.forceToLeaf_spec (ht : t.Tidy) (hx : x.WF) :
    ∃ changed t', t.forceToLeaf x = some (changed, t') ∧ Forced t x t' := by
  unfold forceToLeaf
  by_cases hl : t.IsLeaf x
  · rw [(ht.isLeaf_iff hx).2 hl]
    exact ⟨false, t, rfl, .of_node hl.toIsNode ht hl fun _ hg _ => hg⟩
  rw [ht.isLeaf_eq_false hx hl]
  obtain ⟨p, hp, hpn, hpx, hcase⟩ := ht.getBranchOrLeaf_spec hx
  have hle : p.bits ≤ x.bits := by simpa using hpx.length_le
  simp only [bind_eq_bind, bind_some, hp, if_neg (not_lt.2 hle)]
  by_cases hlt : p.bits < x.bits
  · have hbx : p.bits + (x.bits - p.bits) = x.bits := by omega
    have hb : p.bits + (x.bits - p.bits) ≤ 24 := by rw [hbx]; exact hx.1
    have hxm := (mem_split hpn.wf hb).2 ⟨hx, hpx, hbx.symm⟩
    rw [if_pos hlt]
    by_cases h0 : t.getSplit p = 0
    · -- below a leaf: its children are new leaves, and `x` is one of them
      have hpl : t.IsLeaf p := ⟨hpn, h0⟩
      have hcut : ∀ c ∈ p.split (x.bits - p.bits), (t.set p (x.bits - p.bits)).IsLeaf c :=
        fun c hc => hpl.child_set ht hb (by omega) hc
      obtain ⟨t', h, ht', hkeep⟩ := ht.split_spec hpl hb true
      have hxl := hkeep x (hcut x hxm)
      rw [if_pos h0, h, bind_some, (ht'.isLeaf_iff hx).2 hxl, bind_some, if_pos rfl]
      refine ⟨true, t', rfl, ht', hxl, fun g hg hgx => hkeep g (hg.set_of_ne hpl ?_ _), fun g hg hgx c hc => ?_⟩
      · rintro rfl
        exact hgx.1 hpx
      · rw [path_injective hg.wf hpl.wf (hg.toLeaf.eq_of_common hpl.toLeaf hgx hpx)] at hc
        exact hkeep c (hcut c hc)
    · have hgap : x.bits - p.bits < t.splits p := by
        rcases hcase with rfl | h | h
        · omega
        · exact absurd h h0
        · omega
      obtain ⟨t1, h1, ht1, hnodes, hkeep⟩ := ht.addIntermediary_spec hpn (d := x.bits - p.bits) (by omega) hgap
      obtain ⟨t2, h2, hforced⟩ := ht1.hoover_spec (hnodes x hxm)
      rw [if_neg h0, if_neg (not_le.2 (show x.bits - p.bits < t.getSplit p from hgap)), h1, bind_some, h2,
        bind_some]
      exact ⟨true, t2, rfl, hforced.of_leaves hkeep⟩
  · have hpe : p = x := path_injective hpn.wf hx (hpx.eq_of_length (by simp; omega))
    rw [hpe] at hpn
    obtain ⟨t2, h2, hforced⟩ := ht.hoover_spec hpn
    rw [if_neg hlt, h2, bind_some]
    exact ⟨true, t2, rfl, hforced⟩

/-! ### Runs of modifiers -/

private theorem Tidy.apply (ht : t.Tidy) {op : FragOp} (hop : t.Allowed op) : ∃ t', t.apply op = some t' ∧ t'.Tidy := by
  cases op with
  | split x b simplify =>
    obtain ⟨hx, hl, hb⟩ := hop
    obtain ⟨t', h, ht', _⟩ := ht.split_spec ((ht.isLeaf_iff hx).1 hl) hb simplify
    exact ⟨t', h, ht'⟩
  | merge x b simplify =>
    obtain ⟨hx, rfl, hs, hl⟩ := hop
    have hb := (ht.within x hs).2
    exact ht.merge_spec hs (fun c hc => (ht.isLeaf_iff ((mem_split hx hb).1 hc).1).1 (hl c hc)) simplify
  | forceToLeaf x =>
    obtain ⟨changed, t', h, hforced⟩ := ht.forceToLeaf_spec hop
    exact ⟨t', by rw [FragTree.apply, h]; rfl, hforced.tidy⟩

theorem Tidy.exec (ht : t.Tidy) {ops : List FragOp} (hops : AllSteps FragTree.apply Allowed t ops) :
    ∃ t', Exec.exec FragTree.apply t ops = some t' ∧ t'.Tidy :=
  exec_total (fun _ _ hu hop => Tidy.apply hu hop) ht hops

theorem IsLeaf.eq_of_containsValue {v : Nat} (hf : t.IsLeaf f) (hg : t.IsLeaf g) (hfv : f.containsValue v = true)
    (hgv : g.containsValue v = true) : f = g := by
  rw [containsValue_iff hf.wf] at hfv
  rw [containsValue_iff hg.wf] at hgv
  exact path_injective hf.wf hg.wf (hf.toLeaf.eq_of_common hg.toLeaf hfv hgv)

theorem leaves_partition (ops : List FragOp) (hops : AllSteps FragTree.apply Allowed empty ops) :
    ∃ t ls, Exec.exec FragTree.apply empty ops = some t ∧ t.getLeaves = some ls ∧
      (∀ f ∈ ls, f.WF) ∧
      ls.Pairwise (fun f g => ∀ v, ¬ (f.containsValue v = true ∧ g.containsValue v = true)) ∧
      (∀ v, ∃! f, f ∈ ls ∧ f.containsValue v = true) ∧
      (∀ v, ∃ f ∈ ls, t.lookup v = some f ∧ f.containsValue v = true) ∧
      (∀ x : Frag, x.WF → t.isLeaf x = some (decide (x ∈ ls)) ∧ t.contains x = some (decide (x ∈ ls))) ∧
      ∀ x : Frag, x.WF → ∃ under, t.getLeavesUnder x = some under ∧ under.Nodup ∧
        ∀ f, f ∈ under ↔ f ∈ ls ∧ x.contains f = true := by
  obtain ⟨t, ht, htidy⟩ := tidy_empty.exec hops
  obtain ⟨ls, hls, hsep, hmem⟩ := htidy.getLeaves_spec
  refine ⟨t, ls, ht, hls, fun f hf => ((hmem f).1 hf).wf, ?_, fun v => ?_, fun v => ?_, fun x hx => ⟨?_, ?_⟩,
    fun x hx => ?_⟩
  · refine hsep.imp_of_mem fun {f g} hf hg hfg v hv => ?_
    rw [((hmem f).1 hf).eq_of_containsValue ((hmem g).1 hg) hv.1 hv.2] at hfg
    exact hfg.1 (prefix_refl _)
  · obtain ⟨f, _, hf, hv⟩ := htidy.lookup_spec v
    refine ⟨f, ⟨(hmem f).2 hf, hv⟩, fun g hg => ?_⟩
    exact ((hmem g).1 hg.1).eq_of_containsValue hf hg.2 hv
  · obtain ⟨f, hl, hf, hv⟩ := htidy.lookup_spec v
    exact ⟨f, (hmem f).2 hf, hl, hv⟩
  · obtain ⟨b, hb, hiff⟩ := htidy.isLeaf_spec hx
    rw [hb, some.injEq, Bool.eq_iff_iff, hiff, decide_eq_true_iff, hmem]
  · obtain ⟨b, hb, hiff⟩ := htidy.contains_spec hx
    rw [hb, some.injEq, Bool.eq_iff_iff, hiff, decide_eq_true_iff, hmem]
  · obtain ⟨us, hus, husep, humem⟩ := htidy.getLeavesUnder_spec hx
    refine ⟨us, hus, husep.imp fun {f g} h he => h.1 (by rw [he]), fun f => ?_⟩
    rw [humem, hmem, contains_iff hx]

/-- Two splits, a fragment forced between the root and its children, one forced below a leaf, and a merge. -/
def sampleOps : List FragOp :=
  [.split .root 2 true, .split (.make 2 0) 1 true, .forceToLeaf (.make 1 0x800000), .forceToLeaf (.make 4 0x400000),
    .merge (.make 2 0) 1 true]

theorem leaves_partition_sampleOps :
    AllSteps FragTree.apply Allowed empty sampleOps ∧ ∃ t ls, Exec.exec FragTree.apply empty sampleOps = some t ∧
      t.getLeaves = some ls ∧ ∀ v, ∃! f, f ∈ ls ∧ f.containsValue v = true := by
  have hops : AllSteps FragTree.apply Allowed empty sampleOps := by decide +kernel
  obtain ⟨t, ls, ht, hls, _, _, huniq, _⟩ := leaves_partition sampleOps hops
  exact ⟨hops, t, ls, ht, hls, huniq⟩

theorem forceToLeaf_exact (ops : List FragOp) (hops : AllSteps FragTree.apply Allowed empty ops) (x : Frag) (hx : x.WF) :
    ∃ t ls changed t' ls', Exec.exec FragTree.apply empty ops = some t ∧ t.getLeaves = some ls ∧
      t.forceToLeaf x = some (changed, t') ∧ t'.getLeaves = some ls' ∧ x ∈ ls' ∧
      (∀ g ∈ ls, g.contains x = false → x.contains g = false → g ∈ ls') ∧
      (∀ g ∈ ls, g.contains x = true → ∀ c, c ∈ g.split (x.bits - g.bits) ↔ c ∈ ls' ∧ g.contains c = true) ∧
      t'.forceToLeaf x = some (false, t') := by
  obtain ⟨t, ht, htidy⟩ := tidy_empty.exec hops
  obtain ⟨ls, hls, _, hmem⟩ := htidy.getLeaves_spec
  obtain ⟨changed, t', h, hforced⟩ := htidy.forceToLeaf_spec hx
  obtain ⟨ls', hls', _, hmem'⟩ := hforced.tidy.getLeaves_spec
  refine ⟨t, ls, changed, t', ls', ht, hls, h, hls', (hmem' x).2 hforced.leaf, fun g hg hgx hxg => ?_,
    fun g hg hgx c => ?_, ?_⟩
  · have hl := (hmem g).1 hg
    rw [← Bool.not_eq_true, contains_iff hl.wf] at hgx
    rw [← Bool.not_eq_true, contains_iff hx] at hxg
    exact (hmem' g).2 (hforced.apart g hl ⟨hgx, hxg⟩)
  · have hl := (hmem g).1 hg
    rw [contains_iff hl.wf] at hgx ⊢
    rw [hmem', hforced.mem_cut_iff hl hgx]
  · unfold forceToLeaf
    rw [(hforced.tidy.isLeaf_iff hx).2 hforced.leaf]
    rfl

theorem forceToLeaf_exact_sampleOps : AllSteps FragTree.apply Allowed empty sampleOps ∧ (make 1 0).WF ∧
      ∃ t ls changed t' ls', Exec.exec FragTree.apply empty sampleOps = some t ∧ t.getLeaves = some ls ∧
        t.forceToLeaf (.make 1 0) = some (changed, t') ∧ t'.getLeaves = some ls' ∧ .make 1 0 ∈ ls' ∧
        t'.forceToLeaf (.make 1 0) = some (false, t') := by
  have hops : AllSteps FragTree.apply Allowed empty sampleOps := by decide +kernel
  have hx : (make 1 0).WF := wf_make (by decide) 0
  obtain ⟨t, ls, changed, t', ls', ht, hls, h, hls', hmem, _, _, hagain⟩ := forceToLeaf_exact sampleOps hops _ hx
  exact ⟨hops, hx, t, ls, changed, t', ls', ht, hls, h, hls', hmem, hagain⟩

end Lunule.FragTree
