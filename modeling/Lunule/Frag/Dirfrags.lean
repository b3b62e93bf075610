import Lunule.Frag.Partition

/-!
# The open dirfrags under a fragment

`CInode::get_dirfrags_under` first looks up the leaves of the recorded tree. If one of them is not open it falls back to a
tree made of the open dirfrags; but the leaves of that tree are appended to the list of the first search, in which a
fragment is missing already, so the fallback never answers true. And under a fragment that lies inside a leaf the first
search finds nothing, and nothing is missing. Apart from these two cases the answer is exact.
-/

namespace Lunule.Dirfrags
open PrefixTree Exec FragTree List Option

/-- A round of the fallback: the open dirfrag is forced into the temporary tree, and listed if it is under `fg` and was not
listed as a leaf before. -/
def visitOpen (dirfragtree : FragTree) (fg : Frag) : FragTree × List Frag → Frag → Option (FragTree × List Frag)
  | (tmpdft, ls), p => do
    let (_, tmpdft) ← tmpdft.forceToLeaf p
    if fg.contains p then
      let leaf ← dirfragtree.isLeaf p
      some (tmpdft, if leaf then ls else ls ++ [p])
    else some (tmpdft, ls)

/-- `CInode::get_dirfrags_under`: the answer and the list `ls` afterwards, where a `CDir` is given by its fragment. -/
def getDirfragsUnder (dirfragtree : FragTree) (dirfrags : List Frag) (fg : Frag) (ls : List Frag) :
    Option (Bool × List Frag) := do
  let fglist ← dirfragtree.getLeavesUnder fg
  let ls := ls ++ fglist.filter fun p => decide (p ∈ dirfrags)
  if ∀ p ∈ fglist, p ∈ dirfrags then some (true, ls)
  else
    let (_, tmpdft) ← empty.forceToLeaf fg
    let (tmpdft, ls) ← dirfrags.foldlM (visitOpen dirfragtree fg) (tmpdft, ls)
    let under ← tmpdft.getLeavesUnder fg
    some (decide (∀ p ∈ fglist ++ under, p ∈ dirfrags), ls)

def Disjoint (f g : Frag) : Prop := ∀ v, ¬ (f.containsValue v = true ∧ g.containsValue v = true)

/-- The open dirfrags in `fg` cover it. -/
def Covers (dirfrags : List Frag) (fg : Frag) : Prop :=
  ∀ v, fg.containsValue v = true → ∃ f ∈ dirfrags, fg.contains f = true ∧ f.containsValue v = true

variable {t : FragTree} {dirfrags : List Frag} {f g fg : Frag} {v : Nat}

private theorem containsValue_value (hf : f.WF) : f.containsValue f.value = true := by
  rw [Frag.containsValue_iff hf, Frag.path, ← Frag.valuePath_take hf.1]
  exact take_prefix _ _

private theorem containsValue_of_contains (hf : f.WF) (hg : g.WF) (h : f.contains g = true)
    (hv : g.containsValue v = true) : f.containsValue v = true := by
  rw [Frag.contains_iff hf] at h
  rw [Frag.containsValue_iff hg] at hv
  exact (Frag.containsValue_iff hf v).2 (h.trans hv)

private theorem eq_of_common (hdis : dirfrags.Pairwise Disjoint) (hf : f ∈ dirfrags) (hg : g ∈ dirfrags)
    (hfv : f.containsValue v = true) (hgv : g.containsValue v = true) : f = g := by
  have : Std.Symm Disjoint := ⟨fun _ _ h w hw => h w hw.symm⟩
  by_contra hne
  exact hdis.forall hf hg hne v ⟨hfv, hgv⟩

private theorem nodup_of_disjoint (hwf : ∀ f ∈ dirfrags, f.WF) (hdis : dirfrags.Pairwise Disjoint) :
    dirfrags.Nodup := by
  refine hdis.imp_of_mem fun {f g} hf _ h he => ?_
  subst he
  exact h f.value ⟨containsValue_value (hwf f hf), containsValue_value (hwf f hf)⟩

private theorem contains_leaf (hfg : fg.WF) (hinside : ∀ l, t.IsLeaf l → l.contains fg = true → l = fg)
    (hg : t.IsLeaf g) (hgv : g.containsValue v = true) (hfv : fg.containsValue v = true) : fg.contains g = true := by
  rw [Frag.containsValue_iff hg.wf] at hgv
  rw [Frag.containsValue_iff hfg] at hfv
  rw [Frag.contains_iff hfg]
  rcases List.prefix_or_prefix_of_prefix hgv hfv with h | h
  · rw [hinside g hg ((Frag.contains_iff hg.wf).2 h)]
  · exact h

private theorem foldlM_visitOpen (ht : t.Tidy) (fg : Frag) (hwf : ∀ f ∈ dirfrags, f.WF) {u : FragTree} (hu : u.Tidy)
    (ls : List Frag) : ∃ u', u'.Tidy ∧ dirfrags.foldlM (visitOpen t fg) (u, ls) =
      some (u', ls ++ dirfrags.filter fun p => fg.contains p && t.isLeaf p == some false) := by
  induction dirfrags generalizing u ls with
  | nil => exact ⟨u, hu, by simp⟩
  | cons p ps ih =>
    have hp := hwf p mem_cons_self
    obtain ⟨changed, u1, h1, hforced⟩ := hu.forceToLeaf_spec hp
    obtain ⟨b, hb, _⟩ := ht.isLeaf_spec hp
    obtain ⟨u', hu', hrest⟩ := ih (forall_mem_cons.1 hwf).2 hforced.tidy
      (ls ++ [p].filter fun p => fg.contains p && t.isLeaf p == some false)
    refine ⟨u', hu', ?_⟩
    rw [foldlM_cons, ← singleton_append, filter_append, ← append_assoc, ← hrest]
    cases hc : fg.contains p <;> cases b <;> simp [visitOpen, h1, hb, hc]

/-- Where the leaves under `fg` are all open they are the answer, and elsewhere the answer is false, with all that is open. -/
theorem getDirfragsUnder_cases (ht : t.Tidy) (hwf : ∀ f ∈ dirfrags, f.WF) (hdis : dirfrags.Pairwise Disjoint)
    (hfg : fg.WF) (ls : List Frag) :
    ∃ fglist : List Frag, fglist.Nodup ∧ (∀ p, p ∈ fglist ↔ t.IsLeaf p ∧ fg.contains p = true) ∧
      if ∀ p ∈ fglist, p ∈ dirfrags then getDirfragsUnder t dirfrags fg ls = some (true, ls ++ fglist)
      else ∃ found, getDirfragsUnder t dirfrags fg ls = some (false, ls ++ found) ∧ found.Nodup ∧
        ∀ f, f ∈ found ↔ f ∈ dirfrags ∧ fg.contains f = true := by
  obtain ⟨fglist, hunder, hsep, hmem⟩ := ht.getLeavesUnder_spec hfg
  simp only [← Frag.contains_iff hfg] at hmem
  have hnodup : fglist.Nodup := hsep.imp fun {f g} h he => h.1 (by rw [he])
  refine ⟨fglist, hnodup, hmem, ?_⟩
  unfold getDirfragsUnder
  rw [hunder, bind_eq_bind, bind_some]
  split_ifs with hall
  · rw [filter_eq_self.2 fun p hp => decide_eq_true (hall p hp)]
  obtain ⟨_, tmp, htmp, hforced⟩ := tidy_empty.forceToLeaf_spec hfg
  obtain ⟨tmp', htmp', hfold⟩ := foldlM_visitOpen ht fg hwf hforced.tidy
    (ls ++ fglist.filter fun p => decide (p ∈ dirfrags))
  obtain ⟨under, hunder', _⟩ := htmp'.getLeavesUnder_spec hfg
  have hmissing : ¬ ∀ p ∈ fglist ++ under, p ∈ dirfrags := fun h => hall fun p hp => h p (mem_append_left _ hp)
  simp only [htmp, hfold, hunder', bind_eq_bind, bind_some, decide_eq_false hmissing]
  refine ⟨_, by rw [append_assoc], ?_, fun f => ?_⟩
  · refine List.Nodup.append (hnodup.filter _) ((nodup_of_disjoint hwf hdis).filter _) fun f hf hf' => ?_
    have hl := ((hmem f).1 (mem_filter.1 hf).1).1
    simp [(ht.isLeaf_iff hl.wf).2 hl] at hf'
  · rw [mem_append, mem_filter, mem_filter, hmem, decide_eq_true_iff, Bool.and_eq_true, beq_iff_eq]
    constructor
    · rintro (⟨⟨_, hc⟩, hf⟩ | ⟨hf, hc, _⟩)
      · exact ⟨hf, hc⟩
      · exact ⟨hf, hc⟩
    · rintro ⟨hf, hc⟩
      by_cases hl : t.IsLeaf f
      · exact .inl ⟨⟨hl, hc⟩, hf⟩
      · exact .inr ⟨hf, hc, ht.isLeaf_eq_false (hwf f hf) hl⟩

private theorem no_leaf_inside (hfg : fg.WF) {l : Frag} (hl : t.IsLeaf l) (hc : l.contains fg = true) (hne : l ≠ fg) :
    ¬(t.IsLeaf g ∧ fg.contains g = true) := by
  rintro ⟨hg, hgc⟩
  rw [Frag.contains_iff hl.wf] at hc
  rw [Frag.contains_iff hfg] at hgc
  obtain rfl := hl.eq_of_below hg.toIsNode (hc.trans hgc)
  exact hne (Frag.path_injective hl.wf hfg (hc.eq_of_length_le hgc.length_le))

private theorem exists_leaf_under (ht : t.Tidy) (hfg : fg.WF)
    (hinside : ∀ l, t.IsLeaf l → l.contains fg = true → l = fg) (hv : fg.containsValue v = true) :
    ∃ g, (t.IsLeaf g ∧ fg.contains g = true) ∧ g.containsValue v = true := by
  obtain ⟨g, _, hg, hgv⟩ := ht.lookup_spec v
  exact ⟨g, ⟨hg, contains_leaf hfg hinside hg hgv hv⟩, hgv⟩

private theorem Covers.mem_of_isLeaf (hcov : Covers dirfrags fg) (hfg : fg.WF)
    (hleaves : ∀ f ∈ dirfrags, fg.contains f = true → t.IsLeaf f) (hg : t.IsLeaf g) (hgc : fg.contains g = true) :
    g ∈ dirfrags := by
  have hv := containsValue_value hg.wf
  obtain ⟨f, hf, hc, hfv⟩ := hcov g.value (containsValue_of_contains hfg hg.wf hgc hv)
  rw [← (hleaves f hf hc).eq_of_containsValue hg hfv hv]
  exact hf

/-- The call is exact just if `fg` does not lie inside a leaf and the open dirfrags, where they cover `fg`, are leaves. -/
theorem getDirfragsUnder_exact (ops : List FragOp) (hops : AllSteps apply Allowed empty ops)
    (hrun : exec apply empty ops = some t) (hwf : ∀ f ∈ dirfrags, f.WF) (hdis : dirfrags.Pairwise Disjoint)
    (hfg : fg.WF) (ls : List Frag) :
    (∃ all found, getDirfragsUnder t dirfrags fg ls = some (all, ls ++ found) ∧ found.Nodup ∧
      (∀ f, f ∈ found ↔ f ∈ dirfrags ∧ fg.contains f = true) ∧ (all = true ↔ Covers dirfrags fg)) ↔
      (∀ l : Frag, l.WF → t.isLeaf l = some true → l.contains fg = true → l = fg) ∧
        (Covers dirfrags fg → ∀ f ∈ dirfrags, fg.contains f = true → t.isLeaf f = some true) := by
  obtain ⟨t1, hrun1, ht⟩ := tidy_empty.exec hops
  obtain rfl : t1 = t := some.inj (hrun1.symm.trans hrun)
  obtain ⟨fglist, hnodup, hmem, hcases⟩ := getDirfragsUnder_cases ht hwf hdis hfg ls
  constructor
  · rintro ⟨all, found, hget, -, hfound, hcov⟩
    refine ⟨fun l hl hleaf hc => ?_, fun hcover f hf hc => ?_⟩
    · -- inside a leaf the list is empty and the answer is true
      by_contra hne
      have hnone : fglist = [] := eq_nil_iff_forall_not_mem.2 fun p hp =>
        no_leaf_inside hfg ((ht.isLeaf_iff hl).1 hleaf) hc hne ((hmem p).1 hp)
      subst hnone
      rw [if_pos (by simp), hget] at hcases
      obtain ⟨rfl, hnil⟩ : all = true ∧ found = [] := by simpa using hcases
      obtain ⟨f, hf, hc, -⟩ := hcov.1 rfl fg.value (containsValue_value hfg)
      have hmem := (hfound f).2 ⟨hf, hc⟩
      simp [hnil] at hmem
    · split_ifs at hcases
      · rw [hget] at hcases
        obtain ⟨-, rfl⟩ : all = true ∧ found = fglist := by simpa using hcases
        have hl := ((hmem f).1 ((hfound f).2 ⟨hf, hc⟩)).1
        exact (ht.isLeaf_iff hl.wf).2 hl
      · obtain ⟨_, h, -⟩ := hcases
        rw [hget, hcov.2 hcover] at h
        simp at h
  · rintro ⟨hinside, hleaves⟩
    replace hinside : ∀ l, t1.IsLeaf l → l.contains fg = true → l = fg :=
      fun l hl => hinside l hl.wf ((ht.isLeaf_iff hl.wf).2 hl)
    split_ifs at hcases with hall
    · refine ⟨true, fglist, hcases, hnodup, fun f => ⟨fun hf => ⟨hall f hf, ((hmem f).1 hf).2⟩, fun ⟨hf, hc⟩ => ?_⟩, ?_⟩
      · have hv := containsValue_value (hwf f hf)
        obtain ⟨g, hg, hgv⟩ := exists_leaf_under ht hfg hinside (containsValue_of_contains hfg (hwf f hf) hc hv)
        rw [eq_of_common hdis hf (hall g ((hmem g).2 hg)) hv hgv]
        exact (hmem g).2 hg
      · refine iff_of_true rfl fun v hv => ?_
        obtain ⟨g, hg, hgv⟩ := exists_leaf_under ht hfg hinside hv
        exact ⟨g, hall g ((hmem g).2 hg), hg.2, hgv⟩
    · obtain ⟨found, hget, hfound⟩ := hcases
      refine ⟨false, found, hget, hfound.1, hfound.2, iff_of_false nofun fun hcov => hall fun p hp => ?_⟩
      obtain ⟨hpl, hpc⟩ := (hmem p).1 hp
      exact hcov.mem_of_isLeaf hfg (fun f hf hc => (ht.isLeaf_iff (hwf f hf)).1 (hleaves hcov f hf hc)) hpl hpc

private theorem exec_halves : exec apply empty [.split .root 1 false] = some (empty.set .root 1) := by
  have hleaf : empty.isLeaf .root = some true := by decide +kernel
  simp [exec, apply, split, simplifyAbove, hleaf]

theorem getDirfragsUnder_exact_quarter :
    ∃ all found, getDirfragsUnder (empty.set .root 1) [.make 2 0x800000] (.make 1 0x800000) [] =
      some (all, [] ++ found) ∧ ∀ f, f ∈ found ↔ f ∈ [Frag.make 2 0x800000] ∧ (Frag.make 1 0x800000).contains f = true := by
  have hops : AllSteps apply Allowed empty [.split .root 1 false] := by decide +kernel
  have hfg : (Frag.make 1 0x800000).WF := Frag.wf_make (by decide) _
  have hleaf : (empty.set .root 1).isLeaf (.make 1 0x800000) = some true := by decide +kernel
  obtain ⟨t, hrun, ht⟩ := tidy_empty.exec hops
  obtain rfl : t = empty.set .root 1 := some.inj (hrun.symm.trans exec_halves)
  have hwf : ∀ f ∈ [Frag.make 2 0x800000], f.WF := by simpa using Frag.wf_make (by decide) _
  obtain ⟨all, found, h, _, hfound, _⟩ := getDirfragsUnder_exact _ hops hrun hwf (pairwise_singleton _ _) hfg [] |>.mpr
    ⟨fun l hl hll hlc => ((ht.isLeaf_iff hl).1 hll).eq_of_below ((ht.isLeaf_iff hfg).1 hleaf).toIsNode
      ((Frag.contains_iff hl).1 hlc), fun hcov => absurd (hcov 0xc00000 (by decide)) (by decide)⟩
  exact ⟨all, found, h, hfound⟩

/-- The root is open, although the tree has split it: it is found, and the answer is false. Nothing is open under the left
half, which lies inside a leaf, and the answer is true. -/
theorem getDirfragsUnder_shared_list :
    getDirfragsUnder (empty.set .root 1) [.root] .root [] = some (false, [.root]) ∧ Covers [.root] .root ∧
      getDirfragsUnder empty [] (.make 1 0) [] = some (true, []) ∧ ¬ Covers [] (.make 1 0) := by
  refine ⟨by decide +kernel, fun v hv => ⟨.root, mem_cons_self, by decide, hv⟩, by decide +kernel, fun h => ?_⟩
  exact absurd (h 0 (by decide)) (by decide)

end Lunule.Dirfrags
