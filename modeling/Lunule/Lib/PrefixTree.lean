import Mathlib

/-!
# Trees of strings given by their split points

A tree over the strings of an alphabet is given by a function `S`: the string `s` is a leaf if `S s = 0`, and otherwise
its children are its extensions by `S s` letters. The nodes are the strings reached from the empty one; `S` may also be
nonzero at strings that are no nodes, and such entries say nothing about the tree until they are reached.

`Node.eq_or_below` is the fact behind all others: below a node there is nothing before its children. So a string passes
through at most one leaf. The rest says how nodes survive a change of `S`: `Node.graft` keeps a node whose path is
unchanged from some node on, and from it every change that the trees of this development undergo keeps them tidy.
-/

namespace Lunule.PrefixTree
open List Function
variable {β : Type*} {S S' : List β → Nat} {N : Nat} {s t u : List β}

inductive Node (S : List β → Nat) : List β → Prop
  | root : Node S []
  | child {s w : List β} : Node S s → S s ≠ 0 → w.length = S s → Node S (s ++ w)

def Leaf (S : List β → Nat) (s : List β) : Prop := Node S s ∧ S s = 0

/-- Two strings neither of which extends the other. -/
def Apart (s t : List β) : Prop := ¬ s <+: t ∧ ¬ t <+: s

theorem Apart.symm (h : Apart s t) : Apart t s := ⟨h.2, h.1⟩

theorem Apart.extend (h : Apart s t) (hu : t <+: u) : Apart s u := by
  constructor
  · intro hsu
    exact prefix_or_prefix_of_prefix hsu hu |>.elim h.1 h.2
  · intro hus
    exact h.2 (hu.trans hus)

theorem apart_of_length_eq (hl : s.length = t.length) (hne : s ≠ t) : Apart s t :=
  ⟨fun h => hne (h.eq_of_length hl), fun h => hne (h.eq_of_length hl.symm).symm⟩

/-- Strings without two siblings that cover all extensions of `s` to the length `N` cover `s`. -/
theorem exists_prefix_of_covered {P : List Bool → Prop} {s : List Bool} (hsib : ∀ q, P (q ++ [false]) → ¬P (q ++ [true]))
    (hs : s.length ≤ N) (hcov : ∀ t, s <+: t → t.length = N → ∃ u, P u ∧ u <+: t) : ∃ u, P u ∧ u <+: s := by
  induction hn : N - s.length generalizing s with
  | zero => exact hcov s List.prefix_rfl (by omega)
  | succ n ih =>
    have hchild : ∀ b, ∃ u, P u ∧ (u = s ++ [b] ∨ u <+: s) := by
      intro b
      obtain ⟨u, hu, hus⟩ := ih (s := s ++ [b]) (by rw [length_append, length_singleton]; omega)
        (fun t ht => hcov t ((prefix_append s [b]).trans ht)) (by rw [length_append, length_singleton]; omega)
      exact ⟨u, hu, prefix_concat_iff.1 hus⟩
    obtain ⟨u, hu, rfl | hus⟩ := hchild false
    · obtain ⟨v, hv, rfl | hvs⟩ := hchild true
      · exact absurd hv (hsib s hu)
      · exact ⟨v, hv, hvs⟩
    · exact ⟨u, hu, hus⟩

theorem Node.eq_or_below (hs : Node S s) (ht : Node S t) (hst : s <+: t) :
    s = t ∨ (S s ≠ 0 ∧ s.length + S s ≤ t.length) := by
  -- strong induction on the longer node: its parent `u` is comparable with `s`, and both lie below `t` in length
  induction hn : t.length using Nat.strong_induction_on generalizing s t with
  | _ n ih =>
    cases ht with
    | root => exact .inl (prefix_nil.1 hst)
    | @child u w hu hSu hw =>
      rw [length_append] at hn
      rcases prefix_or_prefix_of_prefix hst (prefix_append u w) with hsu | hus
      · rcases ih u.length (by omega) hs hu hsu rfl with h | ⟨h0, hle⟩
        · subst h
          exact .inr ⟨hSu, by omega⟩
        · exact .inr ⟨h0, by omega⟩
      by_cases hlen : s.length = (u ++ w).length
      · exact .inl (hst.eq_of_length hlen)
      have hlt := hst.length_le
      rw [length_append] at hlt hlen
      rcases ih s.length (by omega) hu hs hus rfl with h | ⟨_, hle⟩
      · subst h
        exact .inr ⟨hSu, by omega⟩
      · omega

theorem Leaf.eq_of_below (hs : Leaf S s) (ht : Node S t) (hst : s <+: t) : s = t := by
  rcases hs.1.eq_or_below ht hst with h | ⟨h, _⟩
  · exact h
  · exact absurd hs.2 h

theorem Leaf.eq_of_common (hs : Leaf S s) (ht : Leaf S t) (hsu : s <+: u) (htu : t <+: u) : s = t := by
  rcases prefix_or_prefix_of_prefix hsu htu with h | h
  · exact hs.eq_of_below ht.1 h
  · exact (ht.eq_of_below hs.1 h).symm

theorem Node.child_on_path (hs : Node S s) (hS : S s ≠ 0) (hst : s <+: t) (hle : s.length + S s ≤ t.length) :
    Node S (t.take (s.length + S s)) := by
  obtain ⟨r, rfl⟩ := hst
  rw [take_append, take_of_length_le (by omega), Nat.add_sub_cancel_left]
  rw [length_append] at hle
  exact hs.child hS (by rw [length_take]; omega)

theorem prefix_take (hst : s <+: t) {n : Nat} (hn : s.length ≤ n) : s <+: t.take n := by
  rw [prefix_take_iff]
  exact ⟨hst, hn⟩

/-! ### Trees without stray entries -/

/-- Every entry of `S` is a node that ends by depth `N`. -/
def Tidy (N : Nat) (S : List β → Nat) : Prop := ∀ s, S s ≠ 0 → Node S s ∧ s.length + S s ≤ N

private theorem Node.graft {g s : List β} (hs : Node S s) (hg : Node S g) (hg' : Node S' g) (hgs : g <+: s)
    (heq : ∀ u, g <+: u → u <+: s → u ≠ s → S' u = S u) : Node S' s := by
  induction hs with
  | root =>
    rw [prefix_nil.1 hgs] at hg'
    exact hg'
  | @child u w hu hSu hw ih =>
    have hne : u ≠ u ++ w := by
      intro h
      have := congrArg List.length h
      rw [length_append] at this
      omega
    have huw : u <+: u ++ w := prefix_append u w
    rcases prefix_or_prefix_of_prefix hgs huw with hgu | hug
    · have hu' := ih hgu fun v hgv hvu hvne => heq v hgv (hvu.trans huw) fun h => by
        subst h
        exact hne (hvu.eq_of_length (Nat.le_antisymm hvu.length_le huw.length_le)).symm
      have hSu' := heq u hgu huw hne
      exact hu'.child (hSu' ▸ hSu) (hSu' ▸ hw)
    rcases hu.eq_or_below hg hug with h | ⟨_, hle⟩
    · subst h
      have hSu' := heq u (prefix_refl u) huw hne
      exact hg'.child (hSu' ▸ hSu) (hSu' ▸ hw)
    · have := hgs.eq_of_length (Nat.le_antisymm hgs.length_le (by rw [length_append]; omega))
      rw [← this]
      exact hg'

theorem Node.congr {s : List β} (hs : Node S s) (heq : ∀ u, u <+: s → u ≠ s → S' u = S u) : Node S' s :=
  hs.graft .root .root List.nil_prefix fun u _ => heq u

theorem Tidy.splitLeaf [DecidableEq β] (h : Tidy N S) {x : List β} (hx : Leaf S x) {b : Nat} (hb : x.length + b ≤ N) :
    Tidy N (update S x b) := by
  have hnode : ∀ s, Node S s → Node (update S x b) s := by
    intro s hs
    refine hs.congr fun u hu hne => ?_
    -- a proper ancestor of a node is not the leaf `x`
    have hux : u ≠ x := fun hux => hne ((hux ▸ hx).eq_of_below hs hu)
    exact update_of_ne hux b S
  intro s hs
  by_cases hsx : s = x
  · subst hsx
    rw [update_self]
    exact ⟨hnode s hx.1, hb⟩
  · rw [update_of_ne hsx] at hs ⊢
    exact ⟨hnode s (h s hs).1, (h s hs).2⟩

theorem Tidy.prune (h : Tidy N S) {x : List β} (hin : ∀ s, x <+: s → S' s = 0) (hout : ∀ s, ¬ x <+: s → S' s = S s) :
    Tidy N S' := by
  intro s hs
  have hxs : ¬ x <+: s := fun hxs => hs (hin s hxs)
  rw [hout s hxs] at hs ⊢
  refine ⟨(h s hs).1.congr fun u hu _ => hout u fun hxu => hxs (hxu.trans hu), (h s hs).2⟩

theorem Tidy.mergeLeaves [DecidableEq β] (h : Tidy N S) {x : List β} (hx : Node S x) (hSx : S x ≠ 0)
    (hleaf : ∀ c, x <+: c → c.length = x.length + S x → S c = 0) : Tidy N (update S x 0) := by
  refine h.prune (x := x) (fun s hxs => ?_) fun s hxs => ?_
  · by_cases hsx : s = x
    · rw [hsx, update_self]
    rw [update_of_ne hsx]
    by_contra hs
    -- an entry below `x` would lie at or below a child, which is a leaf
    have hs' := (h s hs).1
    obtain ⟨_, hle⟩ := (hx.eq_or_below hs' hxs).resolve_left fun he => hsx he.symm
    have hlen : (s.take (x.length + S x)).length = x.length + S x := by rw [length_take]; omega
    have hc : Leaf S (s.take (x.length + S x)) :=
      ⟨hx.child_on_path hSx hxs hle, hleaf _ (prefix_take hxs (by omega)) hlen⟩
    have htake : s.take (x.length + S x) <+: s := take_prefix _ _
    exact hs (hc.eq_of_below hs' htake ▸ hc.2)
  · refine update_of_ne (fun he => hxs ?_) _ _
    rw [he]

/-! ### Two generations as one, and one as two -/

/-- The children of `x` are all split by `cb`, and `S'` splits `x` by the sum instead. -/
structure Assimilates (S S' : List β → Nat) (x : List β) (cb : Nat) : Prop where
  node : Node S x
  split : S x ≠ 0
  pos : cb ≠ 0
  child : ∀ c, x <+: c → c.length = x.length + S x → S c = cb
  self : S' x = S x + cb
  drop : ∀ c, x <+: c → c.length = x.length + S x → S' c = 0
  other : ∀ s, s ≠ x → ¬ (x <+: s ∧ s.length = x.length + S x) → S' s = S s

namespace Assimilates
variable {x : List β} {cb : Nat}

variable (h : Assimilates S S' x cb)
include h

private theorem node_self : Node S' x := by
  refine h.node.congr fun u hu hne => h.other u hne fun hc => ?_
  exact hne (hu.eq_of_length (Nat.le_antisymm hu.length_le hc.1.length_le))

private theorem node_of (hs : Node S s) (hnc : ¬ (x <+: s ∧ s.length = x.length + S x)) : Node S' s := by
  by_cases hsx : s = x
  · rw [hsx]
    exact h.node_self
  by_cases hxs : x <+: s
  · -- below the split: two generations of `S` are one of `S'`, and from there on nothing changes
    obtain ⟨_, hle⟩ := (h.node.eq_or_below hs hxs).resolve_left fun he => hsx he.symm
    have hc := h.node.child_on_path h.split hxs hle
    have hclen : (s.take (x.length + S x)).length = x.length + S x := by rw [length_take]; omega
    have hSc := h.child _ (prefix_take hxs (by omega)) hclen
    have htake : ∀ k, s.take k <+: s := fun _ => take_prefix _ _
    obtain ⟨_, hcle⟩ := (hc.eq_or_below hs (htake _)).resolve_left fun he => hnc ⟨hxs, he ▸ hclen⟩
    rw [hclen, hSc] at hcle
    have hg : Node S (s.take (x.length + S x + cb)) := by
      have := hc.child_on_path (by omega) (htake _) (by omega)
      rwa [hclen, hSc] at this
    have hg' : Node S' (s.take (x.length + S x + cb)) := by
      have hself := h.self
      have := h.node_self.child_on_path (by omega) hxs (by omega)
      rwa [hself, ← Nat.add_assoc] at this
    have hglen : (s.take (x.length + S x + cb)).length = x.length + S x + cb := by rw [length_take]; omega
    refine hs.graft hg hg' (htake _) fun u hgu _ _ => ?_
    have hul := hgu.length_le
    exact h.other u (by rintro rfl; omega) fun hc => by omega
  · exact hs.congr fun u hu _ => h.other u (fun he => hxs (he ▸ hu)) fun hc => hxs (hc.1.trans hu)

theorem leaf_of (hs : Leaf S s) : Leaf S' s := by
  have hnc : ¬ (x <+: s ∧ s.length = x.length + S x) := by
    intro hc
    exact h.pos ((h.child s hc.1 hc.2).symm.trans hs.2)
  have hsx : s ≠ x := fun he => h.split (he ▸ hs.2)
  exact ⟨h.node_of hs.1 hnc, (h.other s hsx hnc).trans hs.2⟩

theorem tidy (hS : Tidy N S) (hxc : ∃ c, x <+: c ∧ c.length = x.length + S x) : Tidy N S' := by
  intro s hs
  by_cases hsx : s = x
  · subst hsx
    obtain ⟨c, hsc, hlen⟩ := hxc
    have hc := h.child c hsc hlen
    have hself := h.self
    have hpos := h.pos
    have := (hS c (by omega)).2
    exact ⟨h.node_self, by omega⟩
  · have hnc : ¬ (x <+: s ∧ s.length = x.length + S x) := fun hc => hs (h.drop s hc.1 hc.2)
    rw [h.other s hsx hnc] at hs ⊢
    exact ⟨h.node_of (hS s hs).1 hnc, (hS s hs).2⟩

end Assimilates

/-- `S'` puts a generation at depth `d` between `p` and its children. -/
structure Interposes (S S' : List β → Nat) (p : List β) (d : Nat) : Prop where
  node : Node S p
  pos : d ≠ 0
  lt : d < S p
  self : S' p = d
  mid : ∀ c, p <+: c → c.length = p.length + d → S' c = S p - d
  other : ∀ s, s ≠ p → ¬ (p <+: s ∧ s.length = p.length + d) → S' s = S s

namespace Interposes
variable {p : List β} {d : Nat}

variable (h : Interposes S S' p d)
include h

private theorem node_self : Node S' p := by
  refine h.node.congr fun u hu hne => h.other u hne fun hc => ?_
  exact hne (hu.eq_of_length (Nat.le_antisymm hu.length_le hc.1.length_le))

theorem node_mid (hps : p <+: s) (hlen : s.length = p.length + d) : Node S' s := by
  have hself := h.self
  have hpos := h.pos
  have := h.node_self.child_on_path (by omega) hps (by omega)
  rwa [hself, ← hlen, take_length] at this

theorem node_of (hs : Node S s) : Node S' s := by
  by_cases hsp : s = p
  · rw [hsp]
    exact h.node_self
  by_cases hps : p <+: s
  · have hlt := h.lt
    obtain ⟨_, hle⟩ := (h.node.eq_or_below hs hps).resolve_left fun he => hsp he.symm
    have htake : ∀ k, s.take k <+: s := fun _ => take_prefix _ _
    have hg := h.node.child_on_path (by omega) hps hle
    have hglen : (s.take (p.length + S p)).length = p.length + S p := by rw [length_take]; omega
    have hclen : (s.take (p.length + d)).length = p.length + d := by rw [length_take]; omega
    have hg' : Node S' (s.take (p.length + S p)) := by
      have hpc : p <+: s.take (p.length + d) := prefix_take hps (by omega)
      have hSc := h.mid _ hpc hclen
      have := (h.node_mid hpc hclen).child_on_path (by omega) (htake _) (by omega)
      rwa [hclen, hSc, show p.length + d + (S p - d) = p.length + S p by omega] at this
    refine hs.graft hg hg' (htake _) fun u hgu _ _ => ?_
    have hul := hgu.length_le
    exact h.other u (by rintro rfl; omega) fun hc => by omega
  · exact hs.congr fun u hu _ => h.other u (fun he => hps (he ▸ hu)) fun hc => hps (hc.1.trans hu)

theorem tidy (hS : Tidy N S) : Tidy N S' := by
  have hlt := h.lt
  have hself := h.self
  have hN := (hS p (by omega)).2
  intro s hs
  by_cases hsp : s = p
  · subst hsp
    exact ⟨h.node_self, by omega⟩
  by_cases hsc : p <+: s ∧ s.length = p.length + d
  · have := h.mid s hsc.1 hsc.2
    exact ⟨h.node_mid hsc.1 hsc.2, by omega⟩
  · rw [h.other s hsp hsc] at hs ⊢
    exact ⟨h.node_of (hS s hs).1, (hS s hs).2⟩

end Interposes
end Lunule.PrefixTree
