import Mathlib

/-!
# Climbing parent pointers

`up` maps a node to its parent. `Chain up a l` says that `l` lists the nodes from `a` to its root. A chain is
determined by its first node and, since it ends, visits no node twice (`Chain.nodup`); it is closed under parents, and
every node of it but the first is the parent of exactly one of its nodes. `climb` computes it with a bound on the
number of steps, which the number of nodes always meets (`Chain.climb_eq`).

`Rooted` says that every node has a chain. Cutting links keeps it, and so does hanging roots below a node whose chain
does not meet them.
-/

namespace Lunule.Climb
open List
variable {α : Type*} {up up' : α → Option α} {a p x y : α} {l l' : List α}

inductive Chain (up : α → Option α) : α → List α → Prop
  | root {a : α} (h : up a = none) : Chain up a [a]
  | step {a p : α} {l : List α} (h : up a = some p) (hp : Chain up p l) : Chain up a (a :: l)

/-- The nodes from `a` to its root, if there are at most `n`. -/
def climb (up : α → Option α) : Nat → α → Option (List α)
  | 0, _ => none
  | n + 1, a =>
    match up a with
    | none => some [a]
    | some p => (climb up n p).map (a :: ·)

namespace Chain
section
variable (h : Chain up a l)
include h

theorem mem_self : a ∈ l := by
  cases h <;> simp

theorem unique (h' : Chain up a l') : l = l' := by
  induction h generalizing l' with
  | root h0 =>
    cases h' with
    | root => rfl
    | step h1 => simp [h0] at h1
  | step h0 _ ih =>
    cases h' with
    | root h1 => simp [h0] at h1
    | step h1 hp' =>
      obtain rfl : _ = _ := Option.some.inj (h0.symm.trans h1)
      rw [ih hp']

theorem of_mem (hx : x ∈ l) : ∃ l', Chain up x l' ∧ l' <:+ l := by
  induction h with
  | root h0 =>
    obtain rfl := mem_singleton.1 hx
    exact ⟨_, .root h0, suffix_refl _⟩
  | step h0 hp ih =>
    rcases mem_cons.1 hx with rfl | hx
    · exact ⟨_, .step h0 hp, suffix_refl _⟩
    · obtain ⟨l', hl', hs⟩ := ih hx
      exact ⟨l', hl', hs.trans (suffix_cons _ _)⟩

theorem up_ne_first (hy : y ∈ l) : up y ≠ some a := by
  intro hup
  obtain ⟨l', hl', hs⟩ := h.of_mem hy
  cases hl' with
  | root h0 => simp [h0] at hup
  | step h0 hp =>
    obtain rfl : _ = _ := Option.some.inj (h0.symm.trans hup)
    rw [hp.unique h] at hs
    have hlen := hs.length_le
    rw [length_cons] at hlen
    omega

theorem nodup : l.Nodup := by
  induction h with
  | root => simp
  | @step a p l h0 hp ih =>
    refine nodup_cons.2 ⟨fun hmem => ?_, ih⟩
    exact hp.up_ne_first hmem h0

theorem up_mem (hx : x ∈ l) (hp : up x = some p) : p ∈ l := by
  obtain ⟨l', hl', hs⟩ := h.of_mem hx
  cases hl' with
  | root h0 => simp [h0] at hp
  | step h0 hq =>
    obtain rfl : _ = _ := Option.some.inj (h0.symm.trans hp)
    exact hs.subset (mem_cons_of_mem _ hq.mem_self)

theorem exists_up_eq (hx : x ∈ l) (hne : x ≠ a) : ∃ y ∈ l, up y = some x := by
  induction h with
  | root => simp_all
  | @step a p l h0 hp ih =>
    have hx' : x ∈ l := (mem_cons.1 hx).resolve_left hne
    by_cases hxp : x = p
    · exact ⟨a, by simp, hxp ▸ h0⟩
    · obtain ⟨y, hy, hup⟩ := ih hx' hxp
      exact ⟨y, mem_cons_of_mem _ hy, hup⟩

theorem eq_of_up_eq (hx : x ∈ l) (hy : y ∈ l) (hxp : up x = some p) (hyp : up y = some p) : x = y := by
  induction h with
  | root => simp_all
  | step h0 hp ih =>
    rcases mem_cons.1 hx with rfl | hx' <;> rcases mem_cons.1 hy with rfl | hy'
    · rfl
    · obtain rfl : _ = _ := Option.some.inj (h0.symm.trans hxp)
      exact absurd hyp (hp.up_ne_first hy')
    · obtain rfl : _ = _ := Option.some.inj (h0.symm.trans hyp)
      exact absurd hxp (hp.up_ne_first hx')
    · exact ih hx' hy'

private theorem congr (he : ∀ x ∈ l, up' x = up x) : Chain up' a l := by
  induction h with
  | root h0 => exact .root (by rw [he _ (by simp), h0])
  | step h0 _ ih =>
    exact .step (by rw [he _ (by simp), h0]) (ih (forall_mem_cons.1 he).2)

private theorem climb_of_length_le {n : Nat} (hn : l.length ≤ n) : climb up n a = some l := by
  induction h generalizing n with
  | root h0 =>
    cases n with
    | zero => simp at hn
    | succ n => simp [climb, h0]
  | step h0 _ ih =>
    cases n with
    | zero => simp at hn
    | succ n => simp [climb, h0, ih (Nat.le_of_succ_le_succ (by simpa using hn))]

end

theorem length_le {up : Nat → Option Nat} {a : Nat} {l : List Nat} {n : Nat} (h : Chain up a l)
    (hlt : ∀ x ∈ l, x < n) : l.length ≤ n := by
  have hsub : l ⊆ List.range n := fun x hx => List.mem_range.2 (hlt x hx)
  simpa using (h.nodup.subperm hsub).length_le

theorem climb_eq {up : Nat → Option Nat} {a : Nat} {l : List Nat} {n : Nat} (h : Chain up a l)
    (hlt : ∀ x ∈ l, x < n) : climb up n a = some l :=
  h.climb_of_length_le (h.length_le hlt)

end Chain

/-- Every node has a chain to a root. -/
def Rooted (up : α → Option α) : Prop := ∀ a, ∃ l, Chain up a l

theorem Rooted.cut (h : Rooted up) (hcut : ∀ a, up' a = up a ∨ up' a = none) : Rooted up' := by
  intro a
  obtain ⟨l, hl⟩ := h a
  induction hl with
  | @root a h0 => exact ⟨[a], .root ((hcut a).elim (·.trans h0) id)⟩
  | @step a p l h0 _ ih =>
    rcases hcut a with ha | ha
    · obtain ⟨l', hl'⟩ := ih
      exact ⟨a :: l', .step (ha.trans h0) hl'⟩
    · exact ⟨[a], .root ha⟩

theorem Rooted.link (h : Rooted up) (hp : Chain up p l)
    (hlink : ∀ a, up' a = up a ∨ a ∉ l ∧ up a = none ∧ up' a = some p) : Rooted up' := by
  have hp' : Chain up' p l := hp.congr fun x hx => (hlink x).resolve_right fun hl => hl.1 hx
  intro a
  obtain ⟨la, hla⟩ := h a
  induction hla with
  | @root a h0 =>
    rcases hlink a with ha | ⟨-, -, ha⟩
    · exact ⟨[a], .root (ha.trans h0)⟩
    · exact ⟨a :: l, .step ha hp'⟩
  | @step a q lq h0 _ ih =>
    obtain ⟨l', hl'⟩ := ih
    rcases hlink a with ha | ⟨-, hn, -⟩
    · exact ⟨a :: l', .step (ha.trans h0) hl'⟩
    · simp [h0] at hn

theorem Rooted.redirect (h : Rooted up) (hx : ∀ a, up a ≠ some x) (hother : ∀ a, a ≠ x → up' a = up a)
    (hnew : up' x ≠ some x) : Rooted up' := by
  have hne : ∀ a, a ≠ x → ∃ l, Chain up' a l := by
    intro a ha
    obtain ⟨l, hl⟩ := h a
    refine ⟨l, hl.congr fun y hy => hother y ?_⟩
    rintro rfl
    obtain ⟨z, -, hz⟩ := hl.exists_up_eq hy (Ne.symm ha)
    exact hx z hz
  intro a
  by_cases ha : a = x
  · subst ha
    cases hp : up' a with
    | none => exact ⟨[a], .root hp⟩
    | some p =>
      obtain ⟨l, hl⟩ := hne p fun hpa => hnew (hpa ▸ hp)
      exact ⟨a :: l, .step hp hl⟩
  · exact hne a ha

end Lunule.Climb
