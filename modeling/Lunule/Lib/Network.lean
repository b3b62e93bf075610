import Mathlib

/-!
# Channels that keep order

A network has one channel for each ordered pair of parties. What is sent joins the end of a channel, what is delivered
leaves its front.
-/

namespace Lunule.Network

abbrev Net (ρ μ : Type) := ρ → ρ → List μ

variable {ρ μ : Type} [DecidableEq ρ]

def post (n : Net ρ μ) (r : ρ) (send : ρ → List μ) : Net ρ μ := fun a b => if a = r then n a b ++ send b else n a b

def pop (n : Net ρ μ) (a b : ρ) : Net ρ μ := fun a' b' => if a' = a ∧ b' = b then (n a b).tail else n a' b'

variable {n : Net ρ μ} {a b a' b' r : ρ} {m : μ} {send : ρ → List μ}

theorem mem_post : m ∈ post n r send a b ↔ m ∈ n a b ∨ (a = r ∧ m ∈ send b) := by
  unfold post
  split_ifs with h
  · simp [h]
  · simp [h]

theorem mem_of_mem_pop (h : m ∈ pop n a b a' b') : m ∈ n a' b' := by
  unfold pop at h
  split_ifs at h with hab
  · rw [hab.1, hab.2]
    exact List.mem_of_mem_tail h
  · exact h

end Lunule.Network
