import Mathlib

/-!
# Requests that complete out of order

Ranges are submitted in order, up to a front, and complete in any order. With each outstanding range, under its start, a position
is kept that was known to be good when it was submitted, and `next` is the position for the next one. The position that is known
to be safe is the one kept with the lowest outstanding range, or `next` if there is none. `Tracked` says that these positions
are good (`good`), in order, and do not lie after the range they are kept with.
-/

namespace Lunule.Outstanding
open List
variable {good : ℕ → Prop} {pending : List (ℕ × ℕ)} {safe next front : ℕ}

/-- The position that is safe once the outstanding ranges are `pending`. -/
def lowest (pending : List (ℕ × ℕ)) (next : ℕ) : ℕ :=
  match pending with
  | [] => next
  | p :: _ => p.2

structure Tracked (good : ℕ → Prop) (pending : List (ℕ × ℕ)) (safe next front : ℕ) : Prop where
  ordered : pending.Pairwise fun p q => p.1 < q.1 ∧ p.2 ≤ q.2
  bounds : ∀ p ∈ pending, safe ≤ p.2 ∧ p.2 ≤ p.1 ∧ p.1 < front ∧ p.2 ≤ next
  safe_le : safe ≤ next
  next_le : next ≤ front
  pending_good : ∀ p ∈ pending, good p.2
  safe_good : good safe
  next_good : good next

theorem tracked_nil {pos : ℕ} (h : good pos) : Tracked good [] pos pos pos :=
  ⟨List.Pairwise.nil, fun _ hp => absurd hp not_mem_nil, le_refl _, le_refl _, fun _ hp => absurd hp not_mem_nil, h, h⟩

section
variable (h : Tracked good pending safe next front)
include h

theorem Tracked.imp {good' : ℕ → Prop} (himp : ∀ k, good k → good' k) : Tracked good' pending safe next front :=
  ⟨h.ordered, h.bounds, h.safe_le, h.next_le, fun p hp => himp _ (h.pending_good p hp), himp _ h.safe_good, himp _ h.next_good⟩

theorem Tracked.safe_le_start {p : ℕ × ℕ} (hp : p ∈ pending) : safe ≤ p.1 := by
  have := h.bounds p hp
  omega

theorem Tracked.submit {next' front' : ℕ} (hfront : front < front')
    (hnext : next ≤ next') (hle : next' ≤ front') (hgood : good next') :
    Tracked good (pending ++ [(front, next)]) safe next' front' where
  ordered := by
    refine pairwise_append.2 ⟨h.ordered, pairwise_singleton _ _, fun p hp q hq => ?_⟩
    have := h.bounds p hp
    rw [mem_singleton.1 hq]
    dsimp only
    omega
  bounds := by
    intro p hp
    rcases mem_append.1 hp with hp | hp
    · have := h.bounds p hp
      omega
    have h1 := h.safe_le
    have h2 := h.next_le
    rw [mem_singleton.1 hp]
    dsimp only
    omega
  safe_le := h.safe_le.trans hnext
  next_le := hle
  pending_good := forall_mem_append.2 ⟨h.pending_good, forall_mem_singleton.2 h.next_good⟩
  safe_good := h.safe_good
  next_good := hgood

theorem Tracked.advance {next' : ℕ} (hnext : next ≤ next')
    (hle : next' ≤ front) (hgood : good next') : Tracked good pending safe next' front where
  ordered := h.ordered
  bounds := fun p hp => by
    have := h.bounds p hp
    omega
  safe_le := h.safe_le.trans hnext
  next_le := hle
  pending_good := h.pending_good
  safe_good := h.safe_good
  next_good := hgood

variable {pending' : List (ℕ × ℕ)}

theorem Tracked.le_lowest (hsub : pending'.Sublist pending) : safe ≤ lowest pending' next := by
  cases pending' with
  | nil => exact h.safe_le
  | cons p _ => exact (h.bounds p (hsub.subset mem_cons_self)).1

theorem Tracked.finish (hsub : pending'.Sublist pending) : Tracked good pending' (lowest pending' next) next front where
  ordered := h.ordered.sublist hsub
  bounds := by
    intro p hp
    have hb := h.bounds p (hsub.subset hp)
    refine ⟨?_, hb.2⟩
    cases pending' with
    | nil => cases hp
    | cons q _ =>
      rcases mem_cons.1 hp with rfl | hp
      · exact le_refl _
      · exact ((pairwise_cons.1 (h.ordered.sublist hsub)).1 p hp).2
  safe_le := by
    cases pending' with
    | nil => exact le_refl _
    | cons q _ => exact (h.bounds q (hsub.subset mem_cons_self)).2.2.2
  next_le := h.next_le
  pending_good := fun p hp => h.pending_good p (hsub.subset hp)
  safe_good := by
    cases pending' with
    | nil => exact h.next_good
    | cons q _ => exact h.pending_good q (hsub.subset mem_cons_self)
  next_good := h.next_good

end
end Lunule.Outstanding
