import Mathlib

/-!
# Worklist loops

A worklist loop takes an element off its queue, visits it and puts the elements the visit asks for back on the queue,
until the queue is empty or a visit ends the loop. `put` says how new elements join the queue, so one definition covers
a queue (`fifo`) and a stack (`lifo`, the list being the stack from its top). The loop is given a number of rounds;
`drain_spec` is its total-correctness rule: an invariant kept by each visit, and a weight that each visit lowers, give a
result in as many rounds as the queue weighs.
-/

namespace Lunule.Worklist
variable {α σ ρ : Type*} (q new : List α)

def fifo : List α := q ++ new

def lifo : List α := new.reverse ++ q

theorem fifo_perm : (fifo q new).Perm (q ++ new) := List.Perm.refl _

theorem lifo_perm : (lifo q new).Perm (q ++ new) := ((List.reverse_perm new).append_right q).trans List.perm_append_comm

/-- Run the loop for at most the given number of rounds. A visit either goes on, with new elements and a new state, or
ends the loop with a result. -/
def drain (put : List α → List α → List α) (visit : α → σ → Except ρ (List α × σ)) :
    Nat → List α → σ → Option (Except ρ σ)
  | 0, _, _ => none
  | _ + 1, [], s => some (.ok s)
  | n + 1, a :: q, s =>
    match visit a s with
    | .error r => some (.error r)
    | .ok (new, s') => drain put visit n (put q new) s'

variable {put : List α → List α → List α} {visit : α → σ → Except ρ (List α × σ)}

/-- What a visit may do under the invariant `I`: go on with less weight and the invariant kept, or end with a result
that meets `P`. -/
def Keeps (put : List α → List α → List α) (weight : α → Nat) (I : List α → σ → Prop) (P : ρ → Prop) (a : α)
    (q : List α) : Except ρ (List α × σ) → Prop
  | .ok (new, s') => (new.map weight).sum < weight a ∧ I (put q new) s'
  | .error r => P r

variable {I : List α → σ → Prop} {weight : α → Nat}

theorem drain_spec {P : ρ → Prop} (hput : ∀ q new, (put q new).Perm (q ++ new))
    (hvisit : ∀ a q s, I (a :: q) s → Keeps put weight I P a q (visit a s)) {n : Nat} {q : List α} {s : σ}
    (hI : I q s) (hn : (q.map weight).sum < n) :
    (∃ s', drain put visit n q s = some (.ok s') ∧ I [] s') ∨ ∃ r, drain put visit n q s = some (.error r) ∧ P r := by
  induction n generalizing q s with
  | zero => omega
  | succ n ih =>
    cases q with
    | nil => exact .inl ⟨s, rfl, hI⟩
    | cons a q =>
      have hk := hvisit a q s hI
      cases hv : visit a s with
      | error r =>
        rw [hv] at hk
        exact .inr ⟨r, by simp [drain, hv], hk⟩
      | ok res =>
        obtain ⟨new, s'⟩ := res
        rw [hv] at hk
        have hsum : ((put q new).map weight).sum = (q.map weight).sum + (new.map weight).sum := by
          rw [((hput q new).map weight).sum_eq, List.map_append, List.sum_append]
        have hlt : ((put q new).map weight).sum < n := by
          have h1 := hk.1
          rw [List.map_cons, List.sum_cons] at hn
          omega
        have hd : drain put visit (n + 1) (a :: q) s = drain put visit n (put q new) s' := by simp [drain, hv]
        rw [hd]
        exact ih hk.2 hlt

theorem drain_ok (hput : ∀ q new, (put q new).Perm (q ++ new))
    (hvisit : ∀ a q s, I (a :: q) s → Keeps put weight I (fun _ => False) a q (visit a s)) {n : Nat} {q : List α}
    {s : σ} (hI : I q s) (hn : (q.map weight).sum < n) :
    ∃ s', drain put visit n q s = some (.ok s') ∧ I [] s' := by
  rcases drain_spec hput hvisit hI hn with h | ⟨_, _, h⟩
  · exact h
  · exact h.elim

end Lunule.Worklist
