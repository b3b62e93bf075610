import Mathlib

/-!
# Runs of a step function

A system is a partial step function `step : σ → ε → Option σ`: the event carries every choice of the environment, and
`none` means that the event cannot happen in that state. `exec` runs a list of events, and `AllSteps` says that every
event of a run is taken in a state in which a given condition holds. `exec_invariant` is the induction rule behind
every safety result of the development: an invariant kept by each step that meets the condition holds after every run
whose steps all meet it.
-/

namespace Lunule.Exec
variable {σ ε : Type*} {step : σ → ε → Option σ} {Q R : σ → ε → Prop} {I : σ → Prop} {es fs : List ε}

/-- The state after a list of events, if every one of them can happen. -/
def exec (step : σ → ε → Option σ) : σ → List ε → Option σ
  | s, [] => some s
  | s, e :: es => (step s e).bind fun t => exec step t es

/-- Every event of the run is taken in a state that meets `Q`. -/
def AllSteps (step : σ → ε → Option σ) (Q : σ → ε → Prop) : σ → List ε → Prop
  | _, [] => True
  | s, e :: es => Q s e ∧ ∀ t, step s e = some t → AllSteps step Q t es

instance [∀ s e, Decidable (Q s e)] (s : σ) (es : List ε) : Decidable (AllSteps step Q s es) :=
  match es with
  | [] => isTrue trivial
  | e :: es =>
    match h : step s e with
    | none => decidable_of_iff (Q s e) (by simp [AllSteps, h])
    | some t =>
      have : Decidable (AllSteps step Q t es) := instDecidableAllSteps t es
      decidable_of_iff (Q s e ∧ AllSteps step Q t es) (by simp [AllSteps, h])

@[simp] theorem exec_nil (s : σ) : exec step s [] = some s := rfl

theorem exec_cons_eq_some {s u : σ} {e : ε} :
    exec step s (e :: es) = some u ↔ ∃ t, step s e = some t ∧ exec step t es = some u := by
  simp [exec, Option.bind_eq_some_iff]

theorem exec_append_eq_some {s u : σ} :
    exec step s (es ++ fs) = some u ↔ ∃ t, exec step s es = some t ∧ exec step t fs = some u := by
  induction es generalizing s with
  | nil => simp
  | cons e es ih =>
    rw [List.cons_append, exec_cons_eq_some]
    constructor
    · rintro ⟨t, ht, hu⟩
      obtain ⟨t', ht', hu'⟩ := ih.1 hu
      exact ⟨t', exec_cons_eq_some.2 ⟨t, ht, ht'⟩, hu'⟩
    · rintro ⟨t', ht', hu'⟩
      obtain ⟨t, ht, h⟩ := exec_cons_eq_some.1 ht'
      exact ⟨t, ht, ih.2 ⟨t', h, hu'⟩⟩

variable {s : σ}

theorem AllSteps.of_append (h : AllSteps step Q s (es ++ fs)) : AllSteps step Q s es := by
  induction es generalizing s with
  | nil => trivial
  | cons e es ih => exact ⟨h.1, fun t ht => ih (h.2 t ht)⟩

theorem AllSteps.append_right {s t : σ} (h : AllSteps step Q s (es ++ fs)) (ht : exec step s es = some t) :
    AllSteps step Q t fs := by
  induction es generalizing s with
  | nil =>
    cases ht
    exact h
  | cons e es ih =>
    obtain ⟨u, hu, ht⟩ := exec_cons_eq_some.1 ht
    exact ih (h.2 u hu) ht

theorem AllSteps.mono (hok : ∀ s e, Q s e → R s e) (h : AllSteps step Q s es) : AllSteps step R s es := by
  induction es generalizing s with
  | nil => trivial
  | cons e es ih => exact ⟨hok s e h.1, fun t ht => ih (h.2 t ht)⟩

theorem AllSteps.and (h : AllSteps step Q s es) (h' : AllSteps step R s es) :
    AllSteps step (fun s e => Q s e ∧ R s e) s es := by
  induction es generalizing s with
  | nil => trivial
  | cons e es ih => exact ⟨⟨h.1, h'.1⟩, fun t ht => ih (h.2 t ht) (h'.2 t ht)⟩

theorem allSteps_of_mem {P : ε → Prop} (s : σ) (h : ∀ e ∈ es, P e) : AllSteps step (fun _ e => P e) s es := by
  induction es generalizing s with
  | nil => trivial
  | cons e es ih => exact ⟨h e (by simp), fun t _ => ih t (List.forall_mem_cons.1 h).2⟩

private theorem allSteps_of_forall (hok : ∀ s e, Q s e) (s : σ) (es : List ε) : AllSteps step Q s es := by
  induction es generalizing s with
  | nil => trivial
  | cons e es ih => exact ⟨hok s e, fun t _ => ih t⟩

/-- The invariant rule: what every admissible step preserves, every admissible run preserves. -/
theorem exec_invariant (hstep : ∀ s e t, I s → Q s e → step s e = some t → I t) {s t : σ} (hs : I s)
    (hok : AllSteps step Q s es) (h : exec step s es = some t) : I t := by
  induction es generalizing s with
  | nil => cases h; exact hs
  | cons e es ih =>
    obtain ⟨u, hu, h'⟩ := exec_cons_eq_some.1 h
    exact ih (hstep s e u hs hok.1 hu) (hok.2 u hu) h'

theorem exec_invariant_all (hstep : ∀ s e t, I s → step s e = some t → I t) {s t : σ} (hs : I s)
    (h : exec step s es = some t) : I t :=
  exec_invariant (Q := fun _ _ => True) (fun s e t hs _ ht => hstep s e t hs ht) hs
    (allSteps_of_forall (fun _ _ => trivial) s es) h

/-- Where every admissible step can happen, every admissible run can. -/
theorem exec_total (hstep : ∀ s e, I s → Q s e → ∃ t, step s e = some t ∧ I t) (hs : I s)
    (hok : AllSteps step Q s es) : ∃ t, exec step s es = some t ∧ I t := by
  induction es generalizing s with
  | nil => exact ⟨s, rfl, hs⟩
  | cons e es ih =>
    obtain ⟨u, hu, hi⟩ := hstep s e hs hok.1
    obtain ⟨t, ht, hit⟩ := ih hi (hok.2 u hu)
    exact ⟨t, exec_cons_eq_some.2 ⟨u, hu, ht⟩, hit⟩

/-- A fold whose steps succeed and keep an invariant succeeds and keeps it. -/
theorem foldlM_invariant {α : Type*} {f : σ → α → Option σ} {l : List α}
    (hf : ∀ s a, a ∈ l → I s → ∃ t, f s a = some t ∧ I t) (hs : I s) :
    ∃ t, l.foldlM f s = some t ∧ I t := by
  induction l generalizing s with
  | nil => exact ⟨s, rfl, hs⟩
  | cons a l ih =>
    obtain ⟨t, ht, hi⟩ := hf s a (by simp) hs
    obtain ⟨u, hu, hiu⟩ := ih (fun s b hb => hf s b (List.mem_cons_of_mem _ hb)) hi
    exact ⟨u, by simp [List.foldlM_cons, ht, hu], hiu⟩

end Lunule.Exec
