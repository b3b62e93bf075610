import Mathlib

/-!
# A write-ahead journal with completions

Entries are submitted in order, become durable in order, and the completion of an entry runs some time after the entry
became durable. The three stages are three lists, so that a journal whose completions run ahead of its durable part
cannot be built. A crash keeps the durable part and any initial part of the rest; the completions that had not run
are lost with the process.
-/

namespace Lunule
variable {ε : Type*}

/-- `reported` are the durable entries whose completion ran, `flushed` the durable ones whose completion is still to
run, and `tail` the entries that are submitted but not durable. -/
structure Journal (ε : Type*) where
  reported : List ε := []
  flushed : List ε := []
  tail : List ε := []
deriving DecidableEq

namespace Journal

def durable (j : Journal ε) : List ε := j.reported ++ j.flushed

def all (j : Journal ε) : List ε := j.durable ++ j.tail

def waiting (j : Journal ε) : List ε := j.flushed ++ j.tail

def submit (j : Journal ε) (e : ε) : Journal ε := { j with tail := j.tail ++ [e] }

def flush (j : Journal ε) : Option (Journal ε) :=
  match j.tail with
  | [] => none
  | e :: es => some { j with flushed := j.flushed ++ [e], tail := es }

def complete (j : Journal ε) : Option (ε × Journal ε) :=
  match j.flushed with
  | [] => none
  | e :: es => some (e, { j with reported := j.reported ++ [e], flushed := es })

/-- A crash that finds the first `k` entries of the tail on disk. -/
def crash (j : Journal ε) (k : Nat) : Journal ε := { reported := j.durable ++ j.tail.take k }

@[simp] theorem durable_submit (j : Journal ε) (e : ε) : (j.submit e).durable = j.durable := rfl

@[simp] theorem durable_foldl_submit (l : List ε) (j : Journal ε) : (l.foldl submit j).durable = j.durable := by
  induction l generalizing j with
  | nil => rfl
  | cons e l ih => rw [List.foldl_cons, ih, durable_submit]

@[simp] theorem all_submit (j : Journal ε) (e : ε) : (j.submit e).all = j.all ++ [e] := by
  simp [all, submit, durable]

@[simp] theorem waiting_submit (j : Journal ε) (e : ε) : (j.submit e).waiting = j.waiting ++ [e] := by
  simp [waiting, submit]

theorem durable_prefix_all (j : Journal ε) : j.durable <+: j.all := List.prefix_append _ _

variable {j : Journal ε} {e : ε}

theorem mem_all_of_durable (h : e ∈ j.durable) : e ∈ j.all := j.durable_prefix_all.subset h

theorem mem_all_of_waiting (h : e ∈ j.waiting) : e ∈ j.all := by
  simp only [waiting, all, durable, List.mem_append] at h ⊢
  exact h.elim (fun hf => .inl (.inr hf)) .inr

theorem durable_or_waiting (h : e ∈ j.all) : e ∈ j.durable ∨ e ∈ j.waiting := by
  simp only [waiting, all, List.mem_append] at h ⊢
  exact h.imp_right .inr

theorem flush_spec {j j' : Journal ε} (h : j.flush = some j') :
    ∃ e, j'.durable = j.durable ++ [e] ∧ j'.all = j.all ∧ j'.waiting = j.waiting := by
  unfold flush at h
  cases ht : j.tail with
  | nil => simp [ht] at h
  | cons e es =>
    simp only [ht, Option.some.injEq] at h
    subst h
    exact ⟨e, by simp [durable], by simp [all, durable, ht], by simp [waiting, ht]⟩

theorem complete_spec {j j' : Journal ε} (h : j.complete = some (e, j')) :
    e ∈ j.durable ∧ j'.durable = j.durable ∧ j'.all = j.all ∧ j.waiting = e :: j'.waiting := by
  unfold complete at h
  cases hf : j.flushed with
  | nil => simp [hf] at h
  | cons a es =>
    simp only [hf, Option.some.injEq, Prod.mk.injEq] at h
    obtain ⟨rfl, rfl⟩ := h
    exact ⟨by simp [durable, hf], by simp [durable, hf], by simp [all, durable, hf], by simp [waiting, hf]⟩

variable (j)

@[simp] theorem all_crash (k : Nat) : (j.crash k).all = (j.crash k).durable := by
  simp [crash, all, durable]

theorem durable_prefix_crash (k : Nat) : j.durable <+: (j.crash k).durable := by
  simp [crash, durable]

theorem crash_prefix_all (k : Nat) : (j.crash k).durable <+: j.all := by
  have h : j.tail.take k <+: j.tail := List.take_prefix k j.tail
  simpa [crash, all, durable] using h

variable {j}

end Journal
end Lunule
