import Mathlib

/-!
# Interning tables

A table gives each name a small number the first time it is asked for. `merge` enters the names of another table and
returns the vector that maps the numbers they had there to those they have here (`merge_spec`).
-/

namespace Lunule.Interning
open List

/-- The map from names to numbers, in the order of the names, and the next number. -/
structure Index (α : Type) where
  entries : List (α × ℕ) := []
  next : ℕ := 0

variable {α : Type} [LinearOrder α] {t other : Index α} {a : α} {i : ℕ}

def Index.find (t : Index α) (a : α) : Option ℕ := (t.entries.find? fun e => e.1 = a).map Prod.snd

/-- The name that has the number `i`. -/
def Index.name (t : Index α) (i : ℕ) : Option α :=
  if i < t.entries.length then (t.entries.find? fun e => e.2 = i).map Prod.fst else none

/-- The number of `a`, entered if it is new. -/
def Index.getId (t : Index α) (a : α) : ℕ × Index α :=
  match t.find a with
  | some i => (i, t)
  | none => (t.next, ⟨t.entries.orderedInsert (fun x y => x.1 ≤ y.1) (a, t.next), t.next + 1⟩)

def Index.mergeLoop (t : Index α) : List (α × ℕ) → List ℕ → List ℕ × Index α
  | [], ids => (ids, t)
  | e :: es, ids => (t.getId e.1).2.mergeLoop es (ids.set e.2 (t.getId e.1).1)

/-- Enters the names of `other`; position `i` of the vector is the number here of the name numbered `i` there. -/
def Index.merge (t other : Index α) : List ℕ × Index α := t.mergeLoop other.entries (replicate other.entries.length 0)

/-- Names and numbers are distinct, and the numbers are those below `next`. -/
structure Index.Sound (t : Index α) : Prop where
  names : (t.entries.map Prod.fst).Nodup
  ids : (t.entries.map Prod.snd).Nodup
  lt : ∀ e ∈ t.entries, e.2 < t.next
  size : t.entries.length = t.next

omit [LinearOrder α] in
theorem sound_empty : ({} : Index α).Sound := ⟨by simp, by simp, by simp, rfl⟩

private theorem Index.Sound.find_eq_some (h : t.Sound) : t.find a = some i ↔ (a, i) ∈ t.entries := by
  unfold Index.find
  constructor
  · intro hf
    obtain ⟨e, he, rfl⟩ := Option.map_eq_some_iff.1 hf
    obtain rfl : e.1 = a := by simpa using find?_some he
    exact mem_of_find?_eq_some he
  · intro hmem
    cases hf : t.entries.find? fun e => decide (e.1 = a) with
    | none => simpa using find?_eq_none.1 hf _ hmem
    | some e =>
      have he : e.1 = a := by simpa using find?_some hf
      simp [inj_on_of_nodup_map h.names (mem_of_find?_eq_some hf) hmem he]

omit [LinearOrder α] in
theorem Index.Sound.name_of_mem (h : t.Sound) (hmem : (a, i) ∈ t.entries) : t.name i = some a := by
  unfold Index.name
  rw [if_pos (h.size ▸ h.lt _ hmem)]
  cases hf : t.entries.find? fun e => decide (e.2 = i) with
  | none => simpa using find?_eq_none.1 hf _ hmem
  | some e =>
    have he : e.2 = i := by simpa using find?_some hf
    simp [inj_on_of_nodup_map h.ids (mem_of_find?_eq_some hf) hmem he]

theorem Index.Sound.getId (h : t.Sound) (a : α) :
    (t.getId a).2.Sound ∧ t.entries ⊆ (t.getId a).2.entries ∧ (a, (t.getId a).1) ∈ (t.getId a).2.entries := by
  unfold Index.getId
  cases hf : t.find a with
  | some i => exact ⟨h, fun _ he => he, h.find_eq_some.1 hf⟩
  | none =>
    have hperm := perm_orderedInsert (fun x y : α × ℕ => x.1 ≤ y.1) (a, t.next) t.entries
    have hmem : ∀ e, e ∈ t.entries.orderedInsert (fun x y => x.1 ≤ y.1) (a, t.next) ↔
        e = (a, t.next) ∨ e ∈ t.entries := fun e => mem_orderedInsert _
    have hnew : ∀ i, (a, i) ∉ t.entries := fun i hi => by simp [h.find_eq_some.2 hi] at hf
    refine ⟨⟨?_, ?_, ?_, ?_⟩, fun e he => (hmem e).2 (.inr he), (hmem _).2 (.inl rfl)⟩
    · refine ((hperm.map Prod.fst).nodup_iff).2 (nodup_cons.2 ⟨fun hin => ?_, h.names⟩)
      obtain ⟨⟨b, i⟩, he, rfl⟩ := mem_map.1 hin
      exact hnew i he
    · refine ((hperm.map Prod.snd).nodup_iff).2 (nodup_cons.2 ⟨fun hin => ?_, h.ids⟩)
      obtain ⟨e, he, hlast⟩ := mem_map.1 hin
      exact absurd (h.lt e he) (by simp only at hlast; omega)
    · intro e he
      rcases (hmem e).1 he with rfl | he
      · exact Nat.lt_succ_self _
      · exact Nat.lt_succ_of_lt (h.lt e he)
    · exact hperm.length_eq.trans (by rw [length_cons, h.size])

private theorem Index.Sound.mergeLoop (h : t.Sound) {es : List (α × ℕ)} (hids : (es.map Prod.snd).Nodup) (ids : List ℕ)
    (hlt : ∀ e ∈ es, e.2 < ids.length) :
    (t.mergeLoop es ids).2.Sound ∧ t.entries ⊆ (t.mergeLoop es ids).2.entries ∧
      (t.mergeLoop es ids).1.length = ids.length ∧
      (∀ e ∈ es, ∃ j, (t.mergeLoop es ids).1[e.2]? = some j ∧ (e.1, j) ∈ (t.mergeLoop es ids).2.entries) ∧
      ∀ i, i ∉ es.map Prod.snd → (t.mergeLoop es ids).1[i]? = ids[i]? := by
  induction es generalizing t ids with
  | nil => exact ⟨h, fun _ he => he, rfl, by simp, fun _ _ => rfl⟩
  | cons e es ih =>
    obtain ⟨hnot, hids⟩ := nodup_cons.1 hids
    obtain ⟨hsound, hsub, hmem⟩ := h.getId e.1
    obtain ⟨h1, h2, h3, h4, h5⟩ := ih hsound hids (ids.set e.2 (t.getId e.1).1) fun x hx => by
      rw [length_set]
      exact hlt x (mem_cons_of_mem _ hx)
    refine ⟨h1, fun x hx => h2 (hsub hx), h3.trans length_set, ?_, ?_⟩
    · intro x hx
      rcases mem_cons.1 hx with rfl | hx
      · -- the numbers that follow are other ones, so this one stays
        refine ⟨(t.getId x.1).1, ?_, h2 hmem⟩
        exact (h5 x.2 hnot).trans (by rw [getElem?_set_self (hlt x mem_cons_self)])
      · exact h4 x hx
    · intro i hi
      rw [map_cons, mem_cons, not_or] at hi
      exact (h5 i hi.2).trans (getElem?_set_ne (Ne.symm hi.1))

theorem merge_spec (h : t.Sound) (ho : other.Sound) : (t.merge other).2.Sound ∧ t.entries ⊆ (t.merge other).2.entries ∧
      (t.merge other).1.length = other.entries.length ∧
      ∀ e ∈ other.entries, ∃ j, (t.merge other).1[e.2]? = some j ∧ (e.1, j) ∈ (t.merge other).2.entries := by
  obtain ⟨h1, h2, h3, h4, -⟩ := h.mergeLoop ho.ids (replicate other.entries.length 0) fun e he => by
    rw [length_replicate, ho.size]
    exact ho.lt e he
  exact ⟨h1, h2, by rw [Index.merge, h3, length_replicate], h4⟩

end Lunule.Interning
