import Mathlib

/-!
# The first maximum of a list

A scan that keeps the first of the largest entries of a list ends at the index `k` with smaller entries before it and none
larger after it (`IsFirstMax`), which is unique. If the list changes in one place only, the index moves to or from that place and
nowhere else: for an entry replaced by a larger one (`IsFirstMax.eq_of_set`), for one added at the end
(`IsFirstMax.eq_of_concat`) and for one taken out (`IsFirstMax.eq_of_eraseIdx`).
-/

namespace Lunule.FirstMax
open List
variable {α : Type} [LinearOrder α] {l : List α} {j k k' : ℕ} {m m' v : α}

/-- The largest entry is `m`, and `k` is the first index that has it. -/
structure IsFirstMax (l : List α) (k : ℕ) (m : α) : Prop where
  at_index : l[k]? = some m
  before : ∀ i < k, ∀ a, l[i]? = some a → a < m
  le : ∀ (i : ℕ) (a : α), l[i]? = some a → a ≤ m

/-- The scan from the index `i` on, with the best entry so far and its index. -/
def scan : List α → ℕ → ℕ → α → ℕ
  | [], _, high, _ => high
  | d :: l, i, high, best => if i = 0 ∨ best < d then scan l (i + 1) i d else scan l (i + 1) high best

private theorem IsFirstMax.unique (h : IsFirstMax l k m) (h' : IsFirstMax l k' m') : k = k' := by
  rcases lt_trichotomy k k' with hlt | heq | hlt
  · exact absurd (h'.before k hlt m h.at_index) (not_lt.2 (h.le k' m' h'.at_index))
  · exact heq
  · exact absurd (h.before k' hlt m' h'.at_index) (not_lt.2 (h'.le k m h.at_index))

private theorem isFirstMax_singleton (v : α) : IsFirstMax [v] 0 v :=
  ⟨rfl, fun i hi => absurd hi (Nat.not_lt_zero i), fun i a h => by
    cases i with
    | zero => simp_all
    | succ i => simp at h⟩

theorem IsFirstMax.lt_length (h : IsFirstMax l k m) : k < l.length := (List.getElem?_eq_some_iff.1 h.at_index).1

omit [LinearOrder α] in
private theorem getElem?_concat {i : ℕ} {a : α} (h : (l ++ [v])[i]? = some a) :
    l[i]? = some a ∨ i = l.length ∧ a = v := by
  rcases Nat.lt_or_ge i l.length with hi | hi
  · rw [getElem?_append_left hi] at h
    exact .inl h
  · rw [getElem?_append_right hi, getElem?_singleton] at h
    split at h
    · exact .inr ⟨by omega, (Option.some.inj h).symm⟩
    · cases h

private theorem IsFirstMax.concat_of_lt (h : IsFirstMax l k m) (hv : m < v) : IsFirstMax (l ++ [v]) l.length v where
  at_index := by simp
  before i hi a ha := by
    rw [getElem?_append_left hi] at ha
    exact (h.le i a ha).trans_lt hv
  le i a ha := by
    rcases getElem?_concat ha with h' | ⟨-, rfl⟩
    · exact ((h.le i a h').trans_lt hv).le
    · exact le_rfl

private theorem IsFirstMax.concat_of_le (h : IsFirstMax l k m) (hv : v ≤ m) : IsFirstMax (l ++ [v]) k m where
  at_index := by
    rw [getElem?_append_left h.lt_length]
    exact h.at_index
  before i hi a ha := by
    rw [getElem?_append_left (hi.trans h.lt_length)] at ha
    exact h.before i hi a ha
  le i a ha := by
    rcases getElem?_concat ha with h' | ⟨-, rfl⟩
    · exact h.le i a h'
    · exact hv

private theorem scan_spec (rest : List α) {p : List α} {high : ℕ} {best : α} (h : IsFirstMax p high best) :
    ∃ m, IsFirstMax (p ++ rest) (scan rest p.length high best) m := by
  induction rest generalizing p high best with
  | nil =>
    rw [append_nil]
    exact ⟨best, h⟩
  | cons d rest ih =>
    have hne : p.length ≠ 0 := by
      have := h.lt_length
      omega
    have hlen : (p ++ [d]).length = p.length + 1 := by simp
    rw [show p ++ d :: rest = (p ++ [d]) ++ rest by simp]
    unfold scan
    split
    · rename_i hlt
      rw [← hlen]
      exact ih (h.concat_of_lt (hlt.resolve_left hne))
    · rename_i hle
      rw [← hlen]
      exact ih (h.concat_of_le (not_lt.1 fun hlt => hle (.inr hlt)))

theorem scan_isFirstMax (hne : l ≠ []) (high : ℕ) (best : α) : ∃ m, IsFirstMax l (scan l 0 high best) m := by
  cases l with
  | nil => exact absurd rfl hne
  | cons d l =>
    exact scan_spec l (isFirstMax_singleton d)

/-!
### Changes in one place
-/

theorem IsFirstMax.eq_of_set (h : IsFirstMax l k m) (h' : IsFirstMax (l.set j v) k' m')
    (hgrow : ∀ a, l[j]? = some a → a ≤ v) (hk' : k' ≠ j) : k' = k := by
  have hsame : ∀ i, i ≠ j → (l.set j v)[i]? = l[i]? := fun i hi => getElem?_set_ne hi.symm
  have hset : ∀ a, l[j]? = some a → (l.set j v)[j]? = some v := fun a ha =>
    List.getElem?_set_self (List.getElem?_eq_some_iff.1 ha).1
  have hold : IsFirstMax l k' m' := by
    refine ⟨(hsame k' hk').symm.trans h'.at_index, fun i hi a ha => ?_, fun i a ha => ?_⟩
    · by_cases hij : i = j
      · subst hij
        exact (hgrow a ha).trans_lt (h'.before i hi v (hset a ha))
      · exact h'.before i hi a ((hsame i hij).trans ha)
    · by_cases hij : i = j
      · subst hij
        exact (hgrow a ha).trans (h'.le i v (hset a ha))
      · exact h'.le i a ((hsame i hij).trans ha)
  exact hold.unique h

theorem IsFirstMax.eq_of_concat (h : IsFirstMax l k m) (h' : IsFirstMax (l ++ [v]) k' m') : k' = l.length ∨ k' = k := by
  rcases lt_or_ge m v with hv | hv
  · exact .inl (h'.unique (h.concat_of_lt hv))
  · exact .inr (h'.unique (h.concat_of_le hv))

theorem IsFirstMax.eq_of_eraseIdx (h : IsFirstMax l k m) (h' : IsFirstMax (l.eraseIdx j) k' m') (hkj : k ≠ j) :
    k' = if k < j then k else k - 1 := by
  have hnew : IsFirstMax (l.eraseIdx j) (if k < j then k else k - 1) m := by
    refine ⟨?_, fun i hi a ha => ?_, fun i a ha => ?_⟩
    · rw [getElem?_eraseIdx, ← h.at_index]
      split
      · rfl
      · rw [if_neg (by omega), Nat.sub_add_cancel (by omega)]
    · rw [getElem?_eraseIdx] at ha
      split at ha
      · exact h.before i (by split at hi <;> omega) a ha
      · exact h.before (i + 1) (by split at hi <;> omega) a ha
    · rw [getElem?_eraseIdx] at ha
      split at ha
      · exact h.le i a ha
      · exact h.le (i + 1) a ha
  exact h'.unique hnew

end Lunule.FirstMax
