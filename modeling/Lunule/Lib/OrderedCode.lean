import Mathlib

/-!
# Codes that sort

A key made by writing fields one after the other sorts like the tuple of the fields' ranks if every field's code word
decides the comparison of two keys by itself whenever the ranks differ, whatever follows (`Sorts`). Comparing two such keys
then goes field by field (`Sorts.append_lt_iff`). Numbers of fixed width are written big-endian (`bigEndian`), strings letter by
letter with a terminator below every letter (`sorts_terminated`).
-/

namespace Lunule.OrderedCode
open List
variable {α β γ : Type} [LinearOrder β] [LinearOrder γ] {P : α → Prop} {r : α → γ}

/-- On the values with `P`, code words sort like the ranks of the values, whatever follows them. -/
def Sorts (P : α → Prop) (r : α → γ) (f : α → List β) : Prop :=
  ∀ ⦃a b⦄, P a → P b → r a < r b → ∀ s t : List β, f a ++ s < f b ++ t

private theorem append_lt_append_left_iff (l s t : List β) : l ++ s < l ++ t ↔ s < t := by
  induction l with
  | nil => rfl
  | cons x l ih =>
    rw [cons_append, cons_append, cons_lt_cons_iff, ih]
    simp

theorem Sorts.append_lt_iff {f : α → List β} (hf : Sorts P r f) (hr : r.Injective) {a b : α} (ha : P a) (hb : P b)
    (s t : List β) : f a ++ s < f b ++ t ↔ r a < r b ∨ a = b ∧ s < t := by
  rcases lt_trichotomy (r a) (r b) with h | h | h
  · exact iff_of_true (hf ha hb h s t) (.inl h)
  · rw [hr h, append_lt_append_left_iff]
    simp
  · refine iff_of_false (lt_asymm (hf hb ha h t s)) ?_
    rintro (h' | ⟨rfl, -⟩)
    · exact lt_asymm h h'
    · exact lt_irrefl _ h

/-!
### Numbers
-/

/-- The low `n` bytes of `v`, the highest first. -/
def bigEndian : ℕ → ℕ → List (Fin 256)
  | 0, _ => []
  | n + 1, v => Fin.ofNat 256 (v / 256 ^ n) :: bigEndian n v

/-- The number whose bytes these are. -/
def ofBigEndian (l : List (Fin 256)) : ℕ := l.foldl (fun acc b => acc * 256 + b.val) 0

@[simp] theorem length_bigEndian (n v : ℕ) : (bigEndian n v).length = n := by
  induction n with
  | zero => rfl
  | succ n ih => simp [bigEndian, ih]

private theorem bigEndian_mod (n v : ℕ) : bigEndian n (v % 256 ^ n) = bigEndian n v := by
  suffices h : ∀ m, n ≤ m → bigEndian n (v % 256 ^ m) = bigEndian n v from h n le_rfl
  induction n with
  | zero => simp [bigEndian]
  | succ n ih =>
    intro m hm
    have hdiv : v % 256 ^ m / 256 ^ n % 256 = v / 256 ^ n % 256 := by
      obtain ⟨k, rfl⟩ : ∃ k, m = n + k := ⟨m - n, by omega⟩
      rw [pow_add, Nat.mod_mul_right_div_self]
      exact Nat.mod_mod_of_dvd _ (dvd_pow_self 256 (by omega))
    have hbyte : Fin.ofNat 256 (v % 256 ^ m / 256 ^ n) = Fin.ofNat 256 (v / 256 ^ n) := Fin.ext hdiv
    rw [bigEndian, bigEndian, ih m (by omega), hbyte]

theorem sorts_bigEndian (n : ℕ) : Sorts (· < 256 ^ n) id (bigEndian n) := by
  induction n with
  | zero =>
    intro v w hv hw (h : v < w)
    omega
  | succ n ih =>
    intro v w hv hw (h : v < w) s t
    have hpos : 0 < 256 ^ n := pow_pos (by decide) n
    have hbyte : ∀ u < 256 ^ (n + 1), u / 256 ^ n < 256 := by
      intro u hu
      rw [Nat.div_lt_iff_lt_mul hpos, Nat.mul_comm, ← pow_succ]
      exact hu
    have hval : ∀ u < 256 ^ (n + 1), (Fin.ofNat 256 (u / 256 ^ n)).val = u / 256 ^ n :=
      fun u hu => Nat.mod_eq_of_lt (hbyte u hu)
    rw [bigEndian, bigEndian, cons_append, cons_append, cons_lt_cons_iff, Fin.lt_def, Fin.ext_iff, hval v hv, hval w hw]
    rcases Nat.lt_or_eq_of_le (Nat.div_le_div_right (c := 256 ^ n) h.le) with hlt | heq
    · exact .inl hlt
    have hrest : v % 256 ^ n < w % 256 ^ n := by
      have hv' := Nat.div_add_mod v (256 ^ n)
      have hw' := Nat.div_add_mod w (256 ^ n)
      rw [heq] at hv'
      omega
    refine .inr ⟨heq, ?_⟩
    rw [← bigEndian_mod n v, ← bigEndian_mod n w]
    exact ih (Nat.mod_lt _ hpos) (Nat.mod_lt _ hpos) hrest s t

theorem ofBigEndian_bigEndian (n v : ℕ) (hv : v < 256 ^ n) : ofBigEndian (bigEndian n v) = v := by
  have hfold : ∀ n v acc, (bigEndian n v).foldl (fun acc b => acc * 256 + b.val) acc = acc * 256 ^ n + v % 256 ^ n := by
    intro n v
    induction n with
    | zero =>
      intro acc
      simp [bigEndian, Nat.mod_one]
    | succ n ih =>
      intro acc
      rw [bigEndian, foldl_cons, ih]
      have hmod : v % 256 ^ (n + 1) = v % 256 ^ n + 256 ^ n * (v / 256 ^ n % 256) := by
        rw [pow_succ, Nat.mod_mul]
      rw [hmod]
      show (acc * 256 + v / 256 ^ n % 256) * 256 ^ n + v % 256 ^ n = _
      ring
  unfold ofBigEndian
  rw [hfold, Nat.mod_eq_of_lt hv]
  omega

/-!
### Strings
-/

/-- Letters whose codes sort make strings whose codes sort, with a terminator below all of the letters' codes. -/
theorem sorts_terminated {code : α → List β} {stop : β} (hcode : Sorts P r code) (hr : r.Injective)
    (hstop : ∀ a, ∃ x l, code a = x :: l ∧ stop < x) :
    Sorts (fun s : List α => ∀ a ∈ s, P a) (map r) (fun s => s.flatMap code ++ [stop]) := by
  intro s
  induction s with
  | nil =>
    intro s' _ _ hlt u v
    cases s' with
    | nil => exact absurd hlt (lt_irrefl _)
    | cons b s' =>
      obtain ⟨x, l, hx, hlt'⟩ := hstop b
      simp only [flatMap_nil, nil_append, flatMap_cons, hx, cons_append, cons_lt_cons_iff]
      exact .inl hlt'
  | cons a s ih =>
    intro s' hs hs' hlt u v
    cases s' with
    | nil => exact absurd hlt (not_lt_nil _)
    | cons b s' =>
      simp only [flatMap_cons, append_assoc]
      rw [hcode.append_lt_iff hr (hs a mem_cons_self) (hs' b mem_cons_self)]
      rcases cons_lt_cons_iff.1 hlt with h | ⟨h, hrest⟩
      · exact .inl h
      · refine .inr ⟨hr h, ?_⟩
        have := ih (forall_mem_cons.1 hs).2 (forall_mem_cons.1 hs').2
          hrest u v
        simpa using this

end Lunule.OrderedCode
