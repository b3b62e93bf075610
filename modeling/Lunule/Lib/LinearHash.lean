import Mathlib

/-!
# Linear hashing

A table of `b` bins with `2 ^ k ≤ b < 2 ^ (k + 1)` puts the key `x` into the bin named by its low `k + 1` bits if there
is such a bin, and into the one named by its low `k` bits otherwise (`bin`). Growing the table splits bins and never
moves a key between two old bins: the bin of a key in the small table is the bin of its bin in the large one
(`bin_bin`). A bin `c` is described by a number of low bits (`width`), and holds exactly the keys that agree with `c`
on them (`bin_eq_iff`).
-/

namespace Lunule.LinearHash

/-- The bin of the key `x` among `b` bins. -/
def bin (b x : ℕ) : ℕ := if x % 2 ^ (b.log2 + 1) < b then x % 2 ^ (b.log2 + 1) else x % 2 ^ b.log2

/-- The number of low bits that a key shares with the bin `c` it is in. -/
def width (b c : ℕ) : ℕ := if c % 2 ^ b.log2 < b % 2 ^ b.log2 then b.log2 + 1 else b.log2

variable {b b' c k x : ℕ}

theorem mod_two_pow_succ_cases (x k : ℕ) : x % 2 ^ (k + 1) = x % 2 ^ k ∨ x % 2 ^ (k + 1) = x % 2 ^ k + 2 ^ k := by
  have hlow : x % 2 ^ (k + 1) % 2 ^ k = x % 2 ^ k := Nat.mod_mod_of_dvd x (pow_dvd_pow 2 (Nat.le_succ k))
  rcases lt_or_ge (x % 2 ^ (k + 1)) (2 ^ k) with h | h
  · left
    rw [← hlow, Nat.mod_eq_of_lt h]
  right
  have hsub : x % 2 ^ (k + 1) % 2 ^ k = x % 2 ^ (k + 1) - 2 ^ k := by
    rw [Nat.mod_eq_sub_mod h]
    exact Nat.mod_eq_of_lt (by omega)
  omega

theorem bin_lt (hb : 0 < b) : bin b x < b := by
  unfold bin
  split
  · assumption
  · have := Nat.mod_lt x (Nat.two_pow_pos b.log2)
    have := Nat.log2_self_le hb.ne'
    omega

theorem bin_of_lt (h : x < b) : bin b x = x := by
  have hx := Nat.mod_eq_of_lt (h.trans Nat.lt_log2_self)
  unfold bin
  rw [hx, if_pos h]

private theorem bin_mod (hk : b.log2 + 1 ≤ k) : bin b (x % 2 ^ k) = bin b x := by
  have h1 := Nat.mod_mod_of_dvd x (pow_dvd_pow 2 hk)
  have h0 : x % 2 ^ k % 2 ^ b.log2 = x % 2 ^ b.log2 := Nat.mod_mod_of_dvd x (pow_dvd_pow 2 (by omega))
  unfold bin
  rw [h1, h0]

/-- Growing the table splits bins: the small table's bin can be read off the large table's. -/
theorem bin_bin (hb : 0 < b) (hbb : b ≤ b') : bin b (bin b' x) = bin b x := by
  have hlog : b.log2 ≤ b'.log2 := by
    rw [Nat.log2_eq_log_two, Nat.log2_eq_log_two]
    exact Nat.log_mono_right hbb
  rcases lt_or_eq_of_le hlog with hlt | heq
  · -- at least one more bit: whichever modulus the large table used keeps what the small one reads
    rw [bin.eq_def b' x]
    split
    · exact bin_mod (by omega)
    · exact bin_mod hlt
  rw [bin.eq_def b' x, ← heq]
  split
  · exact bin_mod le_rfl
  rename_i hge
  have hpow := Nat.log2_self_le hb.ne'
  rw [bin_of_lt (by omega)]
  unfold bin
  rw [if_neg (by omega)]

/-- The keys of a bin are those that agree with it on its `width` low bits. -/
theorem bin_eq_iff (hc : c < b) : bin b x = c ↔ x % 2 ^ width b c = c := by
  have hb : 0 < b := by omega
  have hlow := Nat.log2_self_le hb.ne'
  have hhigh : b < 2 ^ b.log2 * 2 := by
    rw [← pow_succ]
    exact Nat.lt_log2_self
  have hbmod : b % 2 ^ b.log2 = b - 2 ^ b.log2 := by
    rw [Nat.mod_eq_sub_mod hlow, Nat.mod_eq_of_lt (by omega)]
  have hcmod : c % 2 ^ b.log2 = if c < 2 ^ b.log2 then c else c - 2 ^ b.log2 := by
    split
    · exact Nat.mod_eq_of_lt ‹_›
    · rw [Nat.mod_eq_sub_mod (by omega), Nat.mod_eq_of_lt (by omega)]
  have hx := mod_two_pow_succ_cases x b.log2
  unfold bin width
  rw [hbmod, hcmod]
  split at * <;> split <;> split <;> omega

/-!
### Listing the keys of a bin

The keys of the bin `m` are among the numbers `q <<< k ||| m`, which grow with `q`.
-/

private theorem shiftLeft_or_eq (q m k : ℕ) : q <<< k ||| m = 2 ^ k * (q ||| m / 2 ^ k) + m % 2 ^ k := by
  have hm : m = (m / 2 ^ k) <<< k ||| m % 2 ^ k := by
    rw [Nat.shiftLeft_eq, mul_comm, ← Nat.two_pow_add_eq_or_of_lt (Nat.mod_lt m (Nat.two_pow_pos k)),
      Nat.div_add_mod]
  calc q <<< k ||| m = (q <<< k ||| (m / 2 ^ k) <<< k) ||| m % 2 ^ k := by
        rw [Nat.lor_assoc, ← hm]
    _ = 2 ^ k * (q ||| m / 2 ^ k) ||| m % 2 ^ k := by
        rw [← Nat.shiftLeft_or_distrib, Nat.shiftLeft_eq, mul_comm]
    _ = 2 ^ k * (q ||| m / 2 ^ k) + m % 2 ^ k := (Nat.two_pow_add_eq_or_of_lt (Nat.mod_lt m (Nat.two_pow_pos k)) _).symm

private theorem or_one_eq (q : ℕ) : q ||| 1 = 2 * (q / 2) + 1 := by
  have h := Nat.two_pow_add_eq_or_of_lt (show 1 < 2 ^ 1 by decide) (q / 2)
  have hq : q ||| 1 = 2 * (q / 2) ||| 1 := by
    apply Nat.eq_of_testBit_eq
    intro i
    cases i with
    | zero => simp
    | succ i =>
      rw [Nat.testBit_or, Nat.testBit_or, Nat.testBit_succ q, Nat.testBit_succ (2 * _),
        Nat.mul_div_cancel_left _ two_pos]
  rw [hq]
  exact h.symm

theorem shiftLeft_or_mono {q q' m : ℕ} (hm : m < 2 ^ (k + 1)) (hq : q ≤ q') : q <<< k ||| m ≤ q' <<< k ||| m := by
  rw [shiftLeft_or_eq, shiftLeft_or_eq]
  have hh : m / 2 ^ k < 2 := by
    rw [Nat.div_lt_iff_lt_mul (Nat.two_pow_pos k), mul_comm, ← pow_succ]
    exact hm
  have hor : q ||| m / 2 ^ k ≤ q' ||| m / 2 ^ k := by
    rcases Nat.lt_succ_iff_lt_or_eq.1 hh with h | h
    · rw [Nat.lt_one_iff.1 h, Nat.or_zero, Nat.or_zero]
      exact hq
    · rw [h, or_one_eq, or_one_eq]
      omega
  have := Nat.mul_le_mul_left (2 ^ k) hor
  omega

theorem eq_shiftLeft_or_bin (b x : ℕ) : x = (x >>> b.log2) <<< b.log2 ||| bin b x := by
  have hx : x = (x >>> b.log2) <<< b.log2 ||| x % 2 ^ b.log2 := by
    rw [shiftLeft_or_eq, Nat.div_eq_of_lt (Nat.mod_lt x (Nat.two_pow_pos _)), Nat.or_zero, Nat.mod_mod,
      Nat.shiftRight_eq_div_pow, Nat.div_add_mod]
  unfold bin
  split
  · apply Nat.eq_of_testBit_eq
    intro i
    simp only [Nat.testBit_or, Nat.testBit_shiftLeft, Nat.testBit_shiftRight, Nat.testBit_mod_two_pow]
    rcases lt_or_ge i b.log2 with hi | hi
    · simp [not_le.2 hi, show i < b.log2 + 1 by omega]
    · simp only [hi, Nat.add_sub_cancel' hi]
      cases x.testBit i <;> simp
  · exact hx

end Lunule.LinearHash
