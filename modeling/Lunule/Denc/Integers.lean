import Mathlib

/-!
# Compact integers

The integer encodings of `denc.h`: `denc_varint` writes seven bits a byte, and the other forms put flags below the value,
the number of zero nibbles they took from its end among them. Masks and shifts are written as remainders and quotients, and
an `or` of disjoint bits as a sum. The signed forms are for values whose shifts stay in 63 bits.
-/

namespace Lunule.Denc
open List
variable {v x k s a n : ℕ} {rest : List ℕ}

/-! ## Writing -/

/-- The loop of `denc_varint`: the high bit of a byte says that another one follows. -/
def varint (v : ℕ) : List ℕ := if v / 2 ^ 7 = 0 then [v % 2 ^ 7] else (v % 2 ^ 7 + 0x80) :: varint (v / 2 ^ 7)

/-- Trailing zero bits; 0 for 0, as the callers have it. -/
def ctz (v : ℕ) : ℕ := if v ≠ 0 ∧ v % 2 = 0 then ctz (v / 2) + 1 else 0

def signedVarint (v : ℤ) : List ℕ := varint (if v < 0 then v.natAbs * 2 + 1 else v.natAbs * 2)

def varintLowz (v : ℕ) : List ℕ :=
  let lowznib := min (ctz v / 4) 3
  varint (v / 2 ^ (lowznib * 4) * 2 ^ 2 % 2 ^ 64 + lowznib)

def signedVarintLowz (v : ℤ) : List ℕ :=
  let lowznib := min (ctz v.natAbs / 4) 3
  varint (v.natAbs / 2 ^ (lowznib * 4) * 2 ^ 3 + lowznib * 2 + if v < 0 then 1 else 0)

def le32 (word : ℕ) : List ℕ := [word % 2 ^ 8, word / 2 ^ 8 % 2 ^ 8, word / 2 ^ 16 % 2 ^ 8, word / 2 ^ 24 % 2 ^ 8]

/-- What `denc_lba` writes of `v`, below the tag `word` of `pos` bits. -/
def lbaWord (v pos word : ℕ) : List ℕ :=
  let word := word + v * 2 ^ pos % 2 ^ 31
  if v / 2 ^ (31 - pos) = 0 then le32 word else le32 (word + 2 ^ 31) ++ varint (v / 2 ^ (31 - pos))

def lba (v : ℕ) : List ℕ :=
  let low_zero_nibbles := ctz v / 4
  if low_zero_nibbles < 3 then lbaWord v 3 7
  else if low_zero_nibbles < 6 then
    lbaWord (v / 2 ^ (low_zero_nibbles * 4)) (low_zero_nibbles - 2) (2 ^ (low_zero_nibbles - 3) - 1)
  else lbaWord (v / 2 ^ 20) 3 3

/-- What the `size_t` overloads add: `denc_varint` of `size` bytes, and all other forms. -/
def varintBound (size : ℕ) : ℕ := size + 1
def bound : ℕ := 8 + 2

/-! ## Reading -/

/-- The loop of the reader, from `shift` on. -/
def readVarint (shift v : ℕ) : List ℕ → Option (ℕ × List ℕ)
  | [] => none
  | byte :: p =>
    let v := v ||| (byte % 2 ^ 7) <<< shift
    if byte / 2 ^ 7 = 1 then readVarint (shift + 7) v p else some (v % 2 ^ 64, p)

def readSigned (i : ℕ) : ℤ := if i % 2 = 1 then -(i / 2 : ℕ) else (i / 2 : ℕ)

def readLowz (i : ℕ) : ℕ := i / 2 ^ 2 * 2 ^ (i % 4 * 4) % 2 ^ 64

def readSignedLowz (i : ℕ) : ℤ :=
  let v : ℕ := i / 2 ^ 3 * 2 ^ (i / 2 % 4 * 4)
  if i % 2 = 1 then -v else v

/-- The value in the word and the shift of what follows it, by the tag. -/
def lbaFields (word : ℕ) : ℕ × ℕ :=
  if word % 2 = 0 then (word % 2 ^ 31 / 2 ^ 1 * 2 ^ 12, 12 + 30)
  else if word % 4 = 1 then (word % 2 ^ 31 / 2 ^ 2 * 2 ^ 16, 16 + 29)
  else if word % 8 = 3 then (word % 2 ^ 31 / 2 ^ 3 * 2 ^ 20, 20 + 28)
  else (word % 2 ^ 31 / 2 ^ 3, 28)

def readLba : List ℕ → Option (ℕ × List ℕ)
  | b₀ :: b₁ :: b₂ :: b₃ :: p =>
    let word := b₀ + b₁ * 2 ^ 8 + b₂ * 2 ^ 16 + b₃ * 2 ^ 24
    let fields := lbaFields word
    if word / 2 ^ 31 = 1 then readVarint fields.2 fields.1 p else some (fields.1, p)
  | _ => none

/-! ## The bounds -/

private theorem varint_ne_nil : varint v ≠ [] := by
  rw [varint]
  split_ifs <;> simp

private theorem length_varint_le : (varint v).length ≤ k + 1 ↔ v < 2 ^ (7 * (k + 1)) := by
  induction k generalizing v with
  | zero =>
    rw [varint]
    split_ifs with h
    · simp only [length_singleton]
      omega
    · have := length_pos_iff.mpr (varint_ne_nil (v := v / 2 ^ 7))
      simp only [length_cons]
      omega
  | succ k ih =>
    have hdiv : v / 2 ^ 7 < 2 ^ (7 * (k + 1)) ↔ v < 2 ^ (7 * (k + 1 + 1)) := by
      rw [Nat.div_lt_iff_lt_mul (by decide), ← Nat.pow_add]
      rfl
    rw [varint, ← hdiv]
    split_ifs with h
    · rw [h]
      simp
    · simpa using ih

private theorem length_varint (h : v < 2 ^ (7 * (k + 1))) : (varint v).length ≤ k + 1 := length_varint_le.mpr h

private theorem length_lbaWord {pos tag : ℕ} (hx : x < 2 ^ 64) (hpos : pos ≤ 3) :
    (lbaWord x pos tag).length ≤ bound := by
  have hpow : 2 ^ 28 ≤ 2 ^ (31 - pos) := Nat.pow_le_pow_right (by decide) (by omega)
  have hdiv := Nat.div_le_div_left hpow (by decide) (a := x)
  have hlen : (varint (x / 2 ^ (31 - pos))).length ≤ 5 + 1 := length_varint (by omega)
  simp only [lbaWord]
  split_ifs
  · simp [le32, bound]
  · simp [le32, bound]
    omega

private theorem length_lba (hv : v < 2 ^ 64) : (lba v).length ≤ bound := by
  have hdiv (n : ℕ) : v / n < 2 ^ 64 := (Nat.div_le_self v n).trans_lt hv
  unfold lba
  dsimp only
  split_ifs
  · exact length_lbaWord hv le_rfl
  · exact length_lbaWord (hdiv _) (by omega)
  · exact length_lbaWord (hdiv _) le_rfl

/-- `denc_varint` stays in its bound, but for the values of 64 bits from `2 ^ 63` on, and every other form does. -/
theorem encoders_in_bound (v : ℕ) (z : ℤ) :
    (∀ w ∈ [8, 16, 32, 64], v < 2 ^ w → ((varint v).length ≤ varintBound (w / 8) ↔ (w = 64 → v < 2 ^ 63))) ∧
      (v < 2 ^ 64 → (varintLowz v).length ≤ bound) ∧ (v < 2 ^ 64 → (lba v).length ≤ bound) ∧
      (z.natAbs < 2 ^ 62 → (signedVarint z).length ≤ bound) ∧
      (z.natAbs < 2 ^ 60 → (signedVarintLowz z).length ≤ bound) := by
  refine ⟨?_, fun hv => length_varint (by omega), length_lba, fun hz => length_varint ?_, fun hz => length_varint ?_⟩
  · simp only [forall_mem_cons, not_mem_nil, false_imp_iff, implies_true, and_true, varintBound, length_varint_le]
    refine ⟨?_, ?_, ?_, ?_⟩ <;> simp <;> omega
  · split_ifs <;> omega
  · have := Nat.div_le_self z.natAbs (2 ^ (min (ctz z.natAbs / 4) 3 * 4))
    split_ifs <;> omega

theorem encoders_in_bound_max : (varint (2 ^ 63 - 1)).length ≤ 9 ∧ (lba (2 ^ 64 - 1)).length ≤ 10 :=
  ⟨((encoders_in_bound _ 0).1 64 (by simp) (by decide)).mpr fun _ => by decide,
    (encoders_in_bound _ 0).2.2.1 (by decide)⟩

/-- Ten bytes for a value of 64 bits, where room for nine was asked for. -/
theorem varint_exceeds_bound : (varint (2 ^ 63)).length = 10 ∧ varintBound 8 = 9 := by
  simp [varint, varintBound]

/-! ## Round trips -/

private theorem split_sum (x j s : ℕ) : x % 2 ^ j * 2 ^ s + x / 2 ^ j * 2 ^ (s + j) = x * 2 ^ s := by
  conv_rhs => rw [← Nat.div_add_mod x (2 ^ j)]
  ring

private theorem readVarint_varint (hacc : a < 2 ^ n) (hfit : a + x * 2 ^ n < 2 ^ 64) :
    readVarint n a (varint x ++ rest) = some (a + x * 2 ^ n, rest) := by
  induction x using Nat.strong_induction_on generalizing a n with
  | _ x ih =>
    have hor (y : ℕ) : a ||| y <<< n = a + y * 2 ^ n := by
      rw [Nat.or_comm, ← Nat.shiftLeft_add_eq_or_of_lt hacc, Nat.shiftLeft_eq, Nat.add_comm]
    rw [varint]
    split_ifs with h0
    · have hx : x % 2 ^ 7 = x := by omega
      simp only [singleton_append, readVarint, hx, h0, zero_ne_one, if_false, hor, Nat.mod_eq_of_lt hfit]
    have hsum : a + x % 2 ^ 7 * 2 ^ n + x / 2 ^ 7 * 2 ^ (n + 7) = a + x * 2 ^ n := by rw [Nat.add_assoc, split_sum]
    have hlow : a + x % 2 ^ 7 * 2 ^ n < 2 ^ (n + 7) := by
      have : x % 2 ^ 7 * 2 ^ n ≤ 127 * 2 ^ n := Nat.mul_le_mul_right _ (by omega)
      rw [Nat.pow_add]
      omega
    have hbyte : (x % 2 ^ 7 + 0x80) / 2 ^ 7 = 1 ∧ (x % 2 ^ 7 + 0x80) % 2 ^ 7 = x % 2 ^ 7 := by omega
    simp only [cons_append, readVarint, hbyte, if_true, hor]
    rw [ih _ (by omega) hlow (hsum ▸ hfit), hsum]

private theorem readVarint_zero (hx : x < 2 ^ 64) : readVarint 0 0 (varint x ++ rest) = some (x, rest) := by
  simpa using readVarint_varint (x := x) (a := 0) (n := 0) (by decide) (by omega)

private theorem two_pow_ctz_dvd (v : ℕ) : 2 ^ ctz v ∣ v := by
  fun_induction ctz v with
  | case1 v h ih =>
    obtain ⟨m, hm⟩ := ih
    exact ⟨m, by rw [Nat.pow_succ, Nat.mul_right_comm, ← hm]; omega⟩
  | case2 v h => exact one_dvd v

private theorem div_nibbles (hn : n ≤ ctz v / 4) : v / 2 ^ (n * 4) * 2 ^ (n * 4) = v :=
  Nat.div_mul_cancel ((Nat.pow_dvd_pow 2 (by omega)).trans (two_pow_ctz_dvd v))

private theorem exists_nibbles (v : ℕ) :
    ∃ n q, min (ctz v / 4) 3 = n ∧ v / 2 ^ (n * 4) = q ∧ q * 2 ^ (n * 4) = v ∧ q ≤ v ∧ n ≤ 3 :=
  ⟨_, _, rfl, rfl, div_nibbles (min_le_left ..), Nat.div_le_self .., min_le_right ..⟩

private theorem readLba_le32 {word : ℕ} (h : word < 2 ^ 32) : readLba (le32 word ++ rest) =
    if word / 2 ^ 31 = 1 then readVarint (lbaFields word).2 (lbaFields word).1 rest else some ((lbaFields word).1, rest) := by
  have hword : word % 2 ^ 8 + word / 2 ^ 8 % 2 ^ 8 * 2 ^ 8 + word / 2 ^ 16 % 2 ^ 8 * 2 ^ 16 +
      word / 2 ^ 24 % 2 ^ 8 * 2 ^ 24 = word := by omega
  rw [le32, cons_append, cons_append, cons_append, cons_append, nil_append, readLba, hword]

/-- A word and what follows it are read back as `x` with `s` zeros below it, if the tag says so. -/
theorem readLba_lbaWord {tag : ℕ} (hx : x * 2 ^ s = v) (hv : v < 2 ^ 64) (hk : k ≤ 31) (htag : tag < 2 ^ k)
    (hfields : ∀ word, word % 2 ^ k = tag → lbaFields word = (word % 2 ^ 31 / 2 ^ k * 2 ^ s, s + (31 - k))) :
    readLba (lbaWord x k tag ++ rest) = some (v, rest) := by
  obtain ⟨j, hj⟩ := Nat.exists_eq_add_of_le hk
  have hpow : 2 ^ 31 = 2 ^ j * 2 ^ k := by rw [hj, Nat.add_comm, Nat.pow_add]
  have hlow : x * 2 ^ k % 2 ^ 31 = x % 2 ^ j * 2 ^ k := by rw [hpow, Nat.mul_mod_mul_right]
  have hmod (y : ℕ) : (tag + y * 2 ^ k) % 2 ^ k = tag := by rw [Nat.add_mul_mod_self_right, Nat.mod_eq_of_lt htag]
  have hdiv : (tag + x % 2 ^ j * 2 ^ k) / 2 ^ k = x % 2 ^ j := by
    rw [Nat.add_mul_div_right _ _ (Nat.two_pow_pos k), Nat.div_eq_of_lt htag, Nat.zero_add]
  have hlt : tag + x % 2 ^ j * 2 ^ k < 2 ^ 31 := by
    rw [hpow, ← Nat.div_lt_iff_lt_mul (Nat.two_pow_pos k), hdiv]
    exact Nat.mod_lt _ (Nat.two_pow_pos j)
  have hsum : x % 2 ^ j * 2 ^ s + x / 2 ^ j * 2 ^ (s + j) = v := by rw [split_sum, hx]
  unfold lbaWord
  rw [hlow, show 31 - k = j by omega]
  rw [show 31 - k = j by omega] at hfields
  split_ifs with h0
  · rw [readLba_le32 (by omega), if_neg (by omega), hfields _ (hmod _), Nat.mod_eq_of_lt hlt, hdiv, ← hsum, h0]
    simp
  have hflag : tag + x % 2 ^ j * 2 ^ k + 2 ^ 31 = tag + (x % 2 ^ j + 2 ^ j) * 2 ^ k := by rw [hpow]; ring
  rw [append_assoc, readLba_le32 (by omega), if_pos (by omega), hfields _ (hflag ▸ hmod _), Nat.add_mod_right,
    Nat.mod_eq_of_lt hlt, hdiv, ← hsum]
  refine readVarint_varint ?_ (hsum ▸ hv)
  rw [Nat.pow_add, Nat.mul_comm]
  exact Nat.mul_lt_mul_of_pos_left (Nat.mod_lt _ (Nat.two_pow_pos j)) (Nat.two_pow_pos s)

private theorem readLba_lba (hv : v < 2 ^ 64) : readLba (lba v ++ rest) = some (v, rest) := by
  unfold lba
  dsimp only
  split_ifs with h3 h6
  · refine readLba_lbaWord (s := 0) (Nat.mul_one v) hv (by decide) (by decide) fun word hw => ?_
    rw [lbaFields, if_neg (by omega), if_neg (by omega), if_neg (by omega), Nat.pow_zero, Nat.mul_one]
  · obtain h | h | h : ctz v / 4 = 3 ∨ ctz v / 4 = 4 ∨ ctz v / 4 = 5 := by omega
    all_goals
      rw [h]
      refine readLba_lbaWord (div_nibbles h.ge) hv (by decide) (by decide) fun word hw => ?_
    · rw [lbaFields, if_pos (by omega)]
    · rw [lbaFields, if_neg (by omega), if_pos (by omega)]
    · rw [lbaFields, if_neg (by omega), if_neg (by omega), if_pos (by omega)]
  · refine readLba_lbaWord (div_nibbles (n := 5) (by omega)) hv (by decide) (by decide) fun word hw => ?_
    rw [lbaFields, if_neg (by omega), if_neg (by omega), if_pos (by omega)]

/-- What a form writes is read back, up to the first byte behind it. -/
theorem encoders_round_trip (rest : List ℕ) :
    (∀ v < 2 ^ 64, readVarint 0 0 (varint v ++ rest) = some (v, rest)) ∧
      (∀ v < 2 ^ 64, readLba (lba v ++ rest) = some (v, rest)) ∧
      (∀ v < 2 ^ 62, (readVarint 0 0 (varintLowz v ++ rest)).map (Prod.map readLowz id) = some (v, rest)) ∧
      (∀ v : ℤ, v.natAbs < 2 ^ 62 → (readVarint 0 0 (signedVarint v ++ rest)).map (Prod.map readSigned id) = some (v, rest)) ∧
      ∀ v : ℤ, v.natAbs < 2 ^ 60 →
        (readVarint 0 0 (signedVarintLowz v ++ rest)).map (Prod.map readSignedLowz id) = some (v, rest) := by
  refine ⟨fun v => readVarint_zero, fun v => readLba_lba, fun v hv => ?_, fun v hv => ?_, fun v hv => ?_⟩
  · obtain ⟨n, q, hn, hq, hback, hle, hthree⟩ := exists_nibbles v
    simp only [varintLowz, hn, hq]
    have hi : (q * 2 ^ 2 % 2 ^ 64 + n) / 2 ^ 2 = q ∧ (q * 2 ^ 2 % 2 ^ 64 + n) % 4 = n := by omega
    rw [readVarint_zero (by omega), Option.map_some, Prod.map_apply, readLowz, hi.1, hi.2, hback, Nat.mod_eq_of_lt (by omega)]
    rfl
  · rw [signedVarint, readVarint_zero (by split_ifs <;> omega), Option.map_some, Prod.map_apply, readSigned, id]
    congr 2
    split_ifs <;> omega
  · obtain ⟨n, q, hn, hq, hback, hle, hthree⟩ := exists_nibbles v.natAbs
    simp only [signedVarintLowz, hn, hq]
    obtain ⟨b, hb, hi⟩ : ∃ b, (if v < 0 then 1 else 0) = b ∧ (q * 2 ^ 3 + n * 2 + b) / 2 ^ 3 = q ∧
        (q * 2 ^ 3 + n * 2 + b) / 2 % 4 = n ∧ (q * 2 ^ 3 + n * 2 + b) % 2 = b := ⟨_, rfl, by split_ifs <;> omega⟩
    rw [hb, readVarint_zero (by split_ifs at hb <;> omega), Option.map_some, Prod.map_apply, readSignedLowz, hi.1, hi.2.1,
      hi.2.2, hback, id]
    congr 2
    split_ifs at * <;> omega

end Lunule.Denc
