import Mathlib

/-!
# Striping

A line of bytes is cut into blocks of `unit` bytes; the blocks go round over `count` columns, and after `rows` rounds a new
set of columns begins. A byte thus has a column number and an offset in its column (`column`, `offset`), from which it
is found again (`byte`). Both ways are inverse to each other, and `byte` grows with the offset.

A range of one column is a sequence of ranges of the line, cut at the blocks (`ranges`). It can be built block by block
(`ranges_append`), and read byte by byte it is `byte` of each offset (`bytes_ranges`).
-/

namespace Lunule.Striping
open List

structure Grid where
  unit : ℕ
  count : ℕ
  rows : ℕ
  unit_pos : 0 < unit
  count_pos : 0 < count
  rows_pos : 0 < rows

variable (g : Grid) (f : ℕ)

/-- The column of the byte `f`. -/
def Grid.column : ℕ := f / g.unit / g.count / g.rows * g.count + f / g.unit % g.count

/-- The offset of the byte `f` in its column. -/
def Grid.offset : ℕ := f / g.unit / g.count % g.rows * g.unit + f % g.unit

/-- The byte at the offset `x` of the column `c`. -/
def Grid.byte (c x : ℕ) : ℕ := ((x / g.unit + c / g.count * g.rows) * g.count + c % g.count) * g.unit + x % g.unit

theorem mul_add_div {a b n : ℕ} (h : b < n) : (a * n + b) / n = a := by
  rw [mul_comm, Nat.mul_add_div (by omega), Nat.div_eq_of_lt h, add_zero]

private theorem mul_add_mod {a b n : ℕ} (h : b < n) : (a * n + b) % n = b := by
  rw [mul_comm, Nat.mul_add_mod, Nat.mod_eq_of_lt h]

theorem digits_lt_iff {a b c d n : ℕ} (hb : b < n) (hd : d ≤ n) : a * n + b < c * n + d ↔ a < c ∨ a = c ∧ b < d := by
  rcases lt_trichotomy a c with h | rfl | h
  · have := Nat.mul_le_mul_right n (Nat.succ_le_of_lt h)
    rw [Nat.succ_mul] at this
    omega
  · omega
  · have := Nat.mul_le_mul_right n (Nat.succ_le_of_lt h)
    rw [Nat.succ_mul] at this
    omega

private theorem digits_eq_iff {a b c d n : ℕ} (hb : b < n) (hd : d < n) : a * n + b = c * n + d ↔ a = c ∧ b = d := by
  refine ⟨fun h => ⟨?_, ?_⟩, fun h => by rw [h.1, h.2]⟩
  · simpa only [mul_add_div hb, mul_add_div hd] using congrArg (· / n) h
  · simpa only [mul_add_mod hb, mul_add_mod hd] using congrArg (· % n) h

theorem Grid.offset_lt : g.offset f < g.rows * g.unit := by
  have hrow : f / g.unit / g.count % g.rows + 1 ≤ g.rows := Nat.mod_lt _ g.rows_pos
  have hoff := Nat.mod_lt f g.unit_pos
  calc g.offset f < (f / g.unit / g.count % g.rows + 1) * g.unit := by
        rw [Nat.succ_mul]
        exact Nat.add_lt_add_left hoff _
    _ ≤ g.rows * g.unit := Nat.mul_le_mul_right _ hrow

section
variable {g}

theorem Grid.column_div : g.column f / g.count = f / g.unit / g.count / g.rows := mul_add_div (Nat.mod_lt _ g.count_pos)

theorem Grid.column_mod : g.column f % g.count = f / g.unit % g.count := mul_add_mod (Nat.mod_lt _ g.count_pos)

theorem Grid.offset_div : g.offset f / g.unit = f / g.unit / g.count % g.rows := mul_add_div (Nat.mod_lt _ g.unit_pos)

theorem Grid.offset_mod : g.offset f % g.unit = f % g.unit := mul_add_mod (Nat.mod_lt _ g.unit_pos)

end

theorem Grid.byte_column_offset : g.byte (g.column f) (g.offset f) = f := by
  unfold Grid.byte
  rw [column_div, column_mod, offset_div, offset_mod, Nat.mod_add_div' (f / g.unit / g.count) g.rows, Nat.div_add_mod',
    Nat.div_add_mod']

section
variable {g} {c x : ℕ}

namespace Grid

theorem byte_div : g.byte c x / g.unit = (x / g.unit + c / g.count * g.rows) * g.count + c % g.count :=
  mul_add_div (Nat.mod_lt _ g.unit_pos)

theorem byte_mod : g.byte c x % g.unit = x % g.unit := mul_add_mod (Nat.mod_lt _ g.unit_pos)

theorem byte_div_div : g.byte c x / g.unit / g.count = x / g.unit + c / g.count * g.rows := by
  rw [byte_div]
  exact mul_add_div (Nat.mod_lt _ g.count_pos)

theorem column_byte (hx : x < g.rows * g.unit) : g.column (g.byte c x) = c := by
  have hrow : x / g.unit < g.rows := (Nat.div_lt_iff_lt_mul g.unit_pos).2 hx
  unfold column
  rw [byte_div_div, add_comm (x / g.unit), mul_add_div hrow, byte_div,
    mul_add_mod (Nat.mod_lt _ g.count_pos), Nat.div_add_mod']

theorem offset_byte (hx : x < g.rows * g.unit) : g.offset (g.byte c x) = x := by
  have hrow : x / g.unit < g.rows := (Nat.div_lt_iff_lt_mul g.unit_pos).2 hx
  unfold offset
  rw [byte_div_div, add_comm (x / g.unit), mul_add_mod hrow, byte_mod, Nat.div_add_mod']

private theorem byte_add {k : ℕ} (h : x % g.unit + k < g.unit) : g.byte c (x + k) = g.byte c x + k := by
  have hx : x + k = x / g.unit * g.unit + (x % g.unit + k) := by
    rw [← add_assoc, Nat.div_add_mod']
  unfold byte
  rw [hx, mul_add_div h, mul_add_mod h]
  omega

theorem byte_lt_byte_iff {y : ℕ} : g.byte c x < g.byte c y ↔ x < y := by
  have hpos := Nat.mod_lt c g.count_pos
  have hoff := fun z => Nat.mod_lt z g.unit_pos
  unfold byte
  rw [digits_lt_iff (hoff x) (hoff y).le, digits_lt_iff hpos hpos.le, digits_eq_iff hpos hpos]
  conv_rhs => rw [← Nat.div_add_mod' x g.unit, ← Nat.div_add_mod' y g.unit, digits_lt_iff (hoff x) (hoff y).le]
  omega

/-- Bytes lie in the order of their sets, rows, columns and offsets in the block. -/
theorem byte_lt_iff {d y : ℕ} (hx : x < g.rows * g.unit) (hy : y < g.rows * g.unit) : g.byte c x < g.byte d y ↔
    c / g.count < d / g.count ∨ c / g.count = d / g.count ∧ (x / g.unit < y / g.unit ∨ x / g.unit = y / g.unit ∧
      (c % g.count < d % g.count ∨ c % g.count = d % g.count ∧ x % g.unit < y % g.unit)) := by
  have hpos := fun z => Nat.mod_lt z g.count_pos
  have hoff := fun z => Nat.mod_lt z g.unit_pos
  have hrow := (Nat.div_lt_iff_lt_mul g.unit_pos).2 hx
  have hrow' := (Nat.div_lt_iff_lt_mul g.unit_pos).2 hy
  unfold byte
  rw [digits_lt_iff (hoff x) (hoff y).le, digits_lt_iff (hpos c) (hpos d).le, digits_eq_iff (hpos c) (hpos d),
    add_comm (x / g.unit), add_comm (y / g.unit), digits_lt_iff hrow hrow'.le, digits_eq_iff hrow hrow']
  tauto

theorem byte_le_byte_iff {y : ℕ} : g.byte c x ≤ g.byte c y ↔ x ≤ y := by
  rw [← not_lt, ← not_lt, byte_lt_byte_iff]

theorem column_add {f k : ℕ} (h : f % g.unit + k < g.unit) : g.column (f + k) = g.column f := by
  have hdiv : (f + k) / g.unit = f / g.unit := by
    conv_lhs => rw [← Nat.div_add_mod' f g.unit, add_assoc]
    exact mul_add_div h
  unfold column
  rw [hdiv]

theorem offset_add_le {f n : ℕ} (h : n ≤ g.unit - f % g.unit) : g.offset f + n ≤ g.rows * g.unit := by
  have hrow : f / g.unit / g.count % g.rows + 1 ≤ g.rows := Nat.mod_lt _ g.rows_pos
  have hoff := Nat.mod_lt f g.unit_pos
  have hend := Nat.mul_le_mul_right g.unit hrow
  rw [Nat.succ_mul] at hend
  unfold offset
  omega

theorem mem_piece_iff {f n y : ℕ} (h : n ≤ g.unit - f % g.unit) :
    g.offset f ≤ y ∧ y < g.offset f + n ↔ f ≤ g.byte (g.column f) y ∧ g.byte (g.column f) y < f + n := by
  have hbyte := g.byte_column_offset f
  have hmod := g.offset_mod f
  constructor
  · rintro ⟨hle, hlt⟩
    have hadd := byte_add (g := g) (c := g.column f) (x := g.offset f) (k := y - g.offset f) (by omega)
    rw [Nat.add_sub_cancel' hle, hbyte] at hadd
    omega
  · rintro ⟨hle, hlt⟩
    have hy : g.offset f ≤ y := byte_le_byte_iff.1 (hbyte.le.trans hle)
    have hadd := byte_add (g := g) (c := g.column f) (x := g.offset f) (k := n - 1) (by omega)
    have hlast : g.byte (g.column f) y ≤ g.byte (g.column f) (g.offset f + (n - 1)) := by omega
    have hy' := byte_le_byte_iff.1 hlast
    omega

end Grid
end

/-!
### Ranges
-/

namespace Grid

theorem room_pos (x : ℕ) : 0 < g.unit - x % g.unit := Nat.sub_pos_of_lt (Nat.mod_lt x g.unit_pos)

/-- The ranges of the line that `n` bytes of the column `c` from the offset `x` on lie in. -/
def ranges (c x n : ℕ) : List (ℕ × ℕ) :=
  if n = 0 then []
  else
    (g.byte c x, min n (g.unit - x % g.unit)) ::
      ranges c (x + min n (g.unit - x % g.unit)) (n - min n (g.unit - x % g.unit))
  termination_by n
  decreasing_by
    have := g.room_pos x
    omega

theorem ranges_zero (c x : ℕ) : g.ranges c x 0 = [] := by
  rw [ranges, if_pos rfl]

theorem ranges_of_le {c x n : ℕ} (hn : 0 < n) (h : n ≤ g.unit - x % g.unit) : g.ranges c x n = [(g.byte c x, n)] := by
  rw [ranges, if_neg (by omega), min_eq_left h, Nat.sub_self, ranges_zero]

theorem ranges_append (c x n m : ℕ) (h : (x + n) % g.unit = 0) :
    g.ranges c x (n + m) = g.ranges c x n ++ g.ranges c (x + n) m := by
  induction n using Nat.strong_induction_on generalizing x with
  | _ n ih =>
    by_cases hn : n = 0
    · subst hn
      rw [ranges_zero, nil_append, zero_add, add_zero]
    have hroom := g.room_pos x
    -- the first block ends no later than the range
    have hle : g.unit - x % g.unit ≤ n := by
      by_contra hlt
      rw [← Nat.mod_add_mod, Nat.mod_eq_of_lt (by omega)] at h
      omega
    rw [ranges, if_neg (by omega), min_eq_right (by omega), ranges.eq_def g c x n, if_neg hn,
      min_eq_right hle, cons_append,
      show n + m - (g.unit - x % g.unit) = n - (g.unit - x % g.unit) + m by omega,
      ih (n - (g.unit - x % g.unit)) (by omega) (x + (g.unit - x % g.unit)) (by
        rw [show x + (g.unit - x % g.unit) + (n - (g.unit - x % g.unit)) = x + n by omega]
        exact h),
      show x + (g.unit - x % g.unit) + (n - (g.unit - x % g.unit)) = x + n by omega]

end Grid

def bytes (rs : List (ℕ × ℕ)) : List ℕ := rs.flatMap fun r => range' r.1 r.2

theorem bytes_cons (r : ℕ × ℕ) (rs : List (ℕ × ℕ)) : bytes (r :: rs) = range' r.1 r.2 ++ bytes rs := rfl

theorem Grid.bytes_ranges (c x n : ℕ) : bytes (g.ranges c x n) = (range' x n).map (g.byte c) := by
  induction n using Nat.strong_induction_on generalizing x with
  | _ n ih =>
    by_cases hn : n = 0
    · subst hn
      rw [Grid.ranges_zero]
      rfl
    have hroom := g.room_pos x
    obtain ⟨k, hk⟩ : ∃ k, min n (g.unit - x % g.unit) = k := ⟨_, rfl⟩
    rw [Grid.ranges, if_neg hn, hk, bytes_cons, ih (n - k) (by omega)]
    have hblock : range' (g.byte c x) k = (range' x k).map (g.byte c) := by
      rw [range'_eq_map_range, range'_eq_map_range, map_map]
      refine map_congr_left fun i hi => ?_
      rw [mem_range] at hi
      exact (Grid.byte_add (by omega)).symm
    rw [hblock, ← map_append, range'_append_1, Nat.add_sub_cancel' (by omega)]

theorem Grid.lt_of_mem_ranges {c x n : ℕ} {r : ℕ × ℕ} (h : r ∈ g.ranges c x n) : 0 < r.2 ∧ ∃ k < n, r.1 = g.byte c (x + k) := by
  induction n using Nat.strong_induction_on generalizing x with
  | _ n ih =>
    by_cases hn : n = 0
    · subst hn
      rw [Grid.ranges_zero] at h
      cases h
    have hroom := g.room_pos x
    rw [Grid.ranges, if_neg hn] at h
    rcases mem_cons.1 h with rfl | h
    · exact ⟨by show 0 < min _ _; omega, 0, by omega, rfl⟩
    · obtain ⟨hpos, k, hk, hr⟩ := ih _ (by omega) h
      exact ⟨hpos, min n (g.unit - x % g.unit) + k, by omega, by rw [hr, add_assoc]⟩

end Lunule.Striping
