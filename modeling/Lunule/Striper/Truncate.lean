import Lunule.Striper.Inverse

/-!
# Truncation and object counts

`Striper::object_truncate_size` and `Striper::get_num_objects` work out again where a file ends in its objects. Both compare
bytes in the order of the file, which is that of sets, rows, objects and offsets (`byte_lt_iff`). An object of a file has
bytes below `size` just if its first byte is below `size` (`Built.touches_iff`). The sum from which `get_num_objects` gets
the number of periods wraps within one period of 2^64; only for objects of one byte can the last difference undo that.
-/

namespace Lunule.Striper
open Striping List Grid
variable {layout : FileLayout} {o x size : ℕ}

private theorem grid_eq : layout.grid.unit = layout.stripe_unit ∧ layout.grid.count = layout.stripe_count ∧
    layout.grid.rows = layout.object_size / layout.stripe_unit := ⟨rfl, rfl, rfl⟩

private theorem byte_lt_iff_truncate {trunc_size : ℕ} (hzero : trunc_size ≠ 0) (hmax : trunc_size ≠ 2 ^ 64 - 1)
    (hx : x < layout.object_size) :
    layout.grid.byte o x < trunc_size ↔ x < objectTruncateSize layout o trunc_size := by
  have hset : trunc_size / layout.object_size / layout.stripe_count =
      trunc_size / layout.stripe_unit / layout.stripe_count / (layout.object_size / layout.stripe_unit) := by
    conv_lhs => rw [← Nat.div_mul_cancel layout.unit_dvd_size]
    simp only [Nat.div_div_eq_div_mul]
    congr 1
    ring
  have hlt := byte_lt_iff (g := layout.grid) (c := o) (d := layout.grid.column trunc_size)
    (hx.trans_eq layout.rows_mul_unit.symm) (layout.grid.offset_lt trunc_size)
  rw [byte_column_offset, column_div, column_mod, offset_div, offset_mod] at hlt
  simp only [grid_eq] at hlt
  unfold objectTruncateSize
  rw [if_neg (not_or.2 ⟨hzero, hmax⟩), hlt]
  simp only [hset]
  have hoff := Nat.mod_lt trunc_size layout.unit_pos
  have hrow : ∀ n, x < n * layout.stripe_unit ↔ x / layout.stripe_unit < n := fun n =>
    (Nat.div_lt_iff_lt_mul layout.unit_pos).symm
  have hend : ∀ n r, r < layout.stripe_unit → (x < n * layout.stripe_unit + r ↔
      x / layout.stripe_unit < n ∨ x / layout.stripe_unit = n ∧ x % layout.stripe_unit < r) := by
    intro n r hr
    conv_lhs => rw [← Nat.div_add_mod' x layout.stripe_unit, digits_lt_iff (Nat.mod_lt _ layout.unit_pos) hr.le]
  have ho := Nat.div_add_mod' o layout.stripe_count
  generalize trunc_size / layout.stripe_unit / layout.stripe_count / (layout.object_size / layout.stripe_unit) = set at *
  generalize trunc_size / layout.stripe_unit / layout.stripe_count % (layout.object_size / layout.stripe_unit) = row at *
  rcases lt_trichotomy (o / layout.stripe_count) set with h | rfl | h
  · rw [if_neg (by omega), if_pos h]
    exact iff_of_true (.inl h) hx
  · rw [if_neg (lt_irrefl _), if_neg (lt_irrefl _)]
    split_ifs
    · rw [hrow]
      omega
    · rw [hrow]
      omega
    · rw [hend _ _ hoff]
      omega
  · rw [if_pos h]
    omega

/-- How many objects have one of the first `size` bytes. -/
def FileLayout.numObjects (layout : FileLayout) (size : ℕ) : ℕ :=
  size / (layout.stripe_count * layout.object_size) * layout.stripe_count +
    min layout.stripe_count ((size % (layout.stripe_count * layout.object_size) + layout.stripe_unit - 1) / layout.stripe_unit)

/-- The multiple of `c` among the `c` numbers after `n`. -/
private theorem next_multiple {c m : ℕ} (n : ℕ) (hc : c ∣ m) (hlt : n < m) (hle : m ≤ n + c) : (n / c + 1) * c = m := by
  obtain ⟨d, rfl⟩ := hc
  have hpos : 0 < c := by omega
  have h1 : n / c < d := by
    rw [Nat.div_lt_iff_lt_mul hpos, Nat.mul_comm]
    exact hlt
  have h2 : d ≤ n / c + 1 := by
    by_contra h
    have h1 := Nat.mul_le_mul_left c (Nat.succ_le_of_lt (Nat.lt_of_not_le h))
    have h2 := Nat.lt_mul_div_succ n hpos
    rw [Nat.mul_succ] at h1
    omega
  rw [Nat.mul_comm, show n / c + 1 = d by omega]

/-- The objects of the last period that have no byte. -/
def FileLayout.emptyObjs (layout : FileLayout) (size : ℕ) : ℕ :=
  if 0 < size % (layout.stripe_count * layout.object_size) ∧
      size % (layout.stripe_count * layout.object_size) < layout.stripe_count * layout.stripe_unit then
    layout.stripe_count - (size % (layout.stripe_count * layout.object_size) + layout.stripe_unit - 1) / layout.stripe_unit
  else 0

private theorem ceil_div (size : ℕ) {p : ℕ} (hp : 0 < p) : (size + p - 1) / p = size / p + if 0 < size % p then 1 else 0 := by
  have hdiv := Nat.div_add_mod' size p
  have hrem := Nat.mod_lt size hp
  split_ifs with h
  · rw [show size + p - 1 = (size / p + 1) * p + (size % p - 1) by rw [Nat.succ_mul]; omega, mul_add_div (by omega)]
  · rw [show size + p - 1 = size / p * p + (p - 1) by omega, mul_add_div (by omega), Nat.add_zero]

/-- With the empty ones, the objects fill whole periods. -/
private theorem numObjects_add_emptyObjs (layout : FileLayout) (size : ℕ) : layout.numObjects size + layout.emptyObjs size =
      (size + layout.stripe_count * layout.object_size - 1) / (layout.stripe_count * layout.object_size) *
        layout.stripe_count := by
  have hunit := layout.unit_pos
  rw [ceil_div size (mul_pos layout.count_pos layout.size_pos), Nat.add_mul]
  unfold FileLayout.numObjects FileLayout.emptyObjs
  generalize size % (layout.stripe_count * layout.object_size) = r
  obtain ⟨k, hk⟩ : ∃ k, (r + layout.stripe_unit - 1) / layout.stripe_unit = k := ⟨_, rfl⟩
  have hge (n : ℕ) : n ≤ k ↔ n * layout.stripe_unit ≤ r + layout.stripe_unit - 1 := by
    rw [← hk, Nat.le_div_iff_mul_le hunit]
  have hcount := hge layout.stripe_count
  have hone := hge 1
  rw [hk]
  split_ifs <;> omega

private theorem numObjects_pos (layout : FileLayout) (hpos : 0 < size) : 0 < layout.numObjects size := by
  have hunit := layout.unit_pos
  have hc := layout.count_pos
  have hdiv := Nat.div_add_mod' size (layout.stripe_count * layout.object_size)
  unfold FileLayout.numObjects
  rcases Nat.eq_zero_or_pos (size / (layout.stripe_count * layout.object_size)) with h0 | h0
  · rw [h0, Nat.zero_mul] at hdiv
    have hone : 1 ≤ (size % (layout.stripe_count * layout.object_size) + layout.stripe_unit - 1) / layout.stripe_unit := by
      rw [Nat.le_div_iff_mul_le hunit]
      omega
    omega
  · exact Nat.lt_of_lt_of_le (mul_pos h0 hc) (Nat.le_add_right _ _)

private theorem numObjects_le (layout : FileLayout) (size : ℕ) : layout.numObjects size ≤ size := by
  have hunit := layout.unit_pos
  have hperiods := Nat.mul_le_mul_left (size / (layout.stripe_count * layout.object_size))
    (Nat.le_mul_of_pos_right layout.stripe_count layout.size_pos)
  have hrest : ∀ r, (r + layout.stripe_unit - 1) / layout.stripe_unit ≤ r := by
    intro r
    rw [Nat.div_le_iff_le_mul_add_pred hunit]
    have := Nat.le_mul_of_pos_left r hunit
    omega
  calc layout.numObjects size
      ≤ size / (layout.stripe_count * layout.object_size) * (layout.stripe_count * layout.object_size) +
          size % (layout.stripe_count * layout.object_size) := Nat.add_le_add hperiods ((min_le_right _ _).trans (hrest _))
    _ = size := Nat.div_add_mod' _ _

/-- Where the first sum wraps, `getNumObjects` counts down from 2^64. -/
private theorem getNumObjects_eq_iff (hcount : layout.stripe_count < 2 ^ 32) (hobject : layout.object_size < 2 ^ 32)
    (hpos : 0 < size) (hlt : size < 2 ^ 64) : getNumObjects layout size = layout.numObjects size ↔
      size + layout.stripe_count * layout.object_size ≤ 2 ^ 64 ∨ layout.object_size = 1 ∧ layout.stripe_count ∣ 2 ^ 64 := by
  have hsum := numObjects_add_emptyObjs layout size
  have hnum := numObjects_pos layout hpos
  have hle := numObjects_le layout size
  have hperiod := mul_pos layout.count_pos layout.size_pos
  have hfit : layout.stripe_count * layout.object_size < 2 ^ 64 := (Nat.mul_lt_mul'' hcount hobject).trans_eq (by norm_num)
  have hget : getNumObjects layout size = ((size + layout.stripe_count * layout.object_size - 1) % 2 ^ 64 /
      (layout.stripe_count * layout.object_size) * layout.stripe_count + (2 ^ 64 - layout.emptyObjs size)) % 2 ^ 64 := rfl
  by_cases hsize : size + layout.stripe_count * layout.object_size ≤ 2 ^ 64
  · refine iff_of_true ?_ (.inl hsize)
    have hempty : layout.emptyObjs size ≤ layout.stripe_count := by
      unfold FileLayout.emptyObjs
      split_ifs
      · exact Nat.sub_le _ _
      · exact Nat.zero_le _
    rw [hget, Nat.mod_eq_of_lt (by omega : _ - 1 < 2 ^ 64), ← hsum]
    omega
  have hzero : (size + layout.stripe_count * layout.object_size - 1) % 2 ^ 64 / (layout.stripe_count * layout.object_size) = 0 :=
    Nat.div_eq_of_lt (by omega)
  have hall : getNumObjects layout size = layout.numObjects size ↔
      (size + layout.stripe_count * layout.object_size - 1) / (layout.stripe_count * layout.object_size) *
        layout.stripe_count = 2 ^ 64 := by
    rw [hget, hzero, ← hsum]
    omega
  rw [hall]
  simp only [hsize, false_or]
  constructor
  · intro heq
    refine ⟨?_, _, by rw [Nat.mul_comm]; exact heq.symm⟩
    have hmul := Nat.div_mul_le_self (size + layout.stripe_count * layout.object_size - 1)
      (layout.stripe_count * layout.object_size)
    rw [← Nat.mul_assoc, heq] at hmul
    have := layout.size_pos
    omega
  · rintro ⟨hos, hdvd⟩
    rw [hos, Nat.mul_one] at hsize ⊢
    have hnext := next_multiple (size - 1) hdvd (by omega) (by omega)
    rwa [show size + layout.stripe_count - 1 = size - 1 + layout.stripe_count by omega,
      Nat.add_div_right _ layout.count_pos]

private theorem byte_zero_lt_iff :
    layout.grid.byte o 0 < size ↔ o < layout.numObjects size := by
  have hpos := Nat.mod_lt o layout.count_pos
  have hperiod := mul_pos layout.count_pos layout.size_pos
  have hbyte : layout.grid.byte o 0 = o / layout.stripe_count * (layout.stripe_count * layout.object_size) +
      o % layout.stripe_count * layout.stripe_unit := by
    rw [← layout.rows_mul_unit, Grid.byte, Nat.zero_div, Nat.zero_mod]
    simp only [grid_eq]
    ring
  have hlt := (mul_lt_mul_of_pos_right hpos layout.unit_pos).trans_le (Nat.mul_le_mul_left _ layout.unit_le_size)
  have hceil : ∀ r, o % layout.stripe_count * layout.stripe_unit < r ↔
      o % layout.stripe_count < (r + layout.stripe_unit - 1) / layout.stripe_unit := by
    intro r
    have := layout.unit_pos
    rw [← Nat.succ_le_iff (n := (r + _ - 1) / _), Nat.le_div_iff_mul_le layout.unit_pos, Nat.succ_mul]
    omega
  rw [FileLayout.numObjects, hbyte]
  conv_lhs => rw [← Nat.div_add_mod' size (layout.stripe_count * layout.object_size),
    digits_lt_iff hlt (Nat.mod_lt _ hperiod).le, hceil]
  conv_rhs => rw [← Nat.div_add_mod' o layout.stripe_count, digits_lt_iff hpos (min_le_left _ _), Nat.lt_min]
  tauto

variable {ν : Type} [LinearOrder ν] {object_format : ℕ → ν} {trunc_size buffer_offset : ℕ}
  {m : Std.ExtTreeMap ν (List (ObjectExtent ν))}

private theorem Built.touches_iff (hb : Built layout object_format 0 trunc_size buffer_offset (0 + size) m)
    (hformat : Function.Injective object_format) :
    (∃ e ∈ assimilateExtents m, e.objectno = o) ↔ layout.grid.byte o 0 < size := by
  constructor
  · rintro ⟨e, he, rfl⟩
    have hext := hb.isExtentOf he
    have hfirst := (hext.byte_mem hext.length_pos).2
    rw [used_byte, zero_add] at hfirst
    exact (byte_le_byte_iff.2 (Nat.zero_le _)).trans_lt hfirst
  · intro _
    obtain ⟨exv, hexv⟩ := hb.covers (layout.grid.byte o 0) (Nat.zero_le _) (by omega)
    obtain ⟨o', e, ho, rfl, he⟩ := hb.extent _ _ hexv
    rw [← used_byte, column_byte (by rw [used_rows]; exact layout.size_pos)] at ho
    refine ⟨e, mem_assimilateExtents.2 ⟨_, _, hexv, mem_singleton_self e⟩, ?_⟩
    rw [he.objectno]
    exact (hformat ho).symm

/-- A byte of an object lies below `trunc_size` in the file just if it lies below the truncate size of the object. And
`get_num_objects` is one more than the largest object of the first `size` bytes just if the end of the next period is at most
2^64, or the objects have one byte each and their number in a set divides 2^64. -/
theorem truncation_agrees (layout : FileLayout) (object_format : ℕ → ν) (hformat : Function.Injective object_format) :
    (∀ trunc_size, trunc_size ≠ 0 → trunc_size ≠ 2 ^ 64 - 1 → ∀ o, ∀ x < layout.object_size,
      (layout.grid.byte o x < trunc_size ↔ x < objectTruncateSize layout o trunc_size)) ∧
    (layout.stripe_count < 2 ^ 32 → layout.object_size < 2 ^ 32 → ∀ size trunc_size buffer_offset, 0 < size → size < 2 ^ 64 →
      ((∃ m, fileToExtents layout object_format 0 size trunc_size buffer_offset = some m ∧
        (∀ e ∈ assimilateExtents m, e.objectno + 1 ≤ getNumObjects layout size) ∧
        ∃ e ∈ assimilateExtents m, e.objectno + 1 = getNumObjects layout size) ↔
      size + layout.stripe_count * layout.object_size ≤ 2 ^ 64 ∨
        layout.object_size = 1 ∧ layout.stripe_count ∣ 2 ^ 64)) := by
  refine ⟨fun trunc_size hzero hmax o x hx => byte_lt_iff_truncate hzero hmax hx, ?_⟩
  intro hcount hobject size trunc_size buffer_offset hpos hsize
  obtain ⟨m, hm, hb⟩ : ∃ m, fileToExtents layout object_format 0 size trunc_size buffer_offset = some m ∧
      Built layout object_format 0 trunc_size buffer_offset (0 + size) m := fileToExtents_spec hformat hpos (by omega)
  have htouch : ∀ o, (∃ e ∈ assimilateExtents m, e.objectno = o) ↔ o < layout.numObjects size := fun o =>
    (hb.touches_iff hformat).trans byte_zero_lt_iff
  have hfirst : 0 < layout.numObjects size := numObjects_pos layout hpos
  obtain ⟨last, hlast, hnum⟩ := (htouch (layout.numObjects size - 1)).2 (by omega)
  rw [← getNumObjects_eq_iff hcount hobject hpos hsize]
  constructor
  · rintro ⟨m', hm', hall, e, he, heq⟩
    obtain rfl : m = m' := Option.some.inj (hm.symm.trans hm')
    have h1 := (htouch _).1 ⟨e, he, rfl⟩
    have h2 := hall last hlast
    omega
  · intro heq
    rw [heq]
    exact ⟨m, hm, fun e he => (htouch _).1 ⟨e, he, rfl⟩, last, hlast, by omega⟩

/-- Ten bytes over objects of two blocks of two bytes, two in a set. -/
theorem truncation_agrees_ten :
    let layout : FileLayout := ⟨2, 2, 4, by decide, by decide, by decide, by decide⟩
    (layout.grid.byte 1 2 < 9 ↔ 2 < objectTruncateSize layout 1 9) ∧
    ∃ m, fileToExtents layout id 0 10 0 0 = some m ∧ ∃ e ∈ assimilateExtents m, e.objectno + 1 = 3 := by
  intro layout
  obtain ⟨htrunc, hnum⟩ := truncation_agrees layout id Function.injective_id
  obtain ⟨m, hm, -, hlast⟩ := (hnum (by decide) (by decide) 10 0 0 (by decide) (by decide)).mpr (.inl (by decide))
  rw [show getNumObjects layout 10 = 3 by decide] at hlast
  exact ⟨htrunc 9 (by decide) (by decide) 1 2 (by decide), m, hm, hlast⟩

/-- Within a period of 2^64 the count of a file that has objects is 0. -/
theorem getNumObjects_wraps : ∃ (layout : FileLayout) (m : _), fileToExtents layout id 0 (2 ^ 64 - 1) 0 0 = some m ∧
    getNumObjects layout (2 ^ 64 - 1) = 0 ∧ ∃ e ∈ assimilateExtents m, e.objectno = 0 := by
  obtain ⟨layout, hlayout⟩ : ∃ layout : FileLayout, layout = ⟨65536, 1, 65536, by decide, by decide, by decide, by decide⟩ :=
    ⟨_, rfl⟩
  obtain ⟨m, hm, hb⟩ : ∃ m, fileToExtents layout id 0 (2 ^ 64 - 1) 0 0 = some m ∧
      Built layout id 0 0 0 (0 + (2 ^ 64 - 1)) m := fileToExtents_spec Function.injective_id (by decide) (by decide)
  exact ⟨layout, m, hm, hlayout ▸ rfl, (hb.touches_iff Function.injective_id).2 (by simp [Grid.byte])⟩

end Lunule.Striper
