import Lunule.Lib.Striping

/-!
# File ranges and object extents

`Striper::file_to_extents` cuts a range of a file into extents of the objects that hold it, and
`Striper::extent_to_file` goes back from an extent to ranges of the file. The first treats a layout with a single
object per set as if its stripe unit were the whole object; the second does not.

Numbers are 64 bits wide. They wrap where a caller's values can make them; in `file_to_extents` all but the buffer
offsets are bounded by the file offset. A failed assertion has no result. The loops take a fuel argument, which
they get as the number of bytes left.
-/

namespace Lunule.Striper
open Striping

/-- `file_layout_t`, valid in the sense of `file_layout_t::is_valid`. -/
structure FileLayout where
  stripe_unit : ℕ
  stripe_count : ℕ
  object_size : ℕ
  unit_pos : 0 < stripe_unit
  count_pos : 0 < stripe_count
  size_pos : 0 < object_size
  unit_dvd_size : stripe_unit ∣ object_size

/-- `ObjectExtent`, without the object locator, which is the same for the whole layout. -/
structure ObjectExtent (ν : Type) where
  oid : ν
  objectno : ℕ
  offset : ℕ
  length : ℕ
  truncate_size : ℕ
  buffer_extents : List (ℕ × ℕ)
  deriving DecidableEq

def objectTruncateSize (layout : FileLayout) (objectno trunc_size : ℕ) : ℕ :=
  if trunc_size = 0 ∨ trunc_size = 2 ^ 64 - 1 then trunc_size
  else
    let object_size := layout.object_size
    let su := layout.stripe_unit
    let stripe_count := layout.stripe_count
    let stripes_per_object := object_size / su
    let objectsetno := objectno / stripe_count
    let trunc_objectsetno := trunc_size / object_size / stripe_count
    if objectsetno > trunc_objectsetno then 0
    else if objectsetno < trunc_objectsetno then object_size
    else
      let trunc_blockno := trunc_size / su
      let trunc_stripeno := trunc_blockno / stripe_count
      let trunc_stripepos := trunc_blockno % stripe_count
      let trunc_objectno := trunc_objectsetno * stripe_count + trunc_stripepos
      if objectno < trunc_objectno then (trunc_stripeno % stripes_per_object + 1) * su
      else if objectno > trunc_objectno then trunc_stripeno % stripes_per_object * su
      else trunc_stripeno % stripes_per_object * su + trunc_size % su

/-- `Striper::get_num_objects`; the first sum and the last difference can wrap. -/
def getNumObjects (layout : FileLayout) (size : ℕ) : ℕ :=
  let stripe_unit := layout.stripe_unit
  let stripe_count := layout.stripe_count
  let period := layout.stripe_count * layout.object_size
  let num_periods := (size + period - 1) % 2 ^ 64 / period
  let remainder_bytes := size % period
  let remainder_objs :=
    if 0 < remainder_bytes ∧ remainder_bytes < stripe_count * stripe_unit then
      stripe_count - (remainder_bytes + stripe_unit - 1) / stripe_unit
    else 0
  (num_periods * stripe_count + (2 ^ 64 - remainder_objs)) % 2 ^ 64

variable {ν : Type} [LinearOrder ν]

/-- The extents of one object with one more piece, merged with the last extent if it touches it. -/
def addPiece (exv : List (ObjectExtent ν)) (oid : ν) (objectno x_offset x_len truncate_size buffer : ℕ) :
    List (ObjectExtent ν) :=
  match exv.getLast? with
  | some back =>
    if back.offset + back.length = x_offset then
      exv.dropLast ++ [{ back with
        length := back.length + x_len, buffer_extents := back.buffer_extents ++ [(buffer, x_len)] }]
    else exv ++ [⟨oid, objectno, x_offset, x_len, truncate_size, [(buffer, x_len)]⟩]
  | none => exv ++ [⟨oid, objectno, x_offset, x_len, truncate_size, [(buffer, x_len)]⟩]

/-- The loop of `Striper::file_to_extents`, with `su` as set before it. -/
def fileToExtentsLoop (layout : FileLayout) (object_format : ℕ → ν) (su offset trunc_size buffer_offset : ℕ) :
    ℕ → ℕ → ℕ → Std.ExtTreeMap ν (List (ObjectExtent ν)) → Option (Std.ExtTreeMap ν (List (ObjectExtent ν)))
  | _, _, 0, object_extents => some object_extents
  | 0, _, _ + 1, _ => none
  | fuel + 1, cur, left@(_ + 1), object_extents =>
    let stripe_count := layout.stripe_count
    let stripes_per_object := layout.object_size / su
    let blockno := cur / su
    let stripeno := blockno / stripe_count
    let stripepos := blockno % stripe_count
    let objectsetno := stripeno / stripes_per_object
    let objectno := objectsetno * stripe_count + stripepos
    let oid := object_format objectno
    let block_start := stripeno % stripes_per_object * su
    let block_off := cur % su
    let max := su - block_off
    let x_offset := block_start + block_off
    let x_len := if left > max then max else left
    let exv := addPiece (object_extents[oid]?.getD []) oid objectno x_offset x_len
      (objectTruncateSize layout objectno trunc_size) ((cur - offset + buffer_offset) % 2 ^ 64)
    fileToExtentsLoop layout object_format su offset trunc_size buffer_offset fuel ((cur + x_len) % 2 ^ 64)
      (left - x_len) (object_extents.insert oid exv)

/-- `Striper::file_to_extents`, with the object names as `object_format` prints them. -/
def fileToExtents (layout : FileLayout) (object_format : ℕ → ν) (offset len trunc_size buffer_offset : ℕ) :
    Option (Std.ExtTreeMap ν (List (ObjectExtent ν))) :=
  if len > 0 ∧ layout.object_size ≥ layout.stripe_unit then
    let su := if layout.stripe_count = 1 then layout.object_size else layout.stripe_unit
    fileToExtentsLoop layout object_format su offset trunc_size buffer_offset len offset len ∅
  else none

/-- `Striper::assimilate_extents`, onto an empty vector. -/
def assimilateExtents (object_extents : Std.ExtTreeMap ν (List (ObjectExtent ν))) : List (ObjectExtent ν) :=
  object_extents.toList.flatMap Prod.snd

/-- The loop of `Striper::extent_to_file`. Of its sums only `off + extent_len` is not wrapped: extents end below 2^64. -/
def extentToFileLoop (layout : FileLayout) (objectno : ℕ) : ℕ → ℕ → ℕ → ℕ → Option (List (ℕ × ℕ))
  | _, _, _, 0 => some []
  | 0, _, _, _ + 1 => none
  | fuel + 1, off, off_in_block, len@(_ + 1) =>
    let su := layout.stripe_unit
    let stripe_count := layout.stripe_count
    let stripes_per_object := layout.object_size / su
    let stripepos := objectno % stripe_count
    let objectsetno := objectno / stripe_count
    let stripeno := (off / su + objectsetno * stripes_per_object) % 2 ^ 64
    let blockno := (stripeno * stripe_count + stripepos) % 2 ^ 64
    let extent_off := (blockno * su + off_in_block) % 2 ^ 64
    let extent_len := min len (su - off_in_block)
    (extentToFileLoop layout objectno fuel (off + extent_len) 0 (len - extent_len)).map ((extent_off, extent_len) :: ·)

def extentToFile (layout : FileLayout) (objectno off len : ℕ) : Option (List (ℕ × ℕ)) :=
  if layout.object_size ≥ layout.stripe_unit then
    extentToFileLoop layout objectno len off (off % layout.stripe_unit) len
  else none

/-!
### The striping formula
-/

theorem FileLayout.unit_le_size (layout : FileLayout) : layout.stripe_unit ≤ layout.object_size :=
  Nat.le_of_dvd layout.size_pos layout.unit_dvd_size

/-- The blocks of a layout: objects are columns, with a row per stripe. -/
def FileLayout.grid (layout : FileLayout) : Grid where
  unit := layout.stripe_unit
  count := layout.stripe_count
  rows := layout.object_size / layout.stripe_unit
  unit_pos := layout.unit_pos
  count_pos := layout.count_pos
  rows_pos := Nat.div_pos layout.unit_le_size layout.unit_pos

theorem FileLayout.rows_mul_unit (layout : FileLayout) : layout.grid.rows * layout.grid.unit = layout.object_size :=
  Nat.div_mul_cancel layout.unit_dvd_size

/-- The layout with its stripe unit set to the object size. -/
def FileLayout.whole (layout : FileLayout) : FileLayout where
  stripe_unit := layout.object_size
  stripe_count := layout.stripe_count
  object_size := layout.object_size
  unit_pos := layout.size_pos
  count_pos := layout.count_pos
  size_pos := layout.size_pos
  unit_dvd_size := dvd_rfl

/-- The layout that `file_to_extents` works with. -/
def FileLayout.used (layout : FileLayout) : FileLayout := if layout.stripe_count = 1 then layout.whole else layout

section
variable {layout : FileLayout}

theorem used_of_ne (h : layout.stripe_count ≠ 1) : layout.used = layout := if_neg h

theorem used_unit : layout.used.stripe_unit =
    if layout.stripe_count = 1 then layout.object_size else layout.stripe_unit := by
  unfold FileLayout.used
  split <;> rfl

@[simp]
theorem used_count : layout.used.stripe_count = layout.stripe_count := by
  unfold FileLayout.used
  split <;> rfl

@[simp]
theorem used_size : layout.used.object_size = layout.object_size := by
  unfold FileLayout.used
  split <;> rfl

/-- With one object in a set, an object is a range of the file, whatever the stripe unit. -/
theorem byte_of_single (h : layout.stripe_count = 1) (o x : ℕ) : layout.grid.byte o x = o * layout.object_size + x := by
  show ((x / layout.stripe_unit + o / layout.stripe_count * (layout.object_size / layout.stripe_unit)) *
    layout.stripe_count + o % layout.stripe_count) * layout.stripe_unit + x % layout.stripe_unit = _
  rw [h, Nat.div_one, Nat.mul_one, Nat.mod_one, Nat.add_zero, Nat.add_mul, Nat.mul_assoc,
    Nat.div_mul_cancel layout.unit_dvd_size]
  have := Nat.div_add_mod' x layout.stripe_unit
  omega

theorem used_byte (o x : ℕ) : layout.used.grid.byte o x = layout.grid.byte o x := by
  by_cases h : layout.stripe_count = 1
  · rw [byte_of_single h, byte_of_single (used_count.trans h), used_size]
  · rw [used_of_ne h]

end
end Lunule.Striper
