import Lunule.Striper.Basic

/-!
# The two directions of the striper

`extent_to_file` computes the ranges of an extent (`extentToFile_eq`). In `file_to_extents`, after the bytes up to `cur`,
an object that has any of them has exactly one extent, which holds them all, and its buffer extents are the ranges of
that extent (`Built`): the next piece of the object starts where the extent ends, because the bytes of an object lie in
the file in the order of their offsets.
-/

namespace Lunule.Striper
open Striping List Grid

/-!
### From an extent to the file
-/

private theorem le_byte (layout : FileLayout) (o x : ℕ) :
    x / layout.stripe_unit + o / layout.stripe_count * (layout.object_size / layout.stripe_unit) ≤
      layout.grid.byte o x / layout.stripe_unit ∧
    layout.grid.byte o x / layout.stripe_unit ≤ layout.grid.byte o x := by
  refine ⟨?_, Nat.div_le_self _ _⟩
  have hdiv := byte_div_div (g := layout.grid) (c := o) (x := x)
  calc _ = layout.grid.byte o x / layout.stripe_unit / layout.stripe_count := hdiv.symm
    _ ≤ _ := Nat.div_le_self _ _

private theorem extentToFileLoop_eq {layout : FileLayout} {o fuel x n : ℕ} (hfuel : n ≤ fuel)
    (hbound : ∀ k < n, layout.grid.byte o (x + k) < 2 ^ 64) :
    extentToFileLoop layout o fuel x (x % layout.stripe_unit) n = some (layout.grid.ranges o x n) := by
  induction fuel generalizing x n with
  | zero =>
    obtain rfl : n = 0 := by omega
    rw [ranges_zero]
    rfl
  | succ fuel ih =>
    cases n with
    | zero =>
      rw [ranges_zero]
      rfl
    | succ n =>
      have hroom : 0 < layout.stripe_unit - x % layout.stripe_unit := layout.grid.room_pos x
      obtain ⟨k, hk⟩ : ∃ k, min (n + 1) (layout.stripe_unit - x % layout.stripe_unit) = k := ⟨_, rfl⟩
      have hfirst : layout.grid.byte o x < 2 ^ 64 := hbound 0 (by omega)
      obtain ⟨hstripe, hblock⟩ := le_byte layout o x
      have hdiv : layout.grid.byte o x / layout.stripe_unit =
          (x / layout.stripe_unit + o / layout.stripe_count * (layout.object_size / layout.stripe_unit)) *
            layout.stripe_count + o % layout.stripe_count := byte_div
      have hmod : layout.grid.byte o x % layout.stripe_unit = x % layout.stripe_unit := byte_mod
      have hrest : extentToFileLoop layout o fuel (x + k) 0 (n + 1 - k) =
          some (layout.grid.ranges o (x + k) (n + 1 - k)) := by
        by_cases hlast : n + 1 - k = 0
        · rw [hlast, ranges_zero]
          unfold extentToFileLoop
          rfl
        have halign : (x + k) % layout.stripe_unit = 0 := by
          have hmod := Nat.div_add_mod' x layout.stripe_unit
          rw [show x + k = (x / layout.stripe_unit + 1) * layout.stripe_unit by rw [Nat.succ_mul]; omega]
          exact Nat.mul_mod_left _ _
        rw [← ih (by omega) fun j _ => by rw [add_assoc]; exact hbound (k + j) (by omega), halign]
      rw [Grid.ranges, if_neg (by omega)]
      simp only [extentToFileLoop]
      rw [Nat.mod_eq_of_lt (hstripe.trans_lt (hblock.trans_lt hfirst)), ← hdiv,
        Nat.mod_eq_of_lt (hblock.trans_lt hfirst), ← hmod, Nat.div_add_mod', Nat.mod_eq_of_lt hfirst, hmod, hk, hrest]
      show some ((layout.grid.byte o x, k) :: _) = some ((_, min (n + 1) (layout.stripe_unit - x % layout.stripe_unit)) ::
        layout.grid.ranges o (x + min (n + 1) (layout.stripe_unit - x % layout.stripe_unit))
          (n + 1 - min (n + 1) (layout.stripe_unit - x % layout.stripe_unit)))
      rw [hk]

private theorem extentToFile_eq {layout : FileLayout} {o x n : ℕ}
    (hbound : ∀ k < n, layout.grid.byte o (x + k) < 2 ^ 64) :
    extentToFile layout o x n = some (layout.grid.ranges o x n) := by
  unfold extentToFile
  rw [if_pos layout.unit_le_size]
  exact extentToFileLoop_eq le_rfl hbound

/-!
### From the file to extents
-/

variable {ν : Type} [LinearOrder ν] (layout : FileLayout) (object_format : ℕ → ν)
  (offset trunc_size buffer_offset : ℕ)

def toBuffer (r : ℕ × ℕ) : ℕ × ℕ := ((r.1 - offset + buffer_offset) % 2 ^ 64, r.2)

/-- The extent `e` holds exactly the bytes from `offset` to `cur` that belong to the object `o`. -/
structure IsExtentOf (cur o : ℕ) (e : ObjectExtent ν) : Prop where
  oid : e.oid = object_format o
  objectno : e.objectno = o
  truncate_size : e.truncate_size = objectTruncateSize layout o trunc_size
  length_pos : 0 < e.length
  le_size : e.offset + e.length ≤ layout.object_size
  holds : ∀ y < layout.object_size, e.offset ≤ y ∧ y < e.offset + e.length ↔
    offset ≤ layout.used.grid.byte o y ∧ layout.used.grid.byte o y < cur
  buffer : e.buffer_extents = (layout.used.grid.ranges o e.offset e.length).map (toBuffer offset buffer_offset)

/-- The map of extents after the bytes from `offset` to `cur`. -/
structure Built (cur : ℕ) (m : Std.ExtTreeMap ν (List (ObjectExtent ν))) : Prop where
  extent : ∀ k exv, m[k]? = some exv → ∃ o e, k = object_format o ∧ exv = [e] ∧
    IsExtentOf layout object_format offset trunc_size buffer_offset cur o e
  covers : ∀ f, offset ≤ f → f < cur → ∃ exv, m[object_format (layout.used.grid.column f)]? = some exv
  le : offset ≤ cur

variable {layout object_format offset trunc_size buffer_offset}

private theorem built_empty : Built layout object_format offset trunc_size buffer_offset offset ∅ where
  extent k exv h := by simp at h
  covers f hle hlt := absurd hlt (by omega)
  le := le_rfl

theorem used_rows : layout.used.grid.rows * layout.used.grid.unit = layout.object_size :=
  layout.used.rows_mul_unit.trans used_size

section
variable {cur n : ℕ} (hn : 0 < n) (hroom : n ≤ layout.used.stripe_unit - cur % layout.used.stripe_unit)
  {e : ObjectExtent ν}

omit [LinearOrder ν] in
include hroom in
private theorem IsExtentOf.of_ne {o : ℕ} (h : IsExtentOf layout object_format offset trunc_size buffer_offset cur o e)
    (hne : o ≠ layout.used.grid.column cur) :
    IsExtentOf layout object_format offset trunc_size buffer_offset (cur + n) o e where
  __ := h
  holds y hy := by
    rw [h.holds y hy]
    refine and_congr_right fun _ => ⟨fun hlt => by omega, fun hlt => ?_⟩
    by_contra hge
    refine hne ?_
    -- a byte of the piece is a byte of its object
    have hcol : layout.used.grid.column (layout.used.grid.byte o y) = o := column_byte (hy.trans_eq used_rows.symm)
    obtain ⟨k, hk⟩ := Nat.exists_eq_add_of_le (not_lt.1 hge)
    rw [← hcol, hk]
    exact column_add (show cur % layout.used.stripe_unit + k < layout.used.stripe_unit by omega)

include hroom in
private theorem piece_le_size : layout.used.grid.offset cur + n ≤ layout.object_size := by
  rw [← used_rows]
  exact offset_add_le hroom

include hn hroom in
private theorem ranges_piece :
    layout.used.grid.ranges (layout.used.grid.column cur) (layout.used.grid.offset cur) n = [(cur, n)] := by
  have hmod := offset_mod (g := layout.used.grid) cur
  rw [ranges_of_le _ hn (by rw [hmod]; exact hroom), byte_column_offset]

omit [LinearOrder ν] in
include hn hroom in
private theorem isExtentOf_first (hle : offset ≤ cur)
    (hnone : ∀ f, offset ≤ f → f < cur → layout.used.grid.column f ≠ layout.used.grid.column cur) :
    IsExtentOf layout object_format offset trunc_size buffer_offset (cur + n) (layout.used.grid.column cur)
      ⟨object_format (layout.used.grid.column cur), layout.used.grid.column cur, layout.used.grid.offset cur, n,
        objectTruncateSize layout (layout.used.grid.column cur) trunc_size, [toBuffer offset buffer_offset (cur, n)]⟩ where
  oid := rfl
  objectno := rfl
  truncate_size := rfl
  length_pos := hn
  le_size := piece_le_size hroom
  holds y hy := by
    rw [mem_piece_iff hroom]
    refine and_congr_left fun _ => ⟨hle.trans, fun hfrom => ?_⟩
    by_contra hlt
    exact hnone _ hfrom (not_le.1 hlt) (column_byte (hy.trans_eq used_rows.symm))
  buffer := by
    rw [ranges_piece hn hroom]
    rfl

omit [LinearOrder ν] in
private theorem IsExtentOf.end_eq
    (h : IsExtentOf layout object_format offset trunc_size buffer_offset cur (layout.used.grid.column cur) e) :
    e.offset + e.length = layout.used.grid.offset cur := by
  have hpos := h.length_pos
  have hsize := h.le_size
  have hbyte := layout.used.grid.byte_column_offset cur
  have hlt := (layout.used.grid.offset_lt cur).trans_eq used_rows
  have hfirst := (h.holds e.offset (by omega)).1 ⟨le_rfl, by omega⟩
  have hlast := (h.holds (e.offset + e.length - 1) (by omega)).1 ⟨by omega, by omega⟩
  have hge : e.offset + e.length - 1 < layout.used.grid.offset cur := by
    rw [← byte_lt_byte_iff (g := layout.used.grid) (c := layout.used.grid.column cur), hbyte]
    exact hlast.2
  by_contra hne
  -- otherwise the byte after the extent would be before `cur` and not in the extent
  have hgap : layout.used.grid.byte (layout.used.grid.column cur) (e.offset + e.length) < cur := by
    conv_rhs => rw [← hbyte]
    exact byte_lt_byte_iff.2 (by omega)
  have hfrom : layout.used.grid.byte (layout.used.grid.column cur) e.offset ≤
      layout.used.grid.byte (layout.used.grid.column cur) (e.offset + e.length) := byte_le_byte_iff.2 (by omega)
  have := (h.holds (e.offset + e.length) (by omega)).2 ⟨hfirst.1.trans hfrom, hgap⟩
  omega

omit [LinearOrder ν] in
include hn hroom in
private theorem IsExtentOf.grow (hle : offset ≤ cur) (haligned : cur = offset ∨ cur % layout.used.stripe_unit = 0)
    (h : IsExtentOf layout object_format offset trunc_size buffer_offset cur (layout.used.grid.column cur) e) :
    IsExtentOf layout object_format offset trunc_size buffer_offset (cur + n) (layout.used.grid.column cur)
      { e with
        length := e.length + n
        buffer_extents := e.buffer_extents ++ [toBuffer offset buffer_offset (cur, n)] } where
  oid := h.oid
  objectno := h.objectno
  truncate_size := h.truncate_size
  length_pos := by
    show 0 < e.length + n
    omega
  le_size := by
    have hend := h.end_eq
    have hsize := piece_le_size hroom
    show e.offset + (e.length + n) ≤ layout.object_size
    omega
  holds y hy := by
    have hend := h.end_eq
    have hold := h.holds y hy
    have hnew := mem_piece_iff (g := layout.used.grid) (y := y) hroom
    show e.offset ≤ y ∧ y < e.offset + (e.length + n) ↔ _
    omega
  buffer := by
    have hend := h.end_eq
    have hpos := h.length_pos
    have hsize := h.le_size
    have hfirst := (h.holds e.offset (by omega)).1 ⟨le_rfl, by omega⟩
    have hzero := haligned.resolve_left (by omega)
    have hmod := (offset_mod (g := layout.used.grid) cur).trans hzero
    rw [ranges_append _ _ _ _ _ (by rw [hend, hmod]), hend, ranges_piece hn hroom, map_append, ← h.buffer]
    rfl

section
variable {m : Std.ExtTreeMap ν (List (ObjectExtent ν))} (hb : Built layout object_format offset trunc_size buffer_offset cur m)
include hb

include hn hroom in
private theorem addPiece_spec
    (haligned : cur = offset ∨ cur % layout.used.stripe_unit = 0) (hformat : Function.Injective object_format) :
    ∃ e, addPiece (m[object_format (layout.used.grid.column cur)]?.getD []) (object_format (layout.used.grid.column cur))
        (layout.used.grid.column cur) (layout.used.grid.offset cur) n
        (objectTruncateSize layout (layout.used.grid.column cur) trunc_size)
        ((cur - offset + buffer_offset) % 2 ^ 64) = [e] ∧
      IsExtentOf layout object_format offset trunc_size buffer_offset (cur + n) (layout.used.grid.column cur) e := by
  cases hm : m[object_format (layout.used.grid.column cur)]? with
  | none =>
    refine ⟨_, rfl, isExtentOf_first hn hroom hb.le fun f hfrom hto hcol => ?_⟩
    obtain ⟨exv, hexv⟩ := hb.covers f hfrom hto
    rw [hcol, hm] at hexv
    cases hexv
  | some exv =>
    obtain ⟨o, e, ho, rfl, he⟩ := hb.extent _ _ hm
    obtain rfl := hformat ho
    refine ⟨_, ?_, he.grow hn hroom hb.le haligned⟩
    show (if e.offset + e.length = _ then _ else _) = _
    rw [if_pos (he.end_eq)]
    rfl

include hroom in
private theorem Built.step
    (he : IsExtentOf layout object_format offset trunc_size buffer_offset (cur + n) (layout.used.grid.column cur) e) :
    Built layout object_format offset trunc_size buffer_offset (cur + n)
      (m.insert (object_format (layout.used.grid.column cur)) [e]) where
  extent k exv h := by
    rw [Std.ExtTreeMap.getElem?_insert] at h
    split at h
    · rename_i heq
      obtain rfl := compare_eq_iff_eq.1 heq
      exact ⟨_, e, rfl, (Option.some.inj h).symm, he⟩
    rename_i hne
    obtain ⟨o, e', rfl, rfl, he'⟩ := hb.extent k exv h
    refine ⟨o, e', rfl, rfl, he'.of_ne hroom fun ho => hne ?_⟩
    rw [ho]
    exact compare_eq_iff_eq.2 rfl
  covers f hfrom hto := by
    rw [Std.ExtTreeMap.getElem?_insert]
    split
    · exact ⟨_, rfl⟩
    rename_i hne
    refine hb.covers f hfrom (not_le.1 fun hle => hne ?_)
    -- a byte of the piece has the object of the piece
    obtain ⟨k, rfl⟩ := Nat.exists_eq_add_of_le hle
    rw [column_add (show cur % layout.used.stripe_unit + k < layout.used.stripe_unit by omega)]
    exact compare_eq_iff_eq.2 rfl
  le := hb.le.trans (Nat.le_add_right _ _)

end
end

omit [LinearOrder ν] in
private theorem used_column (f : ℕ) : layout.used.grid.column f =
    f / layout.used.stripe_unit / layout.stripe_count / (layout.object_size / layout.used.stripe_unit) *
      layout.stripe_count + f / layout.used.stripe_unit % layout.stripe_count := by
  show f / layout.used.stripe_unit / layout.used.stripe_count / (layout.used.object_size / layout.used.stripe_unit) *
    layout.used.stripe_count + f / layout.used.stripe_unit % layout.used.stripe_count = _
  rw [used_count, used_size]

omit [LinearOrder ν] in
private theorem used_offset (f : ℕ) : layout.used.grid.offset f =
    f / layout.used.stripe_unit / layout.stripe_count % (layout.object_size / layout.used.stripe_unit) *
      layout.used.stripe_unit + f % layout.used.stripe_unit := by
  show f / layout.used.stripe_unit / layout.used.stripe_count % (layout.used.object_size / layout.used.stripe_unit) *
    layout.used.stripe_unit + f % layout.used.stripe_unit = _
  rw [used_count, used_size]

/-- The loop ends, with the extents of all bytes up to the end of the range. -/
theorem fileToExtentsLoop_spec (hformat : Function.Injective object_format) {fuel cur left : ℕ}
    {m : Std.ExtTreeMap ν (List (ObjectExtent ν))} (hfuel : left ≤ fuel) (hend : cur + left < 2 ^ 64)
    (hb : Built layout object_format offset trunc_size buffer_offset cur m)
    (haligned : left ≠ 0 → cur = offset ∨ cur % layout.used.stripe_unit = 0) :
    ∃ m', fileToExtentsLoop layout object_format layout.used.stripe_unit offset trunc_size buffer_offset fuel cur left m =
        some m' ∧
      Built layout object_format offset trunc_size buffer_offset (cur + left) m' := by
  induction fuel generalizing cur left m with
  | zero =>
    obtain rfl : left = 0 := by omega
    exact ⟨m, rfl, hb⟩
  | succ fuel ih =>
    cases left with
    | zero => exact ⟨m, rfl, hb⟩
    | succ left =>
      have hmod := Nat.mod_lt cur layout.used.unit_pos
      obtain ⟨n, hn⟩ : ∃ n, (if left + 1 > layout.used.stripe_unit - cur % layout.used.stripe_unit then
          layout.used.stripe_unit - cur % layout.used.stripe_unit else left + 1) = n := ⟨_, rfl⟩
      have hpos : 0 < n := by split at hn <;> omega
      have hroom : n ≤ layout.used.stripe_unit - cur % layout.used.stripe_unit := by split at hn <;> omega
      have hleft : n ≤ left + 1 := by split at hn <;> omega
      obtain ⟨e, hadd, he⟩ := addPiece_spec hpos hroom hb (haligned (by omega)) hformat
      have haligned' : left + 1 - n ≠ 0 → cur + n = offset ∨ (cur + n) % layout.used.stripe_unit = 0 := by
        intro _
        have hfull : n = layout.used.stripe_unit - cur % layout.used.stripe_unit := by split at hn <;> omega
        have hdiv := Nat.div_add_mod' cur layout.used.stripe_unit
        right
        rw [show cur + n = (cur / layout.used.stripe_unit + 1) * layout.used.stripe_unit by rw [Nat.succ_mul]; omega]
        exact Nat.mul_mod_left _ _
      obtain ⟨m', hm', hb'⟩ := ih (by omega) (by omega) (hb.step hroom he) haligned'
      refine ⟨m', ?_, by rwa [show cur + n + (left + 1 - n) = cur + (left + 1) by omega] at hb'⟩
      rw [← hm', ← hadd]
      simp only [fileToExtentsLoop, hn]
      rw [Nat.mod_eq_of_lt (show cur + n < 2 ^ 64 by omega), ← used_column, ← used_offset]

theorem fileToExtents_spec (hformat : Function.Injective object_format) {len : ℕ} (hlen : 0 < len)
    (hend : offset + len < 2 ^ 64) :
    ∃ m, fileToExtents layout object_format offset len trunc_size buffer_offset = some m ∧
      Built layout object_format offset trunc_size buffer_offset (offset + len) m := by
  obtain ⟨m, hm, hb⟩ := fileToExtentsLoop_spec hformat (le_refl len) hend built_empty fun _ => .inl rfl
  refine ⟨m, ?_, hb⟩
  unfold fileToExtents
  rw [if_pos ⟨hlen, layout.unit_le_size⟩, ← hm, used_unit]

/-!
### Bytes of the buffer
-/

private theorem bytes_toBuffer {rs : List (ℕ × ℕ)}
    (h : ∀ r ∈ rs, offset ≤ r.1 ∧ r.1 - offset + buffer_offset < 2 ^ 64) :
    bytes (rs.map (toBuffer offset buffer_offset)) = (bytes rs).map (· - offset + buffer_offset) := by
  induction rs with
  | nil => rfl
  | cons r rs ih =>
    obtain ⟨hfrom, hto⟩ := h r mem_cons_self
    have hfirst : range' ((r.1 - offset + buffer_offset) % 2 ^ 64) r.2 =
        (range' r.1 r.2).map (· - offset + buffer_offset) := by
      rw [Nat.mod_eq_of_lt hto, range'_eq_map_range, range'_eq_map_range, map_map]
      refine map_congr_left fun i _ => ?_
      show r.1 - offset + buffer_offset + i = r.1 + i - offset + buffer_offset
      omega
    rw [map_cons, bytes_cons, bytes_cons, map_append, ← hfirst, ih fun r' hr' => h r' (mem_cons_of_mem _ hr')]
    rfl

section
variable {len o : ℕ} {e : ObjectExtent ν} (hbuffer : buffer_offset + len ≤ 2 ^ 64)
  (he : IsExtentOf layout object_format offset trunc_size buffer_offset (offset + len) o e)

include he

omit [LinearOrder ν] in
theorem IsExtentOf.byte_mem {k : ℕ} (hk : k < e.length) :
    offset ≤ layout.used.grid.byte o (e.offset + k) ∧ layout.used.grid.byte o (e.offset + k) < offset + len := by
  have hsize := he.le_size
  exact (he.holds (e.offset + k) (by omega)).1 ⟨by omega, by omega⟩

include hbuffer

omit [LinearOrder ν] in
private theorem IsExtentOf.bytes_buffer : bytes e.buffer_extents =
    (range' e.offset e.length).map fun y => layout.used.grid.byte o y - offset + buffer_offset := by
  rw [he.buffer, bytes_toBuffer, bytes_ranges, map_map]
  · rfl
  · intro r hr
    obtain ⟨-, k, hk, heq⟩ := layout.used.grid.lt_of_mem_ranges hr
    have := he.byte_mem hk
    omega

omit [LinearOrder ν] in
private theorem IsExtentOf.locate {k b : ℕ} (h : (bytes e.buffer_extents)[k]? = some b) :
    k < e.length ∧ buffer_offset ≤ b ∧ b < buffer_offset + len ∧
      layout.grid.column (b - buffer_offset + offset) = o ∧ layout.grid.offset (b - buffer_offset + offset) = e.offset + k := by
  rw [he.bytes_buffer hbuffer, getElem?_map, Option.map_eq_some_iff] at h
  obtain ⟨y, hy, rfl⟩ := h
  obtain ⟨hk, rfl⟩ := List.getElem?_eq_some_iff.1 hy
  rw [length_range'] at hk
  rw [getElem_range'_1]
  have hmem := he.byte_mem hk
  have hlt : e.offset + k < layout.grid.rows * layout.grid.unit := by
    have := he.le_size
    rw [layout.rows_mul_unit]
    omega
  refine ⟨hk, by omega, by omega, ?_⟩
  rw [show layout.used.grid.byte o (e.offset + k) - offset + buffer_offset - buffer_offset + offset =
    layout.used.grid.byte o (e.offset + k) by omega, used_byte]
  exact ⟨column_byte hlt, offset_byte hlt⟩

omit [LinearOrder ν] in
private theorem IsExtentOf.nodup_bytes : (bytes e.buffer_extents).Nodup := by
  refine nodup_iff_getElem?_ne_getElem?.2 fun i j _ hj heq => ?_
  obtain ⟨b, hb⟩ : ∃ b, (bytes e.buffer_extents)[j]? = some b := ⟨_, getElem?_eq_getElem hj⟩
  have hi := (he.locate hbuffer (heq.trans hb)).2.2.2.2
  have hj := (he.locate hbuffer hb).2.2.2.2
  omega

end

theorem mem_assimilateExtents {m : Std.ExtTreeMap ν (List (ObjectExtent ν))} {e : ObjectExtent ν} :
    e ∈ assimilateExtents m ↔ ∃ (k : ν) (exv : List (ObjectExtent ν)), m[k]? = some exv ∧ e ∈ exv := by
  simp only [assimilateExtents, mem_flatMap, Prod.exists, Std.ExtTreeMap.mem_toList_iff_getElem?_eq_some]

section
variable {len : ℕ} {m : Std.ExtTreeMap ν (List (ObjectExtent ν))}
  (hb : Built layout object_format offset trunc_size buffer_offset (offset + len) m)

include hb

theorem Built.isExtentOf {e : ObjectExtent ν} (h : e ∈ assimilateExtents m) :
    IsExtentOf layout object_format offset trunc_size buffer_offset (offset + len) e.objectno e := by
  obtain ⟨k, exv, hk, hmem⟩ := mem_assimilateExtents.1 h
  obtain ⟨o, e', -, rfl, he'⟩ := hb.extent k exv hk
  obtain rfl := mem_singleton.1 hmem
  rw [he'.objectno]
  exact he'

private theorem Built.pairwise_oid : (assimilateExtents m).Pairwise fun e e' => e.oid ≠ e'.oid := by
  refine pairwise_flatMap.2 ⟨fun p hp => ?_, ?_⟩
  · obtain ⟨o, e, -, hsingle, -⟩ := hb.extent p.1 p.2 (Std.ExtTreeMap.mem_toList_iff_getElem?_eq_some.1 hp)
    rw [hsingle]
    exact pairwise_singleton _ _
  refine (Std.ExtTreeMap.distinct_keys_toList (t := m)).imp_of_mem fun {p p'} hp hp' hne e he e' he' heq => hne ?_
  obtain ⟨o, e1, hk, hsingle, h1⟩ := hb.extent p.1 p.2 (Std.ExtTreeMap.mem_toList_iff_getElem?_eq_some.1 hp)
  obtain ⟨o', e2, hk', hsingle', h2⟩ := hb.extent p'.1 p'.2 (Std.ExtTreeMap.mem_toList_iff_getElem?_eq_some.1 hp')
  rw [hsingle, mem_singleton] at he
  rw [hsingle', mem_singleton] at he'
  subst he he'
  rw [hk, hk', ← h1.oid, ← h2.oid, heq]
  exact compare_eq_iff_eq.2 rfl

private theorem Built.mem_bytes_iff (hformat : Function.Injective object_format)
    (hbuffer : buffer_offset + len ≤ 2 ^ 64) {b : ℕ} :
    (∃ e ∈ assimilateExtents m, b ∈ bytes e.buffer_extents) ↔ buffer_offset ≤ b ∧ b < buffer_offset + len := by
  constructor
  · rintro ⟨e, he, hbytes⟩
    have hext := hb.isExtentOf he
    rw [hext.bytes_buffer hbuffer, mem_map] at hbytes
    obtain ⟨y, hy, rfl⟩ := hbytes
    rw [mem_range'_1] at hy
    have hmem := hext.byte_mem (k := y - e.offset) (by omega)
    rw [Nat.add_sub_cancel' hy.1] at hmem
    omega
  · rintro ⟨hfrom, hto⟩
    -- the byte of the file that goes to `b`
    obtain ⟨f, hf⟩ : ∃ f, f = offset + (b - buffer_offset) := ⟨_, rfl⟩
    obtain ⟨exv, hexv⟩ := hb.covers f (by omega) (by omega)
    obtain ⟨o, e, ho, rfl, he⟩ := hb.extent _ _ hexv
    obtain rfl := hformat ho
    have hbyte := layout.used.grid.byte_column_offset f
    have hmem := (he.holds _ ((layout.used.grid.offset_lt f).trans_eq used_rows)).2 (by rw [hbyte]; omega)
    refine ⟨e, mem_assimilateExtents.2 ⟨_, _, hexv, mem_singleton_self e⟩, ?_⟩
    rw [he.bytes_buffer hbuffer, mem_map]
    refine ⟨layout.used.grid.offset f, mem_range'_1.2 hmem, ?_⟩
    rw [hbyte]
    omega

private theorem Built.bytes_perm (hformat : Function.Injective object_format) (hbuffer : buffer_offset + len ≤ 2 ^ 64) :
    ((assimilateExtents m).flatMap fun e => bytes e.buffer_extents).Perm (range' buffer_offset len) := by
  refine (perm_ext_iff_of_nodup ?_ (nodup_range' ..)).2 fun b => ?_
  · refine nodup_flatMap.2 ⟨fun e he => (hb.isExtentOf he).nodup_bytes hbuffer, ?_⟩
    refine hb.pairwise_oid.imp_of_mem fun {e e'} he he' hne b hmem hmem' => hne ?_
    obtain ⟨k, hk⟩ := mem_iff_getElem?.1 hmem
    obtain ⟨k', hk'⟩ := mem_iff_getElem?.1 hmem'
    have hcol := ((hb.isExtentOf he).locate hbuffer hk).2.2.2.1
    have hcol' := ((hb.isExtentOf he').locate hbuffer hk').2.2.2.1
    rw [(hb.isExtentOf he).oid, (hb.isExtentOf he').oid, ← hcol, ← hcol']
  · rw [mem_flatMap, hb.mem_bytes_iff hformat hbuffer, mem_range'_1]

end

/-- The extents of a range of a file cover it: their buffer extents are a partition of the range of the buffer, and the
byte of the file that goes to a position of the buffer lies where the striping formula says. No object has two
extents. Back from an extent, `extent_to_file` gives the bytes of its buffer extents in the same order; it gives the
very same ranges unless the layout has one object per set, where it cuts them at the stripe unit. -/
theorem fileToExtents_extentToFile (layout : FileLayout) (object_format : ℕ → ν)
    (hformat : Function.Injective object_format) (offset len trunc_size buffer_offset : ℕ) (hlen : 0 < len)
    (hend : offset + len < 2 ^ 63) (hbuffer : buffer_offset + len ≤ 2 ^ 64) :
    ∃ m, fileToExtents layout object_format offset len trunc_size buffer_offset = some m ∧
      ((assimilateExtents m).flatMap fun e => bytes e.buffer_extents).Perm (range' buffer_offset len) ∧
      (assimilateExtents m).Pairwise (fun e e' => e.oid ≠ e'.oid) ∧
      ∀ e ∈ assimilateExtents m,
        e.oid = object_format e.objectno ∧ 0 < e.length ∧ (bytes e.buffer_extents).length = e.length ∧
        (∀ k b, (bytes e.buffer_extents)[k]? = some b →
          layout.grid.column (b - buffer_offset + offset) = e.objectno ∧
          layout.grid.offset (b - buffer_offset + offset) = e.offset + k) ∧
        ∃ extents, extentToFile layout e.objectno e.offset e.length = some extents ∧
          extents = layout.grid.ranges e.objectno e.offset e.length ∧
          bytes extents = (bytes e.buffer_extents).map (· - buffer_offset + offset) ∧
          (layout.stripe_count ≠ 1 → extents = e.buffer_extents.map fun b => (b.1 - buffer_offset + offset, b.2)) := by
  obtain ⟨m, hm, hb⟩ : ∃ m, fileToExtents layout object_format offset len trunc_size buffer_offset = some m ∧
      Built layout object_format offset trunc_size buffer_offset (offset + len) m :=
        fileToExtents_spec hformat hlen (by omega)
  refine ⟨m, hm, hb.bytes_perm hformat hbuffer, hb.pairwise_oid, fun e he => ?_⟩
  have hext := hb.isExtentOf he
  have hbound : ∀ k < e.length, layout.grid.byte e.objectno (e.offset + k) < 2 ^ 64 := by
    intro k hk
    have := hext.byte_mem hk
    rw [used_byte] at this
    omega
  refine ⟨hext.oid, hext.length_pos, ?_, fun k b hk => (hext.locate hbuffer hk).2.2.2, _, extentToFile_eq hbound, rfl,
    ?_, fun hcount => ?_⟩
  · rw [hext.bytes_buffer hbuffer, length_map, length_range']
  · rw [hext.bytes_buffer hbuffer, bytes_ranges, map_map]
    refine map_congr_left fun y hy => ?_
    rw [mem_range'_1] at hy
    have hmem := hext.byte_mem (k := y - e.offset) (by omega)
    rw [Nat.add_sub_cancel' hy.1] at hmem
    show layout.grid.byte e.objectno y = layout.used.grid.byte e.objectno y - offset + buffer_offset - buffer_offset + offset
    rw [← used_byte]
    omega
  · conv_lhs => rw [← map_id (layout.grid.ranges e.objectno e.offset e.length)]
    rw [hext.buffer, used_of_ne hcount, map_map]
    refine map_congr_left fun r hr => ?_
    obtain ⟨-, k, hk, hr'⟩ := layout.grid.lt_of_mem_ranges hr
    have hmem := hext.byte_mem hk
    rw [used_byte, ← hr'] at hmem
    show r = ((r.1 - offset + buffer_offset) % 2 ^ 64 - buffer_offset + offset, r.2)
    rw [Nat.mod_eq_of_lt (by omega), show r.1 - offset + buffer_offset - buffer_offset + offset = r.1 by omega]

theorem fileToExtents_extentToFile_ten :
    ∃ m, fileToExtents ⟨2, 2, 4, by decide, by decide, by decide, by decide⟩ id 1 10 0 5 = some m ∧
      ((assimilateExtents m).flatMap fun e => bytes e.buffer_extents).Perm (range' 5 10) := by
  obtain ⟨m, hm, hperm, -⟩ := fileToExtents_extentToFile ⟨2, 2, 4, by decide, by decide, by decide, by decide⟩
    id Function.injective_id 1 10 0 5 (by decide) (by decide) (by decide)
  exact ⟨m, hm, hperm⟩

/-- With one object per set and two stripe units in an object, both bytes of an object are one buffer extent, and
`extent_to_file` returns two ranges. -/
theorem extentToFile_cuts :
    (fileToExtents ⟨1, 1, 2, by decide, by decide, by decide, by decide⟩ id 0 2 0 0).map assimilateExtents =
      some [⟨0, 0, 0, 2, 0, [(0, 2)]⟩] ∧
    extentToFile ⟨1, 1, 2, by decide, by decide, by decide, by decide⟩ 0 0 2 = some [(0, 1), (1, 1)] := by
  decide

end Lunule.Striper
