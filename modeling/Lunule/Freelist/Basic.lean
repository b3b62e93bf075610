import Lunule.Lib.Exec

/-!
# The bitmap freelist

`BitmapFreelistManager` keeps one bit for each block of the device, set when the block is allocated. The bits are stored
under keys that hold `blocks_per_key` of them each, and a key that is missing stands for free blocks. To allocate or to
release a range is to flip its bits: `xor` merges one mask into each key of the range. Blocks past the end of the device
are set when the freelist is created. `enumerateNext` walks through the keys and gives the free extents one by one; its
position is the `Cursor`.

A value is the list of its bits, and the store the list of its entries in the order of their keys (big-endian offsets, so
that they sort as numbers). Offsets are 64 bits wide; that shows only where the cursor steps beyond a key, since what is
given to `xor` ends at `2 ^ 64` at most.
-/

namespace Lunule.Freelist
open Exec

/-- The geometry of a device. `size` has been cut to whole blocks (`P2ALIGN`). -/
structure Config where
  bytes_per_block : ℕ
  blocks_per_key : ℕ
  size : ℕ
  block_pow : ∃ p, bytes_per_block = 2 ^ p
  key_pow : ∃ q, blocks_per_key = 2 ^ (q + 3)
  aligned : bytes_per_block ∣ size
  lt : size < 2 ^ 64

abbrev Bits := List Bool
abbrev Store := List (ℕ × Bits)

variable (c : Config)

def Config.bytes_per_key : ℕ := c.bytes_per_block * c.blocks_per_key

def Config.units : ℕ := c.size / c.bytes_per_block

/-- `XorMergeOperator`, on the value of a key or on none. -/
def merge (k : ℕ) (v : Bits) : Store → Store
  | [] => [(k, v)]
  | (k', v') :: s =>
    if k < k' then (k, v) :: (k', v') :: s
    else if k = k' then (k, List.zipWith Bool.xor v' v) :: s
    else (k', v') :: merge k v s

def Config.mask (s e : ℕ) : Bits := (List.range c.blocks_per_key).map fun i => decide (s ≤ i ∧ i < e)

variable (offset length : ℕ)

/-- `_xor`: the first key, those in the middle and the last one. -/
def xor (s : Store) : Option Store :=
  if offset % c.bytes_per_block = 0 ∧ length % c.bytes_per_block = 0 then
    let last := offset + length - 1
    let first_key := offset / c.bytes_per_key
    let last_key := last / c.bytes_per_key
    let b := offset % c.bytes_per_key / c.bytes_per_block
    let e := last % c.bytes_per_key / c.bytes_per_block
    if first_key = last_key then some (merge (first_key * c.bytes_per_key) (c.mask b (e + 1)) s)
    else
      let s := merge (first_key * c.bytes_per_key) (c.mask b c.blocks_per_key) s
      let s := (List.range' (first_key + 1) (last_key - first_key - 1)).foldl
        (fun s k => merge (k * c.bytes_per_key) (c.mask 0 c.blocks_per_key) s) s
      some (merge (last_key * c.bytes_per_key) (c.mask 0 (e + 1)) s)
  else none

/-- `create`: the blocks past the end, up to the end of their key, are allocated. -/
def create : Option Store :=
  let blocks := c.units
  if blocks / c.blocks_per_key * c.blocks_per_key ≠ blocks then
    let blocks := (blocks / c.blocks_per_key + 1) * c.blocks_per_key
    xor c c.size (blocks * c.bytes_per_block - c.size) []
  else some []

/-- `get_next_set_bit`, `get_next_clear_bit`. -/
def nextBit (v : Bool) (bl : Bits) (start : ℕ) : Option ℕ := ((bl.drop start).findIdx? (· == v)).map (start + ·)

/-- The position of an enumeration; `it` is what the iterator has after its entry, or `none` when it is at its end. -/
structure Cursor where
  offset : ℕ := 0
  bl_pos : ℕ := 0
  bl : Bits := []
  it : Option Store := none

/-- Skip set bits: the offset of the next free block. -/
def skipSet (offset bl_pos : ℕ) (bl : Bits) (rest : Store) : ℕ × Cursor :=
  match nextBit false bl bl_pos with
  | some pos => (offset + pos * c.bytes_per_block, ⟨offset, pos, bl, some rest⟩)
  | none =>
    let next := (offset + c.bytes_per_key) % 2 ^ 64
    match rest with
    | [] => (next, ⟨next, 0, [], none⟩)
    | (k, v) :: rest => if next < k then (next, ⟨k, 0, v, some rest⟩) else skipSet k 0 v rest

/-- Skip clear bits: the offset of the next allocated block, if a key has one. -/
def skipClear (offset bl_pos : ℕ) (bl : Bits) (rest : Store) : Option ℕ × Cursor :=
  match nextBit true bl bl_pos with
  | some pos => (some (offset + pos * c.bytes_per_block), ⟨offset, pos, bl, some rest⟩)
  | none =>
    match rest with
    | [] => (none, ⟨offset, 0, [], none⟩)
    | (k, v) :: rest => skipClear k 0 v rest

/-- The start of an enumeration: the first block is always allocated. -/
def Cursor.open (cur : Cursor) (s : Store) : Option Cursor :=
  if cur.offset = 0 ∧ cur.bl_pos = 0 then
    match s with
    | [] => none
    | (k, v) :: rest => if k = 0 ∧ nextBit true v 0 = some 0 then some ⟨k, 0, v, some rest⟩ else none
  else some cur

/-- `enumerate_next` from the search for a free block on. -/
def Cursor.next (cur : Cursor) : Option (ℕ × ℕ) × Cursor :=
  let (offset, cur) := skipSet c cur.offset cur.bl_pos cur.bl (cur.it.getD [])
  let (stop, cur) :=
    match cur.it with
    | some rest => skipClear c cur.offset cur.bl_pos cur.bl rest
    | none => (none, cur)
  match stop with
  | some stop => (some (offset, min (c.units * c.bytes_per_block) stop - offset), cur)
  | none =>
    if cur.offset < c.size then
      (some (offset, c.units * c.bytes_per_block - offset), { cur with offset := c.size, bl_pos := c.blocks_per_key })
    else (none, cur)

def enumerateNext (s : Store) (cur : Cursor) : Option (Option (ℕ × ℕ) × Cursor) :=
  (cur.open s).map fun cur => if c.size ≤ cur.offset then (none, cur) else cur.next c

/-- `enumerate_next` again and again, until it returns false. -/
def enumerate (s : Store) : ℕ → Cursor → Option (List (ℕ × ℕ))
  | 0, _ => none
  | fuel + 1, cur => (enumerateNext c s cur).bind fun
    | (none, _) => some []
    | (some extent, cur) => (enumerate s fuel cur).map (extent :: ·)

/-! ## Runs -/

structure State where
  store : Store
  used : Finset ℕ

inductive Event where
  | allocate (offset length : ℕ)
  | release (offset length : ℕ)

def Config.blocks : Finset ℕ :=
  Finset.Ico (offset / c.bytes_per_block) ((offset + length) / c.bytes_per_block)

def step (st : State) : Event → Option State
  | .allocate offset length => (xor c offset length st.store).map (⟨·, st.used ∪ c.blocks offset length⟩)
  | .release offset length => (xor c offset length st.store).map (⟨·, st.used \ c.blocks offset length⟩)

def Config.Range : Prop :=
  c.bytes_per_block ∣ offset ∧ c.bytes_per_block ∣ length ∧ 0 < length ∧ offset + length ≤ c.size

/-- Free blocks are allocated, and allocated ones released, but never the first. -/
def Valid (st : State) : Event → Prop
  | .allocate offset length => c.Range offset length ∧ Disjoint st.used (c.blocks offset length)
  | .release offset length => c.Range offset length ∧ c.blocks offset length ⊆ st.used ∧ offset ≠ 0

instance (offset length : ℕ) : Decidable (c.Range offset length) := inferInstanceAs (Decidable (_ ∧ _))

instance (st : State) : (ev : Event) → Decidable (Valid c st ev)
  | .allocate _ _ => inferInstanceAs (Decidable (_ ∧ _))
  | .release _ _ => inferInstanceAs (Decidable (_ ∧ _))

end Lunule.Freelist
