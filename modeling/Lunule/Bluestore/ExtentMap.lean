import Lunule.Bluestore.UseTracker

/-!
# The extent map of an object

`ExtentMap`: the extents of an object in the order of their logical offsets, each of which refers to a part of a blob. Blobs
are of an arbitrary type, and what is known of each blob is kept beside the map, since extents share them. The offsets of the
shards are in order. The physical extents of the blobs are left out, and with them what `put_ref` releases of them.

Offsets and lengths are 32-bit values of an object of at most `OBJECT_MAX_SIZE` bytes; nothing wraps. Functions return `none`
where an assertion fails.
-/

namespace Lunule.Bluestore
open RangeMap (seek)

structure Extent (β : Type) where
  logical_offset : ℕ
  blob_offset : ℕ
  length : ℕ
  blob : β
deriving DecidableEq

namespace Extent
variable {β : Type} (e : Extent β)

def logicalEnd : ℕ := e.logical_offset + e.length

def target (b : ℕ) : β × ℕ := (e.blob, e.blob_offset + (b - e.logical_offset))

end Extent

structure OldExtent (β : Type) where
  e : Extent β
  blob_empty : Bool
deriving DecidableEq

/-- What the extent map uses of a `Blob`. -/
structure Blob where
  logical_length : ℕ
  /-- `get_release_size(min_alloc_size)`. -/
  release_size : ℕ
  used_in_blob : UseTracker
deriving DecidableEq

def Blob.getRef (b : Blob) (offset length : ℕ) : Option Blob :=
  if b.logical_length = 0 then none
  else
    let tracker :=
      if b.used_in_blob.isNotEmpty then some b.used_in_blob else b.used_in_blob.init b.logical_length b.release_size
    (tracker.bind (·.get offset length)).map fun t => { b with used_in_blob := t }

def Blob.putRef (b : Blob) (offset length : ℕ) : Option Blob :=
  (b.used_in_blob.put offset length).map fun r => { b with used_in_blob := r.1 }

def OBJECT_MAX_SIZE : ℕ := 0xffffffff

structure ExtentMap (β : Type) where
  extent_map : List (Extent β)
  blobs : β → Blob
  /-- `shard_info->offset` of each shard. -/
  shards : List ℕ
  needs_reshard_begin : ℕ
  needs_reshard_end : ℕ
  shards_sorted : shards.Pairwise (· < ·)

namespace ExtentMap
variable {β : Type} [DecidableEq β]

/-- `OldExtent::create`. -/
def createOld (blobs : β → Blob) (e : Extent β) : Option (OldExtent β × (β → Blob)) :=
  ((blobs e.blob).putRef e.blob_offset e.length).map fun b =>
    (⟨e, b.used_in_blob.getReferencedBytes = 0⟩, Function.update blobs e.blob b)

/-- `extent_map.insert`, which keeps an extent with the same offset. -/
def insert : List (Extent β) → Extent β → List (Extent β)
  | [], le => [le]
  | p :: m, le =>
    if le.logical_offset < p.logical_offset then le :: p :: m
    else if le.logical_offset = p.logical_offset then p :: m
    else p :: insert m le

def seekLextent (m : List (Extent β)) (offset : ℕ) : List (Extent β) × List (Extent β) :=
  seek Extent.logical_offset Extent.logicalEnd m offset

/-- The loop of `punch_hole`, from the first extent it looks at on: the extents, what was taken out and the blobs. -/
def punchLoop (offset length : ℕ) :
    List (Extent β) → (β → Blob) → Option (List (Extent β) × List (OldExtent β) × (β → Blob))
  | [], blobs => some ([], [], blobs)
  | p :: rest, blobs =>
    let stop := offset + length
    if stop ≤ p.logical_offset then some (p :: rest, [], blobs)
    else if p.logical_offset < offset then
      if stop < p.logicalEnd then do
        -- split and deref middle
        let front := offset - p.logical_offset
        let (oe, blobs) ← createOld blobs ⟨offset, p.blob_offset + front, length, p.blob⟩
        let rest := insert rest ⟨stop, p.blob_offset + front + length, p.length - front - length, p.blob⟩
        return ({ p with length := front } :: rest, [oe], blobs)
      else if p.logicalEnd ≤ offset then none
      else do
        -- deref tail
        let keep := offset - p.logical_offset
        let (oe, blobs) ← createOld blobs ⟨offset, p.blob_offset + keep, p.length - keep, p.blob⟩
        let (rest, old, blobs) ← punchLoop offset length rest blobs
        return ({ p with length := keep } :: rest, oe :: old, blobs)
    else if p.logical_offset + p.length ≤ stop then do
      -- deref whole lextent
      let (oe, blobs) ← createOld blobs p
      let (rest, old, blobs) ← punchLoop offset length rest blobs
      return (rest, oe :: old, blobs)
    else do
      -- deref head
      let keep := p.logicalEnd - stop
      let (oe, blobs) ← createOld blobs { p with length := p.length - keep }
      return (insert rest ⟨stop, p.blob_offset + p.length - keep, keep, p.blob⟩, [oe], blobs)

variable (em : ExtentMap β)

def punchHole (offset length : ℕ) (old_extents : List (OldExtent β)) : Option (ExtentMap β × List (OldExtent β)) :=
  let (before, rest) := seekLextent em.extent_map offset
  (punchLoop offset length rest em.blobs).map fun r =>
    ({ em with extent_map := before.reverse ++ r.1, blobs := r.2.2 }, old_extents ++ r.2.1)

/-- The loop of `seek_shard`, a binary search. -/
def seekShardLoop (shards : List ℕ) (offset : ℕ) : ℕ → ℕ → ℕ → Option ℕ
  | 0, _, _ => none
  | n + 1, left, right =>
    if left < right then
      let mid := left + (right - left) / 2
      if shards.getD mid 0 ≤ offset then
        let next := mid + 1
        if shards.length ≤ next ∨ offset < shards.getD next 0 then some mid
        else seekShardLoop shards offset n next right
      else seekShardLoop shards offset n left mid
    else none

def seekShard (shards : List ℕ) (offset : ℕ) : Option ℕ := seekShardLoop shards offset (shards.length + 1) 0 shards.length

def spansShard (shards : List ℕ) (offset length : ℕ) : Option Bool :=
  if shards = [] then some false
  else
    match seekShard shards offset with
    | none => none
    | some s => some (if s = shards.length - 1 then false else !decide (offset + length ≤ shards.getD (s + 1) 0))

def requestReshard (start stop : ℕ) : ExtentMap β :=
  { em with
    needs_reshard_begin := if start < em.needs_reshard_begin then start else em.needs_reshard_begin
    needs_reshard_end := if em.needs_reshard_end < stop then stop else em.needs_reshard_end }

/-- The end of `set_lextent`: the new extent is inserted, and resharding is requested if it spans shards. -/
def addLextent (le : Extent β) : Option (ExtentMap β) :=
  let em := { em with extent_map := insert em.extent_map le }
  (spansShard em.shards le.logical_offset le.length).map fun spans =>
    if spans then em.requestReshard le.logical_offset (le.logical_offset + le.length) else em

/-- `set_lextent`; no hole is punched if there is no list for what is taken out. -/
def setLextent (logical_offset blob_offset length : ℕ) (b : β)
    (old_extents : Option (List (OldExtent β))) : Option (ExtentMap β × Option (List (OldExtent β))) :=
  if (em.blobs b).logical_length = 0 then none
  else
    ((em.blobs b).getRef blob_offset length).bind fun blob =>
      let em := { em with blobs := Function.update em.blobs b blob }
      let le := ⟨logical_offset, blob_offset, length, b⟩
      match old_extents with
      | none => (em.addLextent le).map fun em => (em, none)
      | some old =>
        (em.punchHole logical_offset length old).bind fun r => (r.1.addLextent le).map fun em => (em, some r.2)

def shardEnd (pshard : List ℕ) : ℕ := pshard.headD OBJECT_MAX_SIZE

/-- The condition of the inner loop of `compress_extent_map`. -/
def mergeable (p n : Extent β) (shard_end : ℕ) : Bool :=
  p.logicalEnd = n.logical_offset ∧ p.blob = n.blob ∧ p.blob_offset + p.length = n.blob_offset ∧ n.logical_offset < shard_end

/-- The loops of `compress_extent_map`: `p`, the extents after it and the next shards. `inner` says that the inner loop goes
on, which does not look at the end of the range. -/
def compressLoop (stop : ℕ) : List (Extent β) → Extent β → List ℕ → Bool → Option (List (Extent β) × ℕ)
  | [], p, _, _ => some ([p], 0)
  | n :: rest, p, pshard, inner =>
    if !inner && stop < n.logical_offset then some (p :: n :: rest, 0)  -- stop after end
    else if mergeable p n (shardEnd pshard) then
      (compressLoop stop rest { p with length := p.length + n.length } pshard true).map fun r => (r.1, r.2 + 1)
    else if shardEnd pshard ≤ n.logical_offset then
      match pshard with
      | [] => none
      | _ :: pshard => (compressLoop stop rest n pshard false).map fun r => (p :: r.1, r.2)
    else (compressLoop stop rest n pshard false).map fun r => (p :: r.1, r.2)

/-- Where `compress_extent_map` starts: to the left of `offset`, if there is anything. -/
def seekLeft (m : List (Extent β)) (offset : ℕ) : List (Extent β) × List (Extent β) :=
  match seekLextent m offset with
  | (q :: before, rest) => (before, q :: rest)
  | ([], rest) => ([], rest)

/-- `compress_extent_map`, with the number of removed extents. -/
def compressExtentMap (offset length : ℕ) : Option (ExtentMap β × ℕ) :=
  if em.extent_map = [] then some (em, 0)
  else
    match seekLeft em.extent_map offset with
    | (_, []) => none
    | (before, p :: rest) =>
      (compressLoop (offset + length) rest p (em.shards.dropWhile (· ≤ p.logical_offset)) false).map fun r =>
        ({ em with extent_map := before.reverse ++ r.1 }, r.2)

end ExtentMap
end Lunule.Bluestore
