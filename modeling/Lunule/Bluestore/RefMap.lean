import Lunule.Lib.Exec
import Lunule.Lib.RangeMap

/-!
# The reference counts of a shared blob

`bluestore_extent_ref_map_t`: a map from offsets to records of a length and a number of references. A position in the map
(an iterator) is the list of entries before it, nearest first, and the list of entries from it on. The fields of a record
are 32 bits wide; offsets do not wrap, so that the results are about ranges that end below `2 ^ 64`.

Functions return `none` where an assertion fails or the end of the map is dereferenced.
-/

namespace Lunule.Bluestore
open RangeMap (lowerBound seek covering)

def wrap32 (n : ℕ) : ℕ := n % 2 ^ 32

structure Entry where
  offset : ℕ
  length : ℕ
  refs : ℕ
  length_lt : length < 2 ^ 32
  refs_lt : refs < 2 ^ 32
deriving DecidableEq

def record (offset length refs : ℕ) : Entry :=
  ⟨offset, wrap32 length, wrap32 refs, Nat.mod_lt _ (by decide), Nat.mod_lt _ (by decide)⟩

def Entry.stop (p : Entry) : ℕ := p.offset + p.length

abbrev PExtent := ℕ × ℕ

namespace RefMap

def checkFrom : ℕ → ℕ → List Entry → Bool
  | _, _, [] => true
  | pos, refs, p :: m =>
    if p.offset < pos then false  -- overlap
    else if p.offset = pos ∧ p.refs = refs then false  -- unmerged
    else checkFrom p.stop p.refs m

variable (m : List Entry)

def check : Bool := checkFrom 0 0 m

def maybeMergeLeft : List Entry → Entry → List Entry × Entry
  | [], p => ([], p)
  | q :: before, p =>
    if q.refs = p.refs ∧ q.stop = p.offset then (before, record q.offset (q.length + p.length) q.refs)
    else (q :: before, p)

variable (before : List Entry)

/-- `_maybe_merge_left(p)` and `++p`. -/
def push (p : Entry) : List Entry :=
  let merged := maybeMergeLeft before p
  merged.2 :: merged.1

/-- The map, after `_maybe_merge_left(p)` unless `p` is at the end. -/
def close : List Entry → List Entry
  | [] => before.reverse
  | p :: rest => (push before p).reverse ++ rest

/-- The portion before `offset` is split off. -/
def splitBefore (p : Entry) (offset : ℕ) : List Entry × Entry :=
  if p.offset < offset then
    (record p.offset (offset - p.offset) p.refs :: before, record offset (p.stop - offset) p.refs)
  else (before, p)

/-- The gap before `p` is filled. -/
def fillGap (p : Entry) (offset length : ℕ) : List Entry × ℕ × ℕ :=
  if offset < p.offset then
    let newlen := min (p.offset - offset) length
    (push before (record offset newlen 1), offset + newlen, length - newlen)
  else (before, offset, length)

/-- The loop of `get`. After a gap was filled the loop goes on with the same entry, if anything is left. -/
def getLoop (before : List Entry) : List Entry → ℕ → ℕ → Option (List Entry)
  | [], offset, length =>
    some (if length = 0 then close before [] else close before [record offset length 1])
  | p :: rest, offset, length =>
    if length = 0 then some (close before (p :: rest))
    else
      let (before, offset, length) := fillGap before p offset length
      if length = 0 then some (close before (p :: rest))
      else if p.offset < offset ∧ p.stop ≤ offset then none
      else
        let (before, p) := splitBefore before p offset
        if p.offset ≠ offset then none
        else if length < p.length then
          some (close before
            (record offset length (p.refs + 1) :: record (offset + length) (p.length - length) p.refs :: rest))
        else getLoop (push before (record offset p.length (p.refs + 1))) rest (offset + p.length) (length - p.length)

variable (offset length : ℕ)

def get : Option (List Entry) :=
  let (before, rest) := seek Entry.offset Entry.stop m offset
  getLoop before rest offset length

/-- The loop of `put`: the map, `release` and `unshared`. -/
def putLoop (before : List Entry) : List Entry → ℕ → ℕ → List PExtent → Bool → Option (List Entry × List PExtent × Bool)
  | [], _, length, release, unshared => if length = 0 then some (close before [], release, unshared) else none
  | p :: rest, offset, length, release, unshared =>
    if length = 0 then some (close before (p :: rest), release, unshared)
    else if p.offset ≠ offset then none
    else if length < p.length then
      let unshared := unshared && p.refs = 1
      let tail := record (offset + length) (p.length - length) p.refs
      if 1 < p.refs then
        some (close before (record offset length (p.refs - 1) :: tail :: rest), release, unshared && p.refs - 1 = 1)
      else some (before.reverse ++ tail :: rest, release ++ [(p.offset, length)], unshared)
    else if 1 < p.refs then
      putLoop (push before (record offset p.length (p.refs - 1))) rest (offset + p.length) (length - p.length) release
        (unshared && p.refs - 1 = 1)
    else putLoop before rest (offset + p.length) (length - p.length) (release ++ [(p.offset, p.length)]) unshared

/-- `put`: the map, `release` and `maybe_unshared`. -/
def put (m : List Entry) (offset length : ℕ) (release : List PExtent) : Option (List Entry × List PExtent × Bool) :=
  match covering Entry.offset Entry.stop m offset with
  | none => none  -- put on missing extent
  | some (before, p, rest) =>
    let unshared := decide ¬(p.offset < offset ∧ p.refs ≠ 1)
    let (before, p) := splitBefore before p offset
    (putLoop before (p :: rest) offset length release unshared).map fun r =>
      (r.1, r.2.1, r.2.2 && r.1.all (·.refs = 1))

def containsLoop : List Entry → ℕ → ℕ → Bool
  | [], _, length => length = 0
  | p :: rest, offset, length =>
    if length = 0 then true
    else if offset < p.offset then false
    else if offset + length ≤ p.stop then true
    else containsLoop rest (offset + (p.stop - offset)) (length - (p.stop - offset))

def contains : Bool :=
  match covering Entry.offset Entry.stop m offset with
  | none => false
  | some (_, p, rest) => containsLoop (p :: rest) offset length

def intersects : Bool :=
  match (seek Entry.offset Entry.stop m offset).2 with
  | [] => false
  | p :: _ => !decide (offset + length ≤ p.offset)

inductive Call
  | get (offset length : ℕ)
  | put (offset length : ℕ)
deriving DecidableEq

def step : Call → Option (List Entry)
  | .get offset length => get m offset length
  | .put offset length => (put m offset length []).map Prod.fst

end RefMap
end Lunule.Bluestore
