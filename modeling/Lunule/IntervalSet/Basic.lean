import Lunule.Lib.Intervals

/-!
# Interval sets

`interval_set<T>`: a map from interval starts to lengths, in the order of the starts, and the number of elements in a
signed 64-bit field. A position in the map (an iterator) is the list of intervals before it and the list from it on.
Starts, lengths and ends are integers: none of the sums of a start and a length may leave the range of `T`.

Functions return `none` where an assertion fails.
-/

namespace Lunule
open Intervals

def wrap64 (x : Int) : Int := (x + 2 ^ 63) % 2 ^ 64 - 2 ^ 63

structure IntervalSet where
  m : List Interval := []
  size : Int := 0
deriving DecidableEq

namespace IntervalSet

/-! ### The map -/

variable (m : List Interval)

/-- `m.lower_bound(start)`. -/
def lowerBound (start : Int) : List Interval × List Interval := (m.takeWhile (·.1 < start), m.dropWhile (·.1 < start))

def assign : List Interval → Int → Int → List Interval
  | [], k, v => [(k, v)]
  | p :: m, k, v => if k < p.1 then (k, v) :: p :: m else if k = p.1 then (k, v) :: m else p :: assign m k v

/-- `m.insert(i)`, which keeps an interval with the same start. -/
def emplace : List Interval → Interval → List Interval
  | [], i => [i]
  | p :: m, i => if i.1 < p.1 then i :: p :: m else if i.1 = p.1 then p :: m else p :: emplace m i

/-- The position of `find_inc` and `find_adj`: one back from the lower bound if the interval there is not past. -/
def seek (past : Interval → Bool) (m : List Interval) (start : Int) : List Interval × List Interval :=
  let b := lowerBound m start
  match b.1.getLast? with
  | none => b
  | some q => if (b.2.head?.all fun p => start < p.1) && !past q then (b.1.dropLast, q :: b.2) else b

def findInc (start : Int) : List Interval × List Interval := seek (fun q => q.1 + q.2 ≤ start) m start

def findAdj (start : Int) : List Interval × List Interval := seek (fun q => q.1 + q.2 < start) m start

/-! ### Elements and ranges -/

variable (s : IntervalSet)

def contains? (i : Int) : Option Interval :=
  match (findInc s.m i).2 with
  | [] => none
  | p :: _ => if p.1 > i then none else if p.1 + p.2 ≤ i then none else some p

def contains (s : IntervalSet) (i : Int) : Bool := (s.contains? i).isSome

variable (start len : Int)

def containsRange : Bool :=
  match (findInc s.m start).2 with
  | [] => false
  | p :: _ =>
    if p.1 > start then false
    else if p.1 + p.2 ≤ start then false
    else if p.1 + p.2 < start + len then false
    else true

/-- The map after `insert(start, len)`, and the interval (`pstart`, `plen`) that now holds the range. -/
def insertMap : Option (List Interval × Interval) :=
  match findAdj m start with
  | (_, []) => some (assign m start len, start, len)
  | (pre, p :: rest) =>
    if p.1 < start then
      if p.1 + p.2 ≠ start then none
      else
        -- append to end
        let plen := p.2 + len
        match rest with
        | [] => some (pre ++ [(p.1, plen)], p.1, plen)
        | n :: rest =>
          if start + len = n.1 then some (pre ++ (p.1, plen + n.2) :: rest, p.1, plen + n.2)
          else some (pre ++ (p.1, plen) :: n :: rest, p.1, plen)
    else if start + len = p.1 then some (assign (pre ++ rest) start (len + p.2), start, len + p.2)
    else if p.1 > start + len then some (assign m start len, start, len)
    else none

def insert : Option IntervalSet :=
  if len ≤ 0 then none
  else (insertMap s.m start len).map fun r => ⟨r.1, wrap64 (s.size + len)⟩

/-- `erase(start, len, post_process)`: `keep` decides on each remaining piece. -/
def erase (keep : Int → Int → Bool := fun _ _ => true) : Option IntervalSet :=
  let size := wrap64 (s.size - len)
  match findInc s.m start with
  | (_, []) => none
  | (pre, p :: rest) =>
    let before := start - p.1
    let after := p.2 - before - len
    if size < 0 then none
    else if p.1 > start then none
    else if p.2 < before + len then none
    else
      let m := if before ≠ 0 ∧ keep p.1 before then pre ++ (p.1, before) :: rest else pre ++ rest
      let m := if after ≠ 0 ∧ keep (start + len) after then assign m (start + len) after else m
      some ⟨m, size⟩

def subtract (s a : IntervalSet) : Option IntervalSet := a.m.foldlM (fun s p => s.erase p.1 p.2) s

def insertSet (s a : IntervalSet) : Option IntervalSet := a.m.foldlM (fun s p => s.insert p.1 p.2) s

/-! ### Intersection -/

def push (i : Interval) : IntervalSet := ⟨emplace s.m i, wrap64 (s.size + i.2)⟩

/-- Both lists while their first intervals are equal. -/
def equalRun : List Interval → List Interval → IntervalSet → List Interval × List Interval × IntervalSet
  | p :: pa, q :: pb, acc => if p = q then equalRun pa pb (acc.push p) else (p :: pa, q :: pb, acc)
  | pa, pb, acc => (pa, pb, acc)

/-- The loop of `intersection_of`, for sizes of the same order. -/
def intersectionLoop : Nat → List Interval → List Interval → IntervalSet → Option IntervalSet
  | 0, _, _, _ => none
  | _ + 1, [], _, acc => some acc
  | _ + 1, _ :: _, [], acc => some acc
  | n + 1, p :: pa, q :: pb, acc =>
    -- passing?
    if p.1 + p.2 ≤ q.1 then intersectionLoop n pa (q :: pb) acc
    else if q.1 + q.2 ≤ p.1 then intersectionLoop n (p :: pa) pb acc
    else if p = q then
      let r := equalRun (p :: pa) (q :: pb) acc
      intersectionLoop n r.1 r.2.1 r.2.2
    else
      let start := max p.1 q.1
      let en := min (p.1 + p.2) (q.1 + q.2)
      if en ≤ start then none
      else
        let acc := acc.push (start, en - start)
        if p.1 + p.2 > q.1 + q.2 then intersectionLoop n (p :: pa) pb acc else intersectionLoop n pa (q :: pb) acc

/-- The loop of `intersection_size_asym`: `ps` walks the small set, and each interval of the large one is searched from
`offset`; `prev` is the offset before. -/
def asymLoop (l : List Interval) : Nat → List Interval → Int → Option Int → IntervalSet → Option IntervalSet
  | 0, _, _, _, _ => none
  | n + 1, ps, offset, prev, acc =>
    if prev.any fun o => offset ≤ o then none
    else
      match (findInc l offset).2 with
      | [] => some acc
      | pl :: rest =>
        match ps.dropWhile fun p => p.1 + p.2 ≤ pl.1 with
        | [] => some acc
        | p :: ps =>
          let stop := pl.1 + pl.2
          if stop ≤ p.1 then asymLoop l n (p :: ps) p.1 (some offset) acc
          else if p = pl then
            let r := equalRun (p :: ps) (pl :: rest) acc
            match r.1 with
            | [] => some r.2.2
            | p' :: ps' => asymLoop l n (p' :: ps') p'.1 (some offset) r.2.2
          else
            let start := max p.1 pl.1
            let en := min (p.1 + p.2) stop
            if en ≤ start then none
            else
              let acc := acc.push (start, en - start)
              if p.1 + p.2 ≤ stop then
                match ps with
                | [] => some acc
                | p' :: ps' => asymLoop l n (p' :: ps') p'.1 (some offset) acc
              else asymLoop l n (p :: ps) stop (some offset) acc

/-- `intersection_size_asym(s, l)` into an empty set. -/
def intersectionSizeAsym (s l : IntervalSet) : Option IntervalSet :=
  match s.m with
  | [] => none
  | p :: ps => asymLoop l.m (s.m.length + l.m.length + 1) (p :: ps) p.1 none {}

def intersectionOf (a b : IntervalSet) : Option IntervalSet :=
  let (s, l) := if a.size < b.size then (a, b) else (b, a)
  if s.size = 0 then some {}
  else if Int.tdiv l.size s.size ≥ 10 then intersectionSizeAsym s l
  else intersectionLoop (a.m.length + b.m.length + 1) a.m b.m {}

def intersects : Option Bool := do
  let a ← insert {} start len
  let i ← intersectionOf s a
  return !i.m.isEmpty

/-! ### Union, inclusion and parts -/

def unionOf (a b : IntervalSet) : Option IntervalSet := do
  let ab ← intersectionOf a b
  let s ← a.subtract ab
  s.insertSet b

def unionInsert (off len : Int) : Option IntervalSet := do
  let a ← insert {} off len
  unionOf s a

/-- The inner loops of `subset_size_sym`, over equal intervals. -/
def skipEqual : List Interval → List Interval → List Interval × List Interval
  | p :: pa, q :: pb => if p = q then skipEqual pa pb else (p :: pa, q :: pb)
  | pa, pb => (pa, pb)

/-- The loop of `subset_size_sym`. -/
def subsetLoop : Nat → List Interval → List Interval → Option Bool
  | 0, _, _ => none
  | _ + 1, [], _ => some true
  | _ + 1, _ :: _, [] => some false
  | n + 1, p :: pa, q :: pb =>
    match (q :: pb).dropWhile fun q => q.1 + q.2 ≤ p.1 with
    | [] => some false
    | q :: pb =>
      if p = q then
        let r := skipEqual (p :: pa) (q :: pb)
        subsetLoop n r.1 r.2
      else if p.1 < q.1 then some false
      else if p.1 + p.2 > q.1 + q.2 then some false
      else subsetLoop n pa (q :: pb)

def rangeEnd : Option Int := s.m.getLast?.map fun p => p.1 + p.2

def subsetOf (s big : IntervalSet) : Option Bool :=
  if s.size = 0 then some true
  else if s.size > big.size then some false
  else do
    let e ← s.rangeEnd
    let eb ← big.rangeEnd
    if e > eb then some false
    else if Int.tdiv big.size s.size < 10 then subsetLoop (s.m.length + 1) s.m big.m
    else some (s.m.all fun p => big.containsRange p.1 p.2)

/-- The loop of `subset_of(other, start, end)`. -/
def subsetRangeLoop (start stop : Int) : List Interval → IntervalSet → Option IntervalSet
  | [], acc => some acc
  | p :: ps, acc =>
    if p.1 < start then none
    else if p.1 ≥ stop then some acc
    else if p.1 + p.2 ≥ stop then acc.insert p.1 (stop - p.1)
    else (acc.insert p.1 p.2).bind fun acc => subsetRangeLoop start stop ps acc

def subsetRange (other : IntervalSet) (start stop : Int) : Option IntervalSet :=
  if stop < start then none
  else if stop = start then some {}
  else
    match (findInc other.m start).2 with
    | [] => some {}
    | p :: ps =>
      if p.1 < start then
        if p.1 + p.2 ≥ stop then insert {} start (stop - start)
        else (insert {} start (p.1 + p.2 - start)).bind fun acc => subsetRangeLoop start stop ps acc
      else subsetRangeLoop start stop (p :: ps) {}

/-- The loop of `span_of`. -/
def spanLoop : List Interval → Int → IntervalSet → Option IntervalSet
  | [], _, acc => some acc
  | p :: ps, len, acc =>
    if len ≤ 0 then some acc
    else if p.2 < len then (acc.insert p.1 p.2).bind fun acc => spanLoop ps (len - p.2) acc
    else acc.insert p.1 len

def spanOf (other : IntervalSet) (start len : Int) : Option IntervalSet :=
  match (findInc other.m start).2 with
  | [] => some {}
  | p :: ps =>
    if p.1 < start then
      if p.1 + p.2 < start then some {}
      else if p.1 + p.2 < start + len then
        let howmuch := p.2 - (start - p.1)
        (insert {} start howmuch).bind fun acc => spanLoop ps (len - howmuch) acc
      else insert {} start len
    else spanLoop (p :: ps) len {}

end IntervalSet
end Lunule
