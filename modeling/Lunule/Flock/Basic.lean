import Lunule.Lib.Ranges

/-!
# Advisory file locks

`ceph_lock_state_t`: the locks held on a file and the locks that wait, each in a multimap by start, and the number of
both for each client. Offsets are unsigned 64-bit integers, and a length of `0` reaches to the end of the file. A
position in a multimap (an iterator) is given by the lock there: the locks held are distinct.

Whether a blocked lock would deadlock is decided from the locks that wait on all files; here it is an argument. A
function returns `none` where the source aborts.
-/

namespace Lunule.Flock

/-- The types of a lock: `CEPH_LOCK_SHARED` and `CEPH_LOCK_EXCL`. -/
inductive LockType
  | shared | excl
deriving DecidableEq

/-- `ceph_filelock`. -/
structure Filelock where
  start : Nat
  length : Nat
  client : Nat
  owner : Nat
  pid : Nat
  type : LockType
deriving DecidableEq

/-- `ceph_filelock_owner_equal`: old clients leave the top bit of `owner` unset, and their `pid` counts. -/
def ownerEqual (l r : Filelock) : Bool :=
  if l.client ≠ r.client ∨ l.owner ≠ r.owner then false
  else if l.owner.testBit 63 then true
  else decide (l.pid = r.pid)

/-! ### Arithmetic of the source -/

def add64 (a b : Nat) : Nat := (a + b) % 2 ^ 64

def sub64 (a b : Nat) : Nat := (a + 2 ^ 64 - b) % 2 ^ 64

def asInt (x : Nat) : Nat := if x % 2 ^ 32 < 2 ^ 31 then x % 2 ^ 32 else x % 2 ^ 32 + (2 ^ 64 - 2 ^ 32)

def lastByte (l : Filelock) : Nat := sub64 (add64 l.start l.length) 1

/-! ### The state -/

/-- `map<client_t, int>`. -/
abbrev Counts := Nat → Option Int

namespace Counts

/-- The value `m[c]`, which is `0` where there is no entry. -/
def get (m : Counts) (c : Nat) : Int := (m c).getD 0

def add (m : Counts) (c : Nat) (n : Int) : Counts := Function.update m c (some (m.get c + n))

def prune (m : Counts) (c : Nat) : Counts := Function.update m c (if m.get c = 0 then none else some (m.get c))

end Counts

/-- `ceph_lock_state_t`. -/
structure LockState where
  held : List Filelock := []
  waiting : List Filelock := []
  heldCounts : Counts := fun _ => none
  waitingCounts : Counts := fun _ => none

/-- `insert` into a multimap: behind the locks with the same start. -/
def insertLock (m : List Filelock) (l : Filelock) : List Filelock :=
  m.takeWhile (·.start ≤ l.start) ++ l :: m.dropWhile (·.start ≤ l.start)

namespace LockState
variable (s : LockState)

def insertHeld (l : Filelock) : LockState :=
  { s with held := insertLock s.held l, heldCounts := s.heldCounts.add l.client 1 }

def eraseHeld (l : Filelock) : LockState :=
  { s with held := s.held.erase l, heldCounts := s.heldCounts.add l.client (-1) }

/-- `old_lock->length = n`. -/
def setLength (l : Filelock) (n : Nat) : LockState :=
  { s with held := s.held.map fun x => if x = l then { x with length := n } else x }

def pruneHeld (client : Nat) : LockState := { s with heldCounts := s.heldCounts.prune client }

/-! ### Waiting locks -/

/-- The search of `is_waiting` from the first lock with the same start. -/
def isWaitingFrom (fl : Filelock) : List Filelock → Bool
  | [] => false
  | p :: rest =>
    if p.start > fl.start then false
    else if p.length = fl.length ∧ ownerEqual p fl then true
    else isWaitingFrom fl rest

def isWaiting (fl : Filelock) : Bool := isWaitingFrom fl (s.waiting.dropWhile (·.start ≠ fl.start))

/-- The locks from a position on after `remove_waiting`, if it removes one. -/
def eraseWaiting (fl : Filelock) : List Filelock → Option (List Filelock)
  | [] => none
  | p :: rest =>
    if p.start > fl.start then none
    else if p.length = fl.length ∧ ownerEqual p fl then some rest
    else (eraseWaiting fl rest).map (p :: ·)

def removeWaiting (fl : Filelock) : LockState :=
  match eraseWaiting fl (s.waiting.dropWhile (·.start ≠ fl.start)) with
  | none => s
  | some rest =>
    { s with
      waiting := s.waiting.takeWhile (·.start ≠ fl.start) ++ rest
      waitingCounts := (s.waitingCounts.add fl.client (-1)).prune fl.client }

def addWaiting (fl : Filelock) : LockState :=
  { s with waiting := insertLock s.waiting fl, waitingCounts := s.waitingCounts.add fl.client 1 }

end LockState

/-! ### Overlapping locks -/

/-- `share_space(iter, start, end)`. -/
def shareSpaceIn (l : Filelock) (start en : Nat) : Bool :=
  (decide (l.start ≥ start) && decide (l.start ≤ en)) ||
    (decide (l.start < start) && (decide (lastByte l ≥ start) || decide (0 = l.length)))

/-- `share_space(iter, lock)`. -/
def shareSpace (l lock : Filelock) : Bool :=
  shareSpaceIn l lock.start (if lock.length ≠ 0 then add64 lock.start (sub64 lock.length 1) else 2 ^ 64 - 1)

def neighborCheckLock (lock : Filelock) : Filelock :=
  if lock.start ≠ 0 then
    { lock with start := lock.start - 1, length := if lock.length ≠ 0 then add64 lock.length 2 else 0 }
  else { lock with length := if lock.length ≠ 0 then add64 lock.length 1 else 0 }

/-- The locks from `get_last_before` down to the first. -/
def lastBefore (m : List Filelock) (en : Nat) : List Filelock :=
  match m.takeWhile (·.start ≤ en) with
  | [] => m.head?.toList
  | pre => pre.reverse

/-- The loop of `get_overlapping_locks`, down to the first lock or an exclusive one that starts before. -/
def scan (lock : Filelock) : List Filelock → List Filelock → List Filelock → List Filelock × List Filelock
  | [], overlaps, neighbors => (overlaps, neighbors)
  | l :: rest, overlaps, neighbors =>
    let r :=
      if shareSpace l lock then (l :: overlaps, neighbors)
      else if ownerEqual (neighborCheckLock lock) l && shareSpace l (neighborCheckLock lock) then (overlaps, l :: neighbors)
      else (overlaps, neighbors)
    if l.start < lock.start ∧ l.type = .excl then r else scan lock rest r.1 r.2

/-- `get_overlapping_locks`: the locks that overlap, and the neighbors of the same owner. -/
def getOverlappingLocks (m : List Filelock) (lock : Filelock) : List Filelock × List Filelock :=
  let endpoint := if lock.length ≠ 0 then add64 lock.start lock.length else 2 ^ 64 - 1
  scan lock (lastBefore m endpoint) [] []

/-- `split_by_owner`: the locks of others and the owner's. -/
def splitByOwner (owner : Filelock) (locks : List Filelock) : List Filelock × List Filelock :=
  (locks.filter fun l => !ownerEqual l owner, locks.filter fun l => ownerEqual l owner)

def containsExclusiveLock (locks : List Filelock) : Bool := locks.any fun l => l.type = .excl

/-! ### Changing locks -/

namespace LockState
variable (s : LockState)

/-- What starts before `start` remains of an old lock. -/
def trim (old : Filelock) (start : Nat) : LockState :=
  if old.start < start then s.setLength old (sub64 start old.start) else s.eraseHeld old

/-- An old lock loses the range of `lock`; what lies behind the range becomes a lock of its own. -/
def carve (toEnd : Bool) (lock old : Filelock) : LockState :=
  if toEnd then s.trim old lock.start
  else if old.length = 0 then (s.insertHeld { old with start := add64 (lastByte lock) 1 }).trim old lock.start
  else if lastByte old > lastByte lock then
    let start := add64 (lastByte lock) 1
    (s.insertHeld { old with start, length := add64 (sub64 (lastByte old) start) 1 }).trim old lock.start
  else s.trim old lock.start

/-- The first loop of `adjust_locks`, on one old lock of the same owner. -/
def adjustOld (toEnd : Bool) (r : LockState × Filelock) (old : Filelock) : LockState × Filelock :=
  let s := r.1
  let new := r.2
  if old.type = new.type then
    let start := if old.start < new.start then old.start else new.start
    let length :=
      if toEnd ∨ old.length = 0 then 0
      else
        let newEnd := if lastByte new > lastByte old then lastByte new else lastByte old
        add64 (sub64 (asInt newEnd) start) 1
    ((s.eraseHeld old).pruneHeld old.client, { new with start, length })
  else ((s.carve toEnd new old).pruneHeld old.client, new)

/-- The new lock together with a neighbor of the same type. -/
def coalesced (new old : Filelock) : Option Filelock :=
  if new.length = 0 then
    if add64 old.start old.length = new.start then some { new with start := old.start } else none
  else if old.length = 0 then
    if add64 new.start new.length = old.start then some { new with length := 0 } else none
  else if add64 old.start old.length = new.start then
    some { new with start := old.start, length := add64 old.length new.length }
  else if add64 new.start new.length = old.start then some { new with length := add64 old.length new.length }
  else some new

/-- The second loop of `adjust_locks`, on one neighbor. -/
def coalesce (r : LockState × Filelock) (old : Filelock) : Option (LockState × Filelock) :=
  if old.type = r.2.type then (coalesced r.2 old).map fun new => ((r.1.eraseHeld old).pruneHeld old.client, new)
  else some (r.1.pruneHeld old.client, r.2)

def adjustLocks (oldLocks : List Filelock) (new : Filelock) (neighbors : List Filelock) :
    Option (LockState × Filelock) :=
  neighbors.foldlM coalesce (oldLocks.foldl (adjustOld (decide (new.length = 0))) (s, new))

/-- The outcome of `add_lock`: the state, the lock as set, whether it was set, and whether it would deadlock. -/
structure Added where
  state : LockState
  lock : Filelock
  ret : Bool
  deadlock : Bool

def block (new : Filelock) (waitOnFail replay isDeadlock : Bool) : Added :=
  if waitOnFail && !replay then
    if isDeadlock then ⟨s, new, false, true⟩ else ⟨s.addWaiting new, new, false, false⟩
  else ⟨s, new, false, false⟩

def grant (new : Filelock) (own neighbors : List Filelock) : Option Added :=
  ((s.removeWaiting new).adjustLocks own new neighbors).map fun r => ⟨r.1.insertHeld r.2, r.2, true, false⟩

def addLock (new : Filelock) (waitOnFail replay isDeadlock : Bool) : Option Added :=
  let found := getOverlappingLocks s.held new
  let split := splitByOwner new found.1
  if split.1.isEmpty then s.grant new split.2 found.2
  else if new.type = .excl then some (s.block new waitOnFail replay isDeadlock)
  else if containsExclusiveLock split.1 then some (s.block new waitOnFail replay isDeadlock)
  else s.grant new split.2 found.2

def removeLock (removal : Filelock) : LockState :=
  let own := (splitByOwner removal (getOverlappingLocks s.held removal).1).2
  own.foldl (fun s old => (s.carve (decide (removal.length = 0)) removal old).pruneHeld old.client) s

def removeHeldOf (client : Nat) : LockState :=
  if (s.heldCounts client).isSome then
    { s with held := s.held.filter (·.client ≠ client), heldCounts := Function.update s.heldCounts client none }
  else s

def removeWaitingOf (client : Nat) : LockState :=
  if (s.waitingCounts client).isSome then
    { s with
      waiting := s.waiting.filter (·.client ≠ client)
      waitingCounts := Function.update s.waitingCounts client none }
  else s

/-- `remove_all_from`: the state, and whether any lock was held. -/
def removeAllFrom (client : Nat) : LockState × Bool :=
  ((s.removeHeldOf client).removeWaitingOf client, (s.heldCounts client).isSome)

end LockState

/-! ### Runs -/

inductive LockOp
  | add (lock : Filelock) (waitOnFail replay isDeadlock : Bool)
  | remove (lock : Filelock)
  | removeWaiting (lock : Filelock)
  | removeAll (client : Nat)

def step (s : LockState) : LockOp → Option LockState
  | .add lock waitOnFail replay isDeadlock => (s.addLock lock waitOnFail replay isDeadlock).map (·.state)
  | .remove lock => some (s.removeLock lock)
  | .removeWaiting lock => some (s.removeWaiting lock)
  | .removeAll client => some (s.removeAllFrom client).1

end Lunule.Flock
