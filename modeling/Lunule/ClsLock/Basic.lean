import Lunule.Lib.Exec

/-!
# Advisory object locks

The class methods of `cls_lock.cc` on one object. A lock is an attribute of the object, one per lock name: a type, a
tag and the table of its lockers, each an entity together with a cookie. `read_lock` drops the expired lockers from
the copy that it reads, so they stay stored until a later call writes the attribute.

A time is a `utime_t` counted in nanoseconds. Its seconds are 32 bits wide, so that a sum wraps (`utimeAdd`). A
method may read the clock twice, once in `read_lock` and once for the expiration of a new locker; a call carries both
readings, and the error (if any) that writing the attribute ends with.
-/

namespace Lunule.ClsLock
open Exec

inductive ClsLockType where
  | none
  | exclusive
  | shared
  | unknown (code : ℕ)
  deriving DecidableEq

inductive Errno where
  | inval
  | busy
  | exist
  | noent
  | setxattr (code : ℕ)
  deriving DecidableEq

/-- The first time, in nanoseconds, that a `utime_t` cannot hold. -/
def utimeWrap : ℕ := 2 ^ 32 * 10 ^ 9

/-- `utime_t::operator+=`: the carry goes into 32-bit seconds. -/
def utimeAdd (t d : ℕ) : ℕ := (t + d) % utimeWrap

structure LockerId (α : Type) where
  locker : α
  cookie : String
  deriving DecidableEq

/-- A locker. `lockType` and `tag` are what it asked for; they are not part of the source, and no method reads
them. -/
structure LockerInfo where
  expiration : ℕ
  addr : String
  description : String
  lockType : ClsLockType
  tag : String
  deriving DecidableEq

def LockerInfo.expired (now : ℕ) (info : LockerInfo) : Bool := info.expiration != 0 && decide (info.expiration < now)

structure LockInfo (α : Type) where
  lockers : List (LockerId α × LockerInfo) := []
  lockType : ClsLockType := .none
  tag : String := ""

/-- The object: whether it exists, and its lock attribute for each lock name. -/
structure Obj (α : Type) where
  present : Bool
  attr : String → Option (LockInfo α)

inductive Op (α : Type) where
  | lock (name : String) (lockType : ClsLockType) (duration : ℕ) (description : String) (flags : ℕ)
      (cookie tag : String)
  | unlock (name cookie : String)
  | breakLock (name : String) (locker : α) (cookie : String)
  | assertLocked (name : String) (lockType : ClsLockType) (cookie tag : String)

/-- A call: its origin, the two readings of the clock and what writing the attribute returns. -/
structure Call (α : Type) where
  origin : α
  addr : String
  now : ℕ
  later : ℕ
  writeError : Option ℕ := none
  op : Op α

variable {α : Type} [DecidableEq α]

def LockInfo.trim (now : ℕ) (l : LockInfo α) : LockInfo α :=
  { l with lockers := l.lockers.filter fun e => !e.2.expired now }

def LockInfo.find (l : LockInfo α) (id : LockerId α) : Option LockerInfo :=
  (l.lockers.find? fun e => e.1 = id).map Prod.snd

def LockInfo.erase (l : LockInfo α) (id : LockerId α) : LockInfo α :=
  { l with lockers := l.lockers.filter fun e => e.1 ≠ id }

variable (o : Obj α)

def readLock (name : String) (now : ℕ) : Except Errno (LockInfo α) :=
  if o.present then .ok (((o.attr name).map fun l => l.trim now).getD {}) else .error .noent

def writeLock (name : String) (l : LockInfo α) (writeError : Option ℕ) : Except Errno Unit × Obj α :=
  match writeError with
  | some code => (.error (.setxattr code), o)
  | none => (.ok (), { present := true, attr := fun n => if n = name then some l else o.attr n })

/-- The checks of `lock_obj` on the lock that it read: the error, or the lock without the caller's own entry. -/
def joinLock (l : LockInfo α) (id : LockerId α) (lockType : ClsLockType) (flags : ℕ) (tag : String) :
    Except Errno (LockInfo α) :=
  if l.lockers ≠ [] ∧ tag ≠ l.tag then .error .busy
  else if (l.find id).isSome ∧ flags.testBit 0 = false then .error .exist
  else if (l.erase id).lockers ≠ [] ∧ (lockType = .exclusive ∨ l.lockType ≠ lockType) then .error .busy
  else .ok (l.erase id)

variable (c : Call α)

/-- The entry of the caller; a lock without duration does not expire. -/
def Call.lockerInfo (lockType : ClsLockType) (duration : ℕ) (description tag : String) : LockerInfo :=
  ⟨if duration = 0 then 0 else utimeAdd c.later duration, c.addr, description, lockType, tag⟩

def lockObj (name : String) (lockType : ClsLockType) (duration : ℕ) (description : String)
    (flags : ℕ) (cookie tag : String) : Except Errno Unit × Obj α :=
  if lockType ≠ .exclusive ∧ lockType ≠ .shared then (.error .inval, o)
  else if name = "" then (.error .inval, o)
  else
    -- an object that does not exist has no lock yet
    let l := ((readLock o name c.now).toOption).getD {}
    match joinLock l ⟨c.origin, cookie⟩ lockType flags tag with
    | .error e => (.error e, o)
    | .ok l =>
      let info := c.lockerInfo lockType duration description tag
      writeLock o name { lockers := (⟨c.origin, cookie⟩, info) :: l.lockers, lockType, tag } c.writeError

def removeLock (name : String) (locker : α) (cookie : String) : Except Errno Unit × Obj α :=
  match readLock o name c.now with
  | .error e => (.error e, o)
  | .ok l =>
    if (l.find ⟨locker, cookie⟩).isNone then (.error .noent, o)
    else writeLock o name (l.erase ⟨locker, cookie⟩) c.writeError

def assertLocked (name : String) (lockType : ClsLockType) (cookie tag : String) : Except Errno Unit :=
  if lockType ≠ .exclusive ∧ lockType ≠ .shared then .error .inval
  else if name = "" then .error .inval
  else
    match readLock o name c.now with
    | .error e => .error e
    | .ok l =>
      if l.lockers = [] then .error .busy
      else if l.lockType ≠ lockType then .error .busy
      else if l.tag ≠ tag then .error .busy
      else if (l.find ⟨c.origin, cookie⟩).isNone then .error .busy
      else .ok ()

/-- One method call: what it returns, and the object it leaves. -/
def call : Except Errno Unit × Obj α :=
  match c.op with
  | .lock name lockType duration description flags cookie tag =>
    lockObj o c name lockType duration description flags cookie tag
  | .unlock name cookie => removeLock o c name c.origin cookie
  | .breakLock name locker cookie => removeLock o c name locker cookie
  | .assertLocked name lockType cookie tag => (assertLocked o c name lockType cookie tag, o)

structure State (α : Type) where
  obj : Obj α
  clock : ℕ

/-- Before the first call no lock was ever taken; the object may or may not exist. -/
def init (present : Bool) (clock : ℕ) : State α := ⟨⟨present, fun _ => none⟩, clock⟩

/-- The calls are executed one after another and the clock never goes back. -/
def step (s : State α) (c : Call α) : Option (State α) :=
  if s.clock ≤ c.now ∧ c.now ≤ c.later then some ⟨(call s.obj c).2, c.later⟩ else none

def locker (name : String) (id : LockerId α) (t : ℕ) : Option LockerInfo :=
  (o.attr name).bind fun l => (l.trim t).find id

def Call.target : Option (String × LockerId α) :=
  match c.op with
  | .lock name _ _ _ _ cookie _ => some (name, ⟨c.origin, cookie⟩)
  | .unlock name cookie => some (name, ⟨c.origin, cookie⟩)
  | .breakLock name locker cookie => some (name, ⟨locker, cookie⟩)
  | .assertLocked .. => none

end Lunule.ClsLock
