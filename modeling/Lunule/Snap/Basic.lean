import Lunule.Table.Basic

/-!
# The snapshot table

`SnapServer`, the table behind the table server of the snapshots: the snapshots, the removed ones that still have to
be purged from each data pool, and the three sets of prepared operations by tid. A map of the source is a function to
`Option`, so that an entry that is present but empty differs from one that is absent.

The buffer of a request is given by what is decoded from it. An operation returns `none` where the source aborts.
-/

namespace Lunule.Snap
open Table Function

/-- `utime_t`: seconds and nanoseconds. -/
abbrev Stamp := Nat × Nat

structure SnapInfo where
  snapid : Nat
  ino : Nat
  stamp : Stamp
  name : String
  longName : String := ""
deriving DecidableEq

/-- What `SnapInfo::encode` writes. -/
def SnapInfo.encode (i : SnapInfo) : Nat × Nat × Stamp × String := (i.snapid, i.ino, i.stamp, i.name)

/-- `SnapInfo::decode` into a fresh record. -/
def SnapInfo.decode : Nat × Nat × Stamp × String → SnapInfo
  | (snapid, ino, stamp, name) => { snapid, ino, stamp, name }

def SnapInfo.reload (i : SnapInfo) : SnapInfo := .decode i.encode

inductive Mutation
  /-- `TABLE_OP_CREATE`; without name and stamp it makes a realm and no snapshot -/
  | create (ino : Nat) (snap : Option (String × Stamp))
  /-- `TABLE_OP_DESTROY` -/
  | destroy (ino snapid : Nat)
  /-- `TABLE_OP_UPDATE` -/
  | update (ino snapid : Nat) (name : String) (stamp : Stamp)
  /-- the payload of a server update: what the pools have purged -/
  | purged (purge : List (Int × List Nat))
deriving DecidableEq

/-- The state of `SnapServer`, apart from the version, which is the table server's. -/
structure SnapTable where
  lastSnap : Nat
  snaps : Nat → Option SnapInfo := fun _ => none
  needToPurge : Int → Option (Finset Nat) := fun _ => none
  pendingUpdate : Nat → Option SnapInfo := fun _ => none
  pendingDestroy : Nat → Option (Nat × Nat) := fun _ => none
  pendingNoop : Finset Nat := ∅

namespace SnapTable

/-- The table after `reset_state`: `first_free` is the end of the snapshots removed from the data pools. -/
def reset (firstFree : Nat) : SnapTable := { lastSnap := if firstFree > 1 then firstFree else 1 }

/-- `need_to_purge[pool].insert(id)`. -/
def insertPurge (m : Int → Option (Finset Nat)) (pool : Int) (id : Nat) : Int → Option (Finset Nat) :=
  update m pool (some (insert id ((m pool).getD ∅)))

variable (t : SnapTable)

/-- `_prepare`; the reply carries `last_snap`. -/
def prepare (version : Nat) : Mutation → Option (SnapTable × Nat)
  | .create ino (some (name, stamp)) =>
    let last := t.lastSnap + 1
    let info : SnapInfo := { snapid := last, ino, stamp, name, longName := "create" }
    some ({ t with lastSnap := last, pendingUpdate := update t.pendingUpdate version (some info) }, last)
  | .create _ none => some ({ t with pendingNoop := insert version t.pendingNoop }, t.lastSnap)
  | .destroy _ snapid =>
    let last := t.lastSnap + 1
    some ({ t with
      lastSnap := last, pendingDestroy := update t.pendingDestroy version (some (snapid, last)) }, last)
  | .update ino snapid name stamp =>
    let last := t.lastSnap + 1
    let info : SnapInfo := { snapid, ino, stamp, name, longName := "update" }
    some ({ t with lastSnap := last, pendingUpdate := update t.pendingUpdate version (some info) }, last)
  | .purged _ => none

/-- The record that `_commit` stores: the name of the operation is swapped out, and an update without a stamp keeps
that of the snapshot. -/
def committed (info : SnapInfo) : SnapInfo :=
  let stamp :=
    match t.snaps info.snapid with
    | some old => if info.stamp = (0, 0) then old.stamp else info.stamp
    | none => info.stamp
  { info with stamp, longName := "" }

/-- `_commit`, with the data pools of the MDS map. -/
def commit (pools : List Int) (t : SnapTable) (tid : Nat) : Option SnapTable :=
  match t.pendingUpdate tid with
  | some info =>
    some { t with
      snaps := update t.snaps info.snapid (some (t.committed info))
      pendingUpdate := update t.pendingUpdate tid none }
  | none =>
    match t.pendingDestroy tid with
    | some (sn, seq) =>
      some { t with
        snaps := update t.snaps sn none
        needToPurge := pools.foldl (fun m p => insertPurge (insertPurge m p sn) p seq) t.needToPurge
        pendingDestroy := update t.pendingDestroy tid none }
    | none => if tid ∈ t.pendingNoop then some { t with pendingNoop := t.pendingNoop.erase tid } else none

def rollback (tid : Nat) : Option SnapTable :=
  match t.pendingUpdate tid with
  | some _ => some { t with pendingUpdate := update t.pendingUpdate tid none }
  | none =>
    match t.pendingDestroy tid with
    | some _ => some { t with pendingDestroy := update t.pendingDestroy tid none }
    | none => if tid ∈ t.pendingNoop then some { t with pendingNoop := t.pendingNoop.erase tid } else none

/-- One pool of `_server_update`: an entry that gets empty is dropped. -/
def purge (m : Int → Option (Finset Nat)) (p : Int × List Nat) : Int → Option (Finset Nat) :=
  let left := p.2.foldl Finset.erase ((m p.1).getD ∅)
  update m p.1 (if left = ∅ then none else some left)

def serverUpdate : Mutation → Option SnapTable
  | .purged l => some { t with needToPurge := l.foldl purge t.needToPurge }
  | _ => none

/-- What `decode_server_state` makes of an encoded table. -/
def reload (t : SnapTable) : SnapTable :=
  { t with
    snaps := fun k => (t.snaps k).map SnapInfo.reload
    pendingUpdate := fun k => (t.pendingUpdate k).map SnapInfo.reload }

end SnapTable

/-- The snapshot table as a table of the table server. -/
def ops (pools : List Int) : TableOps SnapTable Mutation Nat where
  prepare := SnapTable.prepare
  commit := SnapTable.commit pools
  rollback := SnapTable.rollback
  serverUpdate := SnapTable.serverUpdate

/-- A server that was saved and loaded again. -/
def reloadServer (s : MDSTableServer SnapTable) : MDSTableServer SnapTable := { s with table := s.table.reload }

end Lunule.Snap
