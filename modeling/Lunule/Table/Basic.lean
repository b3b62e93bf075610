import Lunule.Lib.Exec
import Lunule.Lib.Journal

/-!
# Table server and table client

The two ends of an MDS table (`MDSTableServer`, `MDSTableClient`). A client prepares a mutation, the server journals
it and agrees with a tid, the client journals its own update together with that tid and commits, and the server
journals the commit and acknowledges it. The table behind the server enters through `TableOps`; the server only
relies on every operation of it raising the version by one.

Handlers return `none` when an assertion of the source fails.
-/

namespace Lunule.Table
open Exec
variable {T M R : Type}

abbrev Rank := Nat

/-- The operations of the concrete table (`_prepare`, `_commit`, `_rollback`, `_server_update`); `none` is an abort.
A prepare gets the version it creates, and returns the payload of the reply. -/
structure TableOps (T M R : Type) where
  prepare : T → Nat → M → Option (T × R)
  commit : T → Nat → Option T
  rollback : T → Nat → Option T
  serverUpdate : T → M → Option T

/-- `mds_table_pending_t`. -/
structure Pending where
  tid : Nat
  mds : Rank
  reqid : Nat
deriving DecidableEq

/-- The server: `version`, `pending_for_mds` (ordered by tid) and the table. -/
structure MDSTableServer (T : Type) where
  version : Nat := 0
  pendingForMds : List Pending := []
  table : T
deriving DecidableEq

inductive Request (M : Type)
  | prepare (reqid : Nat) (mutation : M)
  | commit (tid : Nat)
  | rollback (tid : Nat)
deriving DecidableEq

/-- Replies, from the server to a client. Only the first agree on a request carries the payload of the table. -/
inductive Reply (R : Type)
  | agree (reqid tid : Nat) (bl : Option R)
  | ack (tid : Nat)
  | serverReady (reqid : Nat)
deriving DecidableEq

/-- `ETableServer`: each event carries the version that it created. -/
inductive ETableServer (M : Type)
  | prepare (reqid : Nat) (bymds : Rank) (mutation : M) (version : Nat)
  | commit (tid version : Nat)
  | rollback (tid version : Nat)
  | serverUpdate (mutation : M) (version : Nat)
deriving DecidableEq

def ETableServer.version : ETableServer M → Nat
  | .prepare _ _ _ v => v
  | .commit _ v => v
  | .rollback _ v => v
  | .serverUpdate _ v => v

/-- A journal entry of the server with its completion (`C_Prepare`, `C_Commit`): the reply sent once it is safe. -/
structure LogEntry (M R : Type) where
  event : ETableServer M
  onSafe : Option (Rank × Reply R)
deriving DecidableEq

/-! ### The server -/

namespace MDSTableServer
variable (ops : TableOps T M R) (s : MDSTableServer T)

/-- `pending_for_mds.count(tid)`. -/
def isPending (tid : Nat) : Bool := s.pendingForMds.any (·.tid == tid)

/-- `_note_commit` and `_note_rollback`. -/
def erasePending (l : List Pending) (tid : Nat) : List Pending := l.filter (·.tid != tid)

/-- `_prepare` and `_note_prepare`. -/
def notePrepare (mds : Rank) (reqid : Nat) (mutation : M) : Option (MDSTableServer T × R) :=
  (ops.prepare s.table (s.version + 1) mutation).map fun (t, bl) =>
    ({ version := s.version + 1, pendingForMds := s.pendingForMds ++ [⟨s.version + 1, mds, reqid⟩], table := t }, bl)

/-- `_commit` and `_note_commit`. -/
def noteCommit (tid : Nat) : Option (MDSTableServer T) :=
  (ops.commit s.table tid).map fun t =>
    { version := s.version + 1, pendingForMds := erasePending s.pendingForMds tid, table := t }

/-- `_rollback` and `_note_rollback`. -/
def noteRollback (tid : Nat) : Option (MDSTableServer T) :=
  (ops.rollback s.table tid).map fun t =>
    { version := s.version + 1, pendingForMds := erasePending s.pendingForMds tid, table := t }

/-- `_server_update`. -/
def noteServerUpdate (mutation : M) : Option (MDSTableServer T) :=
  (ops.serverUpdate s.table mutation).map fun t => { s with version := s.version + 1, table := t }

/-- What a handler of the server does: the new state, the entries it submits and the replies it sends at once. -/
structure Outcome (T M R : Type) where
  server : MDSTableServer T
  log : List (LogEntry M R) := []
  send : List (Rank × Reply R) := []

def handlePrepare (src : Rank) (reqid : Nat) (mutation : M) : Option (Outcome T M R) :=
  (s.notePrepare ops src reqid mutation).map fun (s', bl) =>
    -- the journal gets the original mutation, the reply the buffer rewritten by the table
    { server := s'
      log := [⟨.prepare reqid src mutation s'.version, some (src, .agree reqid s'.version (some bl))⟩] }

def handleCommit (src : Rank) (tid : Nat) : Option (Outcome T M R) :=
  if s.isPending tid then
    (s.noteCommit ops tid).map fun s' =>
      { server := s', log := [⟨.commit tid s'.version, some (src, .ack tid)⟩] }
  else if tid ≤ s.version then
    -- already committed: `_commit_logged` is called on the spot
    some { server := s, send := [(src, .ack tid)] }
  else none

def handleRollback (tid : Nat) : Option (Outcome T M R) :=
  if s.isPending tid then
    (s.noteRollback ops tid).map fun s' => { server := s', log := [⟨.rollback tid s'.version, none⟩] }
  else none

def handleRequest (src : Rank) : Request M → Option (Outcome T M R)
  | .prepare reqid mutation => s.handlePrepare ops src reqid mutation
  | .commit tid => s.handleCommit ops src tid
  | .rollback tid => s.handleRollback ops tid

def doServerUpdate (mutation : M) : Option (Outcome T M R) :=
  (s.noteServerUpdate ops mutation).map fun s' =>
    { server := s', log := [⟨.serverUpdate mutation s'.version, none⟩] }

/-- The reqid from which a recovered client may count on: above every pending one of that client. -/
def nextReqid (who : Rank) : Nat :=
  (s.pendingForMds.filter (·.mds == who)).foldl (fun n p => if n ≤ p.reqid then p.reqid + 1 else n) 0

/-- The agrees that are sent again, and the note that the server is ready. -/
def handleMdsRecovery (who : Rank) : List (Reply R) :=
  (s.pendingForMds.filter (·.mds == who)).map (fun p => Reply.agree p.reqid p.tid none) ++
    [.serverReady (s.nextReqid who)]

end MDSTableServer

/-- The operation that an event stands for. -/
def ETableServer.redo (ops : TableOps T M R) (s : MDSTableServer T) : ETableServer M → Option (MDSTableServer T)
  | .prepare reqid bymds mutation _ => (s.notePrepare ops bymds reqid mutation).map (·.1)
  | .commit tid _ => s.noteCommit ops tid
  | .rollback tid _ => s.noteRollback ops tid
  | .serverUpdate mutation _ => s.noteServerUpdate ops mutation

/-- `ETableServer::replay`: events that the table already has are skipped. -/
def ETableServer.replay (ops : TableOps T M R) (s : MDSTableServer T) (e : ETableServer M) :
    Option (MDSTableServer T) :=
  if e.version ≤ s.version then some s
  else if e.version - 1 = s.version then e.redo ops s
  else none

/-! ### The client -/

/-- The client; `last_reqid` is `none` while it is `~0`. -/
structure MDSTableClient (M : Type) where
  lastReqid : Option Nat := none
  serverReady : Bool := false
  pendingPrepare : List (Nat × M) := []
  preparedUpdate : List (Nat × Nat) := []
  waitingForReqid : List M := []
  pendingCommit : List Nat := []
deriving DecidableEq

/-- The journal events of a rank that concern the table: an update that carries a table transaction, and the
`ETableClient` event for an acknowledgement. -/
inductive ClientEvent
  | update (tid : Nat)
  | ack (tid : Nat)
deriving DecidableEq

namespace MDSTableClient

/-- What a handler of the client does: the new state, the events it submits and the requests it sends. -/
structure Outcome (M : Type) where
  client : MDSTableClient M
  log : List ClientEvent := []
  send : List (Request M) := []

variable (c : MDSTableClient M)

def isPreparing (reqid : Nat) : Bool := c.pendingPrepare.any (·.1 == reqid)

def isPrepared (tid : Nat) : Bool := c.preparedUpdate.any (·.1 == tid)

/-- Insertion into the ordered `pending_commit`. -/
def insertTid (tid : Nat) : List Nat → List Nat
  | [] => [tid]
  | a :: l => if tid < a then tid :: a :: l else if tid = a then a :: l else a :: insertTid tid l

def handleAgree (reqid tid : Nat) : Option (Outcome M) :=
  if c.isPreparing reqid then
    some { client := { c with
      pendingPrepare := c.pendingPrepare.filter (·.1 != reqid)
      preparedUpdate := (tid, reqid) :: c.preparedUpdate.filter (·.1 != tid) } }
  else if c.isPrepared tid then
    if (tid, reqid) ∈ c.preparedUpdate ∧ c.serverReady = false then some { client := c } else none
  else if tid ∈ c.pendingCommit then
    if c.serverReady = false then some { client := c } else none
  else
    if c.serverReady = false then some { client := c, send := [.rollback tid] } else none

def handleAck (tid : Nat) : Outcome M :=
  if tid ∈ c.pendingCommit then
    { client := { c with pendingCommit := c.pendingCommit.filter (· != tid) }, log := [.ack tid] }
  else { client := c }

/-- Numbers the prepares that waited for a request id. -/
def numberWaiting (last : Nat) : List M → List (Nat × M)
  | [] => []
  | m :: ms => (last + 1, m) :: numberWaiting (last + 1) ms

def handleServerReady (reqid : Nat) : Option (Outcome M) :=
  if c.serverReady then none
  else
    let last := c.lastReqid.getD reqid
    let preparing := c.pendingPrepare ++ numberWaiting last c.waitingForReqid
    some
      { client := { c with
          serverReady := true
          lastReqid := some (last + c.waitingForReqid.length)
          pendingPrepare := preparing
          waitingForReqid := [] }
        send := preparing.map (fun p => .prepare p.1 p.2) ++ c.pendingCommit.map .commit }

def handleRequest : Reply R → Option (Outcome M)
  | .agree reqid tid _ => c.handleAgree reqid tid
  | .ack tid => some (c.handleAck tid)
  | .serverReady reqid => c.handleServerReady reqid

def prepare (c : MDSTableClient M) (mutation : M) : Outcome M :=
  match c.lastReqid with
  | none => { client := { c with waitingForReqid := c.waitingForReqid ++ [mutation] } }
  | some last =>
    { client := { c with lastReqid := some (last + 1), pendingPrepare := c.pendingPrepare ++ [(last + 1, mutation)] }
      send := if c.serverReady then [.prepare (last + 1) mutation] else [] }

def commit (c : MDSTableClient M) (tid : Nat) : Option (Outcome M) :=
  if c.isPrepared tid ∧ tid ∉ c.pendingCommit then
    some
      { client := { c with
          preparedUpdate := c.preparedUpdate.filter (·.1 != tid)
          pendingCommit := insertTid tid c.pendingCommit }
        send := if c.serverReady then [.commit tid] else [] }
  else none

def handleMdsFailure : MDSTableClient M := { c with serverReady := false }

def gotJournaledAgree (tid : Nat) : MDSTableClient M := { c with pendingCommit := insertTid tid c.pendingCommit }

def gotJournaledAck (tid : Nat) : MDSTableClient M := { c with pendingCommit := c.pendingCommit.filter (· != tid) }

end MDSTableClient

/-- What the replay of a client's journal does with one event. -/
def ClientEvent.replay (c : MDSTableClient M) : ClientEvent → MDSTableClient M
  | .update tid => c.gotJournaledAgree tid
  | .ack tid => c.gotJournaledAck tid

end Lunule.Table
