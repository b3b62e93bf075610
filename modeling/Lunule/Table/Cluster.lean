import Lunule.Table.Basic

/-!
# The table service under crashes

One table server and any number of clients, each with its journal. A session between the server and a client keeps
the order of the messages in either direction. A crash of either end takes the journal entries that were not durable
(all but some first ones) and the completions that had not run, and with them the messages that the other end had not
received yet. A restart replays the durable journal. A failed assertion ends a process: such a run goes on with the
event for its crash.
-/

namespace Lunule.Table
open Exec
variable {T M R : Type}

/-- A client rank with both directions of its session; `recovering` says that it restarted and that the server has not
handled its recovery yet. -/
structure Peer (M R : Type) where
  up : Bool := false
  client : MDSTableClient M := {}
  journal : Journal ClientEvent := {}
  toServer : List (Request M) := []
  toClient : List (Reply R) := []
  recovering : Bool := false

/-- The whole service; `acked` is the history of the acknowledgements sent. -/
structure Service (T M R : Type) where
  up : Bool := true
  server : MDSTableServer T
  journal : Journal (LogEntry M R) := {}
  peer : Rank → Peer M R := fun _ => {}
  acked : List Nat := []

/-- The table and the saved server from which every replay starts. -/
structure Setup (T M R : Type) where
  ops : TableOps T M R
  version : Nat := 0
  table : T

def Setup.saved (S : Setup T M R) : MDSTableServer T := { version := S.version, table := S.table }

def Setup.init (S : Setup T M R) : Service T M R := { server := S.saved }

inductive Event (M : Type)
  /-- the client asks for a prepare -/
  | prepare (c : Rank) (mutation : M)
  /-- the client journals its update together with a prepared tid -/
  | logUpdate (c : Rank) (tid : Nat)
  | flushClient (c : Rank)
  | completeClient (c : Rank)
  | deliverClient (c : Rank)
  /-- the crash of a client finds some more entries on disk, and some of its requests already received -/
  | crashClient (c : Rank) (entries received : Nat)
  | restartClient (c : Rank)
  /-- the server handles the recovery of a client -/
  | recoverClient (c : Rank)
  | deliverServer (c : Rank)
  | serverUpdate (mutation : M)
  | flushServer
  | completeServer
  | crashServer (entries : Nat) (received : Rank → Nat)
  /-- the client learns that the server failed -/
  | noteFailure (c : Rank)
  | restartServer

variable (p : Peer M R)

/-- The effect of a client's handler: its events go to its journal, its requests to the server if that one is up. -/
def Peer.apply (serverUp : Bool) (o : MDSTableClient.Outcome M) : Peer M R :=
  { p with
    client := o.client
    journal := o.log.foldl Journal.submit p.journal
    toServer := p.toServer ++ if serverUp then o.send else [] }

def Peer.receive (m : Reply R) : Peer M R := { p with toClient := p.toClient ++ if p.up then [m] else [] }

namespace Service
variable (w : Service T M R)

def setPeer (c : Rank) (p : Peer M R) : Service T M R := { w with peer := Function.update w.peer c p }

def sendReply (m : Rank × Reply R) : Service T M R :=
  { w.setPeer m.1 ((w.peer m.1).receive m.2) with
    acked := match m.2 with
      | .ack tid => w.acked ++ [tid]
      | _ => w.acked }

/-- The effect of a handler of the server. -/
def applyServer (o : MDSTableServer.Outcome T M R) : Service T M R :=
  o.send.foldl sendReply { w with server := o.server, journal := o.log.foldl Journal.submit w.journal }

def recover (c : Rank) : Service T M R :=
  let p := w.peer c
  w.setPeer c { p with toClient := p.toClient ++ w.server.handleMdsRecovery c, recovering := false }

end Service

def Peer.restart : Peer M R :=
  { up := true
    client := p.journal.durable.foldl ClientEvent.replay {}
    journal := p.journal
    recovering := true }

def Peer.crash (p : Peer M R) (entries received : Nat) : Peer M R :=
  { journal := p.journal.crash entries, toServer := p.toServer.take received }

/-- What the crash of the server does to a session. -/
def Peer.lose (received : Nat) : Peer M R :=
  { p with toServer := [], toClient := p.toClient.take received, recovering := false }

/-- What a client does when it learns of the failure of the server. -/
def Peer.noteFailure : Peer M R := { p with client := p.client.handleMdsFailure, toClient := [] }

/-- The session of a client after `finish_recovery` of a restarted server: every client that is up has learnt of the
failure by then and gets the recovery messages. -/
def Peer.finishRecovery (s : MDSTableServer T) (c : Rank) (p : Peer M R) : Peer M R :=
  if p.up then { p.noteFailure with toClient := s.handleMdsRecovery c, recovering := false } else p

namespace Service

def deliverClient (w : Service T M R) (c : Rank) : Option (Service T M R) :=
  let p := w.peer c
  match p.toClient with
  | [] => none
  | m :: rest => (p.client.handleRequest m).map fun o => w.setPeer c ({ p with toClient := rest }.apply w.up o)

/-- The completion of a client's journal entry: a safe update is committed. -/
def completeClient (w : Service T M R) (c : Rank) : Option (Service T M R) :=
  let p := w.peer c
  match p.journal.complete with
  | none => none
  | some (.update tid, j) => (p.client.commit tid).map fun o => w.setPeer c ({ p with journal := j }.apply w.up o)
  | some (.ack _, j) => some (w.setPeer c { p with journal := j })

def deliverServer (S : Setup T M R) (w : Service T M R) (c : Rank) : Option (Service T M R) :=
  let p := w.peer c
  match p.toServer with
  | [] => none
  | m :: rest => (w.server.handleRequest S.ops c m).map (w.setPeer c { p with toServer := rest }).applyServer

def completeServer (w : Service T M R) : Option (Service T M R) :=
  match w.journal.complete with
  | none => none
  | some (e, j) => some (e.onSafe.toList.foldl sendReply { w with journal := j })

/-- The restarted server: the saved one brought forward by the durable journal. -/
def restartServer (S : Setup T M R) (w : Service T M R) : Option (Service T M R) :=
  (exec (ETableServer.replay S.ops) S.saved (w.journal.durable.map (·.event))).map fun s =>
    { w with up := true, server := s, peer := fun c => (w.peer c).finishRecovery s c }

def step (S : Setup T M R) (w : Service T M R) : Event M → Option (Service T M R)
  | .prepare c mutation =>
    let p := w.peer c
    if p.up then some (w.setPeer c (p.apply w.up (p.client.prepare mutation))) else none
  | .logUpdate c tid =>
    let p := w.peer c
    if p.up ∧ p.client.isPrepared tid then some (w.setPeer c { p with journal := p.journal.submit (.update tid) })
    else none
  | .flushClient c =>
    let p := w.peer c
    if p.up then p.journal.flush.map fun j => w.setPeer c { p with journal := j } else none
  | .completeClient c => if (w.peer c).up then w.completeClient c else none
  | .deliverClient c => if (w.peer c).up then w.deliverClient c else none
  | .crashClient c entries received =>
    let p := w.peer c
    if p.up then some (w.setPeer c (p.crash entries received)) else none
  | .restartClient c =>
    let p := w.peer c
    if p.up then none else some (w.setPeer c p.restart)
  | .recoverClient c =>
    let p := w.peer c
    if w.up ∧ p.up ∧ p.recovering then some (w.recover c) else none
  | .deliverServer c => if w.up then w.deliverServer S c else none
  | .serverUpdate mutation => if w.up then (w.server.doServerUpdate S.ops mutation).map w.applyServer else none
  | .flushServer => if w.up then w.journal.flush.map fun j => { w with journal := j } else none
  | .completeServer => if w.up then w.completeServer else none
  | .crashServer entries received =>
    if w.up then
      some { w with up := false, journal := w.journal.crash entries, peer := fun c => (w.peer c).lose (received c) }
    else none
  | .noteFailure c => if w.up ∨ (w.peer c).up = false then none else some (w.setPeer c (w.peer c).noteFailure)
  | .restartServer => if w.up then none else w.restartServer S

section
variable {S : Setup T M R} {w w' : Service T M R} {c : Rank}

theorem deliverClient_eq_some : w.deliverClient c = some w' ↔ ∃ m rest o, (w.peer c).toClient = m :: rest ∧
    (w.peer c).client.handleRequest m = some o ∧
      w.setPeer c ({ w.peer c with toClient := rest }.apply w.up o) = w' := by
  unfold deliverClient
  cases hm : (w.peer c).toClient <;> simp [hm]

theorem deliverServer_eq_some : w.deliverServer S c = some w' ↔ ∃ m rest o, (w.peer c).toServer = m :: rest ∧
    w.server.handleRequest S.ops c m = some o ∧
      (w.setPeer c { w.peer c with toServer := rest }).applyServer o = w' := by
  unfold deliverServer
  cases hm : (w.peer c).toServer <;> simp [hm]

theorem completeServer_eq_some : w.completeServer = some w' ↔ ∃ e j, w.journal.complete = some (e, j) ∧
    e.onSafe.toList.foldl sendReply { w with journal := j } = w' := by
  unfold completeServer
  rcases w.journal.complete with _ | ⟨e, j⟩ <;> simp

theorem completeClient_cases (h : w.completeClient c = some w') : ∃ e j, (w.peer c).journal.complete = some (e, j) ∧
    ((∃ t, e = .ack t ∧ w.setPeer c { w.peer c with journal := j } = w') ∨
      ∃ t o, e = .update t ∧ (w.peer c).client.commit t = some o ∧
        w.setPeer c ({ w.peer c with journal := j }.apply w.up o) = w') := by
  unfold completeClient at h
  cases hj : (w.peer c).journal.complete with
  | none => simp [hj] at h
  | some ej =>
    obtain ⟨e, j⟩ := ej
    refine ⟨e, j, rfl, ?_⟩
    cases e <;> simp_all

end
end Service
end Lunule.Table
