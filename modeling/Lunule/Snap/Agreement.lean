import Lunule.Snap.Basic
import Lunule.Table.Numbering

/-!
# Agreement on the snapshot table

The table server with the snapshot table behind it. The table has a prepared operation for each pending transaction,
so that it never aborts, and the results about the table service hold for it.
-/

namespace Lunule.Snap
open Exec Table Service SnapTable

/-- The mutations that `SnapClient` prepares. -/
def Mutation.isRequest : Mutation → Bool
  | .create _ _ => true
  | .destroy _ _ => true
  | .update _ _ _ _ => true
  | .purged _ => false

/-- What the server updates its table with. -/
def Mutation.isPurge : Mutation → Bool
  | .purged _ => true
  | _ => false

def SnapTable.Holds (t : SnapTable) (tid : Nat) : Prop :=
  t.pendingUpdate tid ≠ none ∨ t.pendingDestroy tid ≠ none ∨ tid ∈ t.pendingNoop

section
variable {α : Type} {f : Nat → Option α} {a : Nat}

private theorem update_some_ne_none (x : α) {u : Nat} (h : f u ≠ none) : Function.update f a (some x) u ≠ none := by
  by_cases hu : u = a
  · subst hu
    simp
  · simpa [Function.update_of_ne hu] using h

private theorem update_ne_none_of_ne (o : Option α) {u : Nat} (hu : u ≠ a) (h : f u ≠ none) :
    Function.update f a o u ≠ none := by
  simpa [Function.update_of_ne hu] using h

end

namespace SnapTable
variable {t : SnapTable}

private theorem holds_prepare (t : SnapTable) (v : Nat) (m : Mutation) (hm : m.isRequest = true) :
    ∃ t' id, t.prepare v m = some (t', id) ∧ t'.Holds v ∧ ∀ u, t.Holds u → t'.Holds u := by
  cases m with
  | create ino snap =>
    cases snap with
    | none =>
      refine ⟨_, _, rfl, .inr (.inr (Finset.mem_insert_self _ _)), fun u hu => ?_⟩
      exact hu.imp_right fun hu => hu.imp_right fun hu => Finset.mem_insert_of_mem hu
    | some p =>
      refine ⟨_, _, rfl, .inl (by simp), fun u hu => ?_⟩
      exact hu.imp_left (update_some_ne_none _)
  | destroy ino snapid =>
    refine ⟨_, _, rfl, .inr (.inl (by simp)), fun u hu => ?_⟩
    exact hu.imp_right fun hu => hu.imp_left (update_some_ne_none _)
  | update ino snapid name stamp =>
    refine ⟨_, _, rfl, .inl (by simp), fun u hu => ?_⟩
    exact hu.imp_left (update_some_ne_none _)
  | purged l => cases hm

private theorem holds_finish (pools : List Int) {tid : Nat} (h : t.Holds tid) {r : Option SnapTable}
    (hr : r = t.commit pools tid ∨ r = t.rollback tid) : ∃ t', r = some t' ∧ ∀ u, u ≠ tid → t.Holds u → t'.Holds u := by
  unfold commit rollback at hr
  cases hu : t.pendingUpdate tid with
  | some info =>
    simp only [hu] at hr
    rcases hr with rfl | rfl
    all_goals exact ⟨_, rfl, fun u hne hold => hold.imp_left (update_ne_none_of_ne none hne)⟩
  | none =>
    cases hd : t.pendingDestroy tid with
    | some d =>
      simp only [hu, hd] at hr
      rcases hr with rfl | rfl
      all_goals exact ⟨_, rfl, fun u hne hold => hold.imp_right fun hx => hx.imp_left (update_ne_none_of_ne none hne)⟩
    | none =>
      have hnoop : tid ∈ t.pendingNoop := by
        rcases h with h | h | h
        · exact absurd hu h
        · exact absurd hd h
        · exact h
      simp only [hu, hd, hnoop, or_self] at hr
      refine ⟨_, hr, fun u hne hold => ?_⟩
      exact hold.imp_right fun hx => hx.imp_right fun hx => Finset.mem_erase.2 ⟨hne, hx⟩

end SnapTable

private theorem sound_ops (pools : List Int) :
    (ops pools).Sound (fun m => m.isRequest = true) (fun m => m.isPurge = true) SnapTable.Holds where
  prepare := holds_prepare
  commit := fun _ _ h => holds_finish pools h (.inl rfl)
  rollback := fun _ _ h => holds_finish pools h (.inr rfl)
  serverUpdate := by
    intro t m hm
    cases m with
    | purged l => exact ⟨_, rfl, fun u hu => hu⟩
    | create => cases hm
    | destroy => cases hm
    | update => cases hm

/-- The table service of the snapshots, from a table of any content and version. -/
def service (pools : List Int) (version : Nat) (table : SnapTable) : Setup SnapTable Mutation Nat :=
  { ops := ops pools, version, table }

/-- In every run in which the server does not fail and a client starts again only when none of its prepares waits for
the journal of the server, no handler of the server, of its table or of a client fails, every transaction is committed
at most once, and none is both committed and rolled back. If moreover a client is recovered only while the last of its
prepares that the server took is pending, then no two prepares of a client share a request id. -/
theorem snap_agreement (pools : List Int) (version : Nat) (table : SnapTable) (es : List (Event Mutation))
    (w : Service SnapTable Mutation Nat)
    (hserved : ∀ ev ∈ es, ev.Served (fun m => m.isRequest = true) fun m => m.isPurge = true)
    (hdrained : AllSteps (step (service pools version table)) Service.Drained
      (service pools version table).init es)
    (h : exec (step (service pools version table)) (service pools version table).init es = some w) :
    (∀ c m rest, (w.peer c).toServer = m :: rest → ∃ o, w.server.handleRequest (ops pools) c m = some o) ∧
    (∀ m : Mutation, m.isPurge = true → ∃ o, w.server.doServerUpdate (ops pools) m = some o) ∧
    (∀ c m rest, (w.peer c).up = true → (w.peer c).toClient = m :: rest →
      ∃ o, (w.peer c).client.handleRequest m = some o) ∧
    (w.events.filterMap ETableServer.commits).Nodup ∧
    (∀ t, Committed w.events t → ¬ RolledBack w.events t) ∧
    (AllSteps (step (service pools version table)) Service.LastPending
      (service pools version table).init es → ∀ c, (reqidsOf c w.events).Nodup) := by
  have hops := sound_ops pools
  have hmem : AllSteps (step (service pools version table))
      (fun _ ev => ev.Served (fun m => m.isRequest = true) fun m => m.isPurge = true)
      (service pools version table).init es := allSteps_of_mem _ hserved
  have hrun := hmem.and hdrained
  have hag := exec_invariant (fun _ _ _ hi hq ht => (hi.step hops hq.1 hq.2 ht).1) (Agreement.init _ _ _) hrun h
  refine ⟨?_, ?_, ?_, Ledger.nodup_commits hag.ledger, fun t ht => (hag.facts.committed t ht).1, fun hlast c => ?_⟩
  · intro c m rest hreq
    obtain ⟨o, ho, -⟩ := hag.handleRequest hops hreq
    exact ⟨o, ho⟩
  · intro m hm
    obtain ⟨o, ho, -⟩ := hag.doServerUpdate hops hm
    exact ⟨o, ho⟩
  · intro c m rest hup hm
    obtain ⟨o, ho, -⟩ := (hag.peers c).clientReply hup hm
    exact ⟨o, ho⟩
  · have hboth := exec_invariant (I := fun w => Agreement (service pools version table)
        (fun m => m.isRequest = true) SnapTable.Holds w ∧ AllNumbered w)
      (fun _ _ _ hi hq ht => (hi.1.step hops hq.1.1 hq.1.2 ht).imp_right fun hn => hn hi.2 hq.2)
      ⟨Agreement.init _ _ _, AllNumbered.init _⟩ (hrun.and hlast) h
    exact (List.pairwise_append.1 (hboth.2 c).ascending).1.imp Nat.ne_of_lt

/-- Client 0 starts and prepares a snapshot, which the server takes without its journal being flushed. -/
def prepareTaken : List (Event Mutation) :=
  [.restartClient 0, .recoverClient 0, .deliverClient 0, .prepare 0 (.create 10 (some ("a", (5, 0)))), .deliverServer 0]

/-- The prepare is safe, and the client journals its update and fails. -/
def updateLogged : List (Event Mutation) :=
  [.flushServer, .completeServer, .deliverClient 0, .logUpdate 0 1, .flushClient 0, .crashClient 0 0 0]

/-- The client comes back and resends its commit while it prepares another snapshot. -/
def comesBack : List (Event Mutation) :=
  [.restartClient 0, .recoverClient 0, .deliverClient 0, .deliverClient 0,
    .prepare 0 (.create 10 (some ("b", (6, 0)))), .deliverServer 0, .deliverServer 0]

theorem snap_agreement_comesBack : ∃ w, exec (step (service [1] 0 (.reset 0))) (service [1] 0 (.reset 0)).init
        (prepareTaken ++ updateLogged ++ comesBack) = some w ∧
      reqidsOf 0 w.events = [1, 3] ∧ (w.events.filterMap ETableServer.commits) = [1] ∧
      (∀ c m rest, (w.peer c).toServer = m :: rest → ∃ o, w.server.handleRequest (ops [1]) c m = some o) ∧
      ∀ c, (reqidsOf c w.events).Nodup := by
  have hserved : ∀ ev ∈ prepareTaken ++ updateLogged ++ comesBack,
      ev.Served (fun m => m.isRequest = true) fun m => m.isPurge = true := by decide
  have hdrained : AllSteps (step (service [1] 0 (.reset 0))) Service.Drained
      (service [1] 0 (.reset 0)).init (prepareTaken ++ updateLogged ++ comesBack) := by decide
  have hlast : AllSteps (step (service [1] 0 (.reset 0))) Service.LastPending
      (service [1] 0 (.reset 0)).init (prepareTaken ++ updateLogged ++ comesBack) := by decide
  have hrun : ((exec (step (service [1] 0 (.reset 0))) (service [1] 0 (.reset 0)).init
      (prepareTaken ++ updateLogged ++ comesBack)).map fun w =>
        (reqidsOf 0 w.events, w.events.filterMap ETableServer.commits)) = some ([1, 3], [1]) := by decide
  obtain ⟨w, hw, heq⟩ := Option.map_eq_some_iff.1 hrun
  obtain ⟨hserver, -, -, -, -, hids⟩ := snap_agreement [1] 0 (.reset 0) _ w hserved hdrained hw
  exact ⟨w, hw, (Prod.mk.inj heq).1, (Prod.mk.inj heq).2, hserver, hids hlast⟩

/-- The client comes back while its prepare waits for the journal of the server, and takes the note that the server is
ready; then the prepare is safe. -/
def lateAgree : List (Event Mutation) :=
  [.crashClient 0 0 0, .restartClient 0, .recoverClient 0, .deliverClient 0, .deliverClient 0, .flushServer,
    .completeServer]

/-- The client comes back, and the prepare is safe before the client is recovered: it gets the agree twice. -/
def agreedTwice : List (Event Mutation) :=
  [.crashClient 0 0 0, .restartClient 0, .flushServer, .completeServer, .recoverClient 0, .deliverClient 0,
    .deliverClient 0, .deliverServer 0]

/-- The client commits its update, which is acknowledged, and comes back to prepare another snapshot. -/
def countsAgain : List (Event Mutation) :=
  [.flushServer, .completeServer, .deliverClient 0, .logUpdate 0 1, .flushClient 0, .completeClient 0,
    .deliverServer 0, .flushServer, .completeServer, .deliverClient 0, .flushClient 0, .crashClient 0 0 0,
    .restartClient 0, .recoverClient 0, .deliverClient 0, .prepare 0 (.create 10 (some ("b", (6, 0)))),
    .deliverServer 0]

/-- The late agree fails the client, the second rollback fails the server, and a request id is used twice. -/
theorem agreement_limits : ((exec (step (service [1] 0 (.reset 0))) (service [1] 0 (.reset 0)).init
        (prepareTaken ++ lateAgree)).map fun w => ((w.peer 0).toClient, ((w.peer 0).toClient.head?.bind
          (w.peer 0).client.handleRequest).isSome)) = some ([.agree 1 1 (some 2)], false) ∧
      ((exec (step (service [1] 0 (.reset 0))) (service [1] 0 (.reset 0)).init
        (prepareTaken ++ agreedTwice)).map fun w => ((w.peer 0).toServer, ((w.peer 0).toServer.head?.bind
          (w.server.handleRequest (ops [1]) 0)).isSome)) = some ([.rollback 1], false) ∧
      ((exec (step (service [1] 0 (.reset 0))) (service [1] 0 (.reset 0)).init
        (prepareTaken ++ countsAgain)).map fun w => reqidsOf 0 w.events) = some [1, 1] := by
  decide

end Lunule.Snap
