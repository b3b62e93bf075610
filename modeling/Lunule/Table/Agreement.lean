import Lunule.Table.InStep

/-!
# Agreement without a server failure

The table server and its clients in every run in which the server does not fail. As long as a client starts again
only when none of its prepares waits for the journal of the server, every session keeps in step, and then no handler
fails: the server has every transaction that it is asked to roll back, a client can place every agree that it gets, and
the table has every transaction that is pending.

Request ids need more. A client that starts again counts on from the pending transactions, so it uses a number again
unless its last prepare is still pending when it is recovered.
-/

namespace Lunule.Table
open Exec List Option Ledger MDSTableClient Function Journal
open LogEntry (agreeTo)
variable {T M R : Type}

/-- What the server may rely on from its table: the mutations `asked` for can be prepared, and whatever it has been
prepared (`holds`) can be committed or rolled back. -/
structure TableOps.Sound (ops : TableOps T M R) (asked update : M → Prop) (holds : T → Nat → Prop) : Prop where
  prepare : ∀ t v m, asked m → ∃ t' bl, ops.prepare t v m = some (t', bl) ∧ holds t' v ∧ ∀ u, holds t u → holds t' u
  commit : ∀ t tid, holds t tid → ∃ t', ops.commit t tid = some t' ∧ ∀ u, u ≠ tid → holds t u → holds t' u
  rollback : ∀ t tid, holds t tid → ∃ t', ops.rollback t tid = some t' ∧ ∀ u, u ≠ tid → holds t u → holds t' u
  serverUpdate : ∀ t m, update m → ∃ t', ops.serverUpdate t m = some t' ∧ ∀ u, holds t u → holds t' u

/-- Every mutation that a client has sent or will send is one that was asked for. -/
structure Asked (asked : M → Prop) (p : Peer M R) : Prop where
  requests : ∀ r m, .prepare r m ∈ p.toServer → asked m
  pendingPrepare : ∀ x ∈ p.client.pendingPrepare, asked x.2
  waiting : ∀ m ∈ p.client.waitingForReqid, asked m

structure Agreement (S : Setup T M R) (asked : M → Prop) (holds : T → Nat → Prop) (w : Service T M R) : Prop where
  up : w.up = true
  ledger : exec note ⟨S.version, []⟩ w.events = some w.server.ledger
  completions : ∀ e ∈ w.journal.waiting, ∀ c m, e.onSafe = some (c, m) →
    (∃ r t b mu, m = .agree r t b ∧ e.event = .prepare r c mu t) ∨ ∃ t, m = .ack t
  peers : ∀ c, InStep w.events w.server.pendingForMds (agreesTo c w.journal.waiting) c (w.peer c)
  asked : ∀ c, Asked asked (w.peer c)
  holds : ∀ q ∈ w.server.pendingForMds, holds w.server.table q.tid

/-- The server does not fail, and the mutations are those that the table knows. -/
def Event.Served (asked update : M → Prop) : Event M → Prop
  | .prepare _ m => asked m
  | .serverUpdate m => update m
  | .crashServer _ _ | .noteFailure _ | .restartServer => False
  | _ => True

/-- A client starts again only when none of its prepares waits for the journal of the server. -/
def Service.Drained (w : Service T M R) : Event M → Prop
  | .restartClient c => ∀ e ∈ w.journal.waiting, e.event.preparedFor ≠ some c
  | _ => True

instance (w : Service T M R) (ev : Event M) : Decidable (w.Drained ev) :=
  decidable_of_bool (match ev with
    | .restartClient c => ∀ e ∈ w.journal.waiting, e.event.preparedFor ≠ some c
    | _ => true) (by cases ev <;> simp [Service.Drained])

instance (asked update : M → Prop) [DecidablePred asked] [DecidablePred update] (ev : Event M) :
    Decidable (ev.Served asked update) :=
  decidable_of_bool (match ev with
    | .prepare _ m => asked m
    | .serverUpdate m => update m
    | .crashServer _ _ | .noteFailure _ | .restartServer => false
    | _ => true) (by cases ev <;> simp [Event.Served])

/-- A journal that the ledger accepts commits each transaction at most once. -/
theorem Ledger.nodup_commits {v0 : Nat} {evs : List (ETableServer M)} {L : Ledger}
    (h : exec note ⟨v0, []⟩ evs = some L) : (evs.filterMap ETableServer.commits).Nodup := by
  induction evs using List.reverseRecOn generalizing L with
  | nil => exact nodup_nil
  | append_singleton evs e ih =>
    obtain ⟨K, hK, he⟩ := exec_snoc.1 h
    rw [filterMap_append]
    cases e with
    | commit t v =>
      obtain ⟨⟨p, hp, rfl⟩, -⟩ := finish_eq_some he
      have hnew := (((facts_of_exec hK).pending p).1 hp).2.1
      refine nodup_append.2 ⟨ih hK, by simp [ETableServer.commits], fun a ha b hb hab => ?_⟩
      have hb' : b = p.tid := by simpa [ETableServer.commits] using hb
      obtain ⟨e, he, hea⟩ := mem_filterMap.1 ha
      cases e <;> simp only [ETableServer.commits, reduceCtorEq, Option.some.injEq] at hea
      rename_i u v'
      exact hnew ⟨v', by rw [← hb', ← hab, ← hea]; exact he⟩
    | prepare r c m v => exact (append_nil _).symm ▸ ih hK
    | rollback t v => exact (append_nil _).symm ▸ ih hK
    | serverUpdate m v => exact (append_nil _).symm ▸ ih hK

/-! ### What the clients ask for -/

/-- A step of a client that asks for nothing new: its numbers stay, and it sends no prepare. -/
structure AsksNothing (c : MDSTableClient M) (o : MDSTableClient.Outcome M) : Prop where
  pendingPrepare : ∀ x ∈ o.client.pendingPrepare, x ∈ c.pendingPrepare
  waiting : o.client.waitingForReqid = c.waitingForReqid
  lastReqid : o.client.lastReqid = c.lastReqid
  numbered : reqidsIn o.send = []

namespace AsksNothing
variable {c : MDSTableClient M} {o : MDSTableClient.Outcome M} {r t : Nat}

theorem commit (ho : c.commit t = some o) : AsksNothing c o := by
  obtain ⟨-, ho⟩ := ite_none_right_eq_some.1 ho
  cases ho
  refine ⟨fun _ hx => hx, rfl, rfl, ?_⟩
  by_cases hr : c.serverReady = true <;> simp [hr]

theorem handleAgree (ho : c.handleAgree r t = some o) : AsksNothing c o := by
  unfold MDSTableClient.handleAgree at ho
  split at ho
  · cases ho
    exact ⟨fun _ hx => mem_of_mem_filter hx, rfl, rfl, rfl⟩
  · split at ho
    · split at ho <;> cases ho
      exact ⟨fun _ hx => hx, rfl, rfl, rfl⟩
    · split at ho <;> split at ho <;> cases ho <;> exact ⟨fun _ hx => hx, rfl, rfl, rfl⟩

theorem handleAck : AsksNothing c (c.handleAck t) := by
  unfold MDSTableClient.handleAck
  split <;> exact ⟨fun _ hx => hx, rfl, rfl, rfl⟩

end AsksNothing

namespace Asked
variable {asked : M → Prop} {p : Peer M R} {o : MDSTableClient.Outcome M}

private theorem mem_numberWaiting {last : Nat} {ms : List M} {x : Nat × M} (h : x ∈ numberWaiting last ms) :
    x.2 ∈ ms := by
  induction ms generalizing last with
  | nil => cases h
  | cons m ms ih =>
    rcases mem_cons.1 h with rfl | h
    · exact mem_cons_self
    · exact mem_cons_of_mem _ (ih h)

section
variable (h : Asked asked p)
include h

private theorem apply (rest : List (Reply R)) (j : Journal ClientEvent)
    (hsend : ∀ r m, .prepare r m ∈ o.send → asked m) (hpend : ∀ x ∈ o.client.pendingPrepare, asked x.2)
    (hwait : ∀ m ∈ o.client.waitingForReqid, asked m) :
    Asked asked ({ p with toClient := rest, journal := j }.apply true o) where
  requests := by
    intro r m hm
    rcases mem_append.1 hm with hm | hm
    · exact h.requests r m hm
    · exact hsend r m hm
  pendingPrepare := hpend
  waiting := hwait

private theorem take {rest : List (Request M)} (hs : ∀ m ∈ rest, m ∈ p.toServer) :
    Asked asked { p with toServer := rest } :=
  { h with requests := fun r m hm => h.requests r m (hs _ hm) }

theorem clientPrepare {m : M} (hm : asked m) : Asked asked (p.apply true (p.client.prepare m)) := by
  unfold prepare
  cases p.client.lastReqid with
  | none =>
    exact h.apply p.toClient p.journal nofun h.pendingPrepare (forall_mem_append.2 ⟨h.waiting, forall_mem_singleton.2 hm⟩)
  | some last =>
    refine h.apply p.toClient p.journal (fun r x hx => ?_)
      (forall_mem_append.2 ⟨h.pendingPrepare, forall_mem_singleton.2 hm⟩) h.waiting
    · by_cases hr : p.client.serverReady = true
      · simp only [hr, if_true, mem_singleton, Request.prepare.injEq] at hx
        exact hx.2 ▸ hm
      · simp [hr] at hx

private theorem applyNothing (rest : List (Reply R)) (j : Journal ClientEvent)
    (ho : AsksNothing p.client o) : Asked asked ({ p with toClient := rest, journal := j }.apply true o) := by
  refine h.apply rest j (fun r m hm => ?_) (fun x hx => h.pendingPrepare x (ho.pendingPrepare x hx)) ?_
  · have hr : r ∈ reqidsIn o.send := mem_filterMap.2 ⟨_, hm, rfl⟩
    rw [ho.numbered] at hr
    cases hr
  · rw [ho.waiting]
    exact h.waiting

private theorem clientReply {m : Reply R} {rest : List (Reply R)}
    (ho : p.client.handleRequest m = some o) : Asked asked ({ p with toClient := rest }.apply true o) := by
  cases m with
  | agree r t b => exact h.applyNothing rest p.journal (.handleAgree ho)
  | ack t =>
    cases ho
    exact h.applyNothing rest p.journal .handleAck
  | serverReady q =>
    obtain ⟨-, ho⟩ := ite_none_left_eq_some.1 ho
    cases ho
    have hall : ∀ x ∈ p.client.pendingPrepare ++
        numberWaiting (p.client.lastReqid.getD q) p.client.waitingForReqid, asked x.2 := by
      intro x hx
      rcases mem_append.1 hx with hx | hx
      · exact h.pendingPrepare x hx
      · exact h.waiting _ (mem_numberWaiting hx)
    refine h.apply rest p.journal (fun r x hx => ?_) hall nofun
    rcases mem_append.1 hx with hx | hx
    · obtain ⟨y, hy, heq⟩ := List.mem_map.1 hx
      cases heq
      exact hall y hy
    · obtain ⟨t, -, heq⟩ := List.mem_map.1 hx
      cases heq

end

private theorem restart (asked : M → Prop) (p : Peer M R) : Asked asked p.restart := by
  have hclient : p.restart.client = { pendingCommit := p.restart.client.pendingCommit } := replay_client_eq _ _
  exact
    { requests := nofun
      pendingPrepare := fun x hx => by rw [hclient] at hx; cases hx
      waiting := fun m hm => by rw [hclient] at hm; cases hm }

end Asked

/-! ### The server moves -/

section
variable {S : Setup T M R} {asked update : M → Prop} {holds : T → Nat → Prop} {w w' : Service T M R}

namespace Agreement
variable (h : Agreement S asked holds w)
include h

theorem facts : Ledger.Facts S.version w.events w.server.ledger := facts_of_exec h.ledger

variable {c : Rank} {rest : List (Request M)} {m : Request M} {s : MDSTableServer T}

theorem setPeer {p : Peer M R}
    (hp : InStep w.events w.server.pendingForMds (agreesTo c w.journal.waiting) c p) (ha : Asked asked p) :
    Agreement S asked holds (w.setPeer c p) :=
  { h with
    peers := (forall_update_iff w.peer fun d q =>
      InStep w.events w.server.pendingForMds (agreesTo d w.journal.waiting) d q).2 ⟨hp, fun d _ => h.peers d⟩
    asked := (forall_update_iff w.peer fun _ q => Asked asked q).2 ⟨ha, fun d _ => h.asked d⟩ }

omit h in
private theorem agreesTo_snoc (c : Rank) (l : List (LogEntry M R)) (e : LogEntry M R) :
    agreesTo c (l ++ [e]) = agreesTo c l ++ (agreeTo c e).toList := by
  unfold agreesTo
  rw [filterMap_append]
  cases he : agreeTo c e <;> simp [he]

private theorem submit {e : LogEntry M R} {p : Peer M R}
    (hnote : w.server.ledger.note e.event = some s.ledger)
    (hsafe : ∀ d m, e.onSafe = some (d, m) →
      d = c ∧ ((∃ r t b mu, m = .agree r t b ∧ e.event = .prepare r d mu t) ∨ ∃ t, m = .ack t))
    (hp : InStep (w.events ++ [e.event]) s.pendingForMds (agreesTo c (w.journal.waiting ++ [e])) c p)
    (ha : Asked asked p)
    (hother : ∀ d, d ≠ c → ∀ t r, ⟨t, d, r⟩ ∈ w.server.pendingForMds → ⟨t, d, r⟩ ∈ s.pendingForMds)
    (hholds : ∀ q ∈ s.pendingForMds, holds s.table q.tid) :
    Agreement S asked holds { w.setPeer c p with server := s, journal := w.journal.submit e } := by
  constructor
  · exact h.up
  · show exec note _ ((w.journal.submit e).all.map (·.event)) = _
    rw [w.events_submit]
    exact exec_snoc.2 ⟨_, h.ledger, hnote⟩
  · intro e' he' d m hm
    rw [waiting_submit, mem_append, mem_singleton] at he'
    rcases he' with he' | rfl
    · exact h.completions e' he' d m hm
    · exact (hsafe d m hm).2
  · show ∀ d, InStep ((w.journal.submit e).all.map (·.event)) s.pendingForMds
      (agreesTo d (w.journal.submit e).waiting) d (update w.peer c p d)
    rw [w.events_submit, waiting_submit]
    refine (forall_update_iff w.peer fun d q => InStep (w.events ++ [e.event]) s.pendingForMds
      (agreesTo d (w.journal.waiting ++ [e])) d q).2 ⟨hp, fun d hd => ?_⟩
    have hnone : agreeTo d e = none := by
      unfold agreeTo
      split
      · rename_i d' m hm
        exact if_neg fun hdd => hd (hdd.symm.trans (hsafe d' m hm).1)
      · rfl
    rw [agreesTo_snoc, hnone, toList_none, append_nil]
    exact (h.peers d).frame (fun q hq => hq.imp fun m hm => mem_append_left _ hm) (hother d hd)
  · exact (forall_update_iff w.peer fun _ q => Asked asked q).2 ⟨ha, fun d _ => h.asked d⟩
  · exact hholds

variable {t : Nat}

private theorem owner (hm : m ∈ (w.peer c).toServer) (hend : m = .commit t ∨ m = .rollback t) :
    ∃ r, Prepared w.events ⟨t, c, r⟩ := by
  rcases hend with rfl | rfl
  · exact (h.peers c).commits t hm
  · obtain ⟨r, hr⟩ := (h.peers c).rollbacks t (mem_filterMap.2 ⟨_, hm, rfl⟩)
    exact ⟨r, ((h.facts.pending _).1 hr).1⟩

private theorem endTransaction (hreq : (w.peer c).toServer = m :: rest)
    (hend : m = .commit t ∨ m = .rollback t)
    (hs : s.ledger = ⟨w.server.version + 1, MDSTableServer.erasePending w.server.pendingForMds t⟩)
    (hholds : ∀ u, u ≠ t → holds w.server.table u → holds s.table u) {e : LogEntry M R}
    (hnote : w.server.ledger.note e.event = some s.ledger) (hsafe : e.onSafe = none ∨ e.onSafe = some (c, .ack t)) :
    Agreement S asked holds
      { w.setPeer c { w.peer c with toServer := rest } with server := s, journal := w.journal.submit e } := by
  have hpend : s.pendingForMds = MDSTableServer.erasePending w.server.pendingForMds t := congrArg pending hs
  have hnumber : m.numbered = none := by rcases hend with rfl | rfl <;> rfl
  have hmem := hreq ▸ mem_cons_self
  obtain ⟨r0, hown⟩ := h.owner hmem hend
  have hnone : agreeTo c e = none := by
    rcases hsafe with hsafe | hsafe <;> simp [agreeTo, hsafe, Reply.agreed]
  refine h.submit hnote ?_ ?_ ?_ ?_ ?_
  · intro d m' hm'
    rcases hsafe with hsafe | hsafe
    · rw [hsafe] at hm'
      cases hm'
    · rw [hsafe] at hm'
      cases hm'
      exact ⟨rfl, .inr ⟨t, rfl⟩⟩
  · rw [agreesTo_snoc, hnone, toList_none, append_nil, hpend]
    refine (h.peers c).takeRequest hreq hnumber (fun q hq => hq.imp fun x hx => mem_append_left _ hx) ?_
    intro u r hu hnc hnr
    refine mem_erasePending.2 ⟨hu, fun hut => ?_⟩
    have hut' : u = t := hut
    rcases hend with rfl | rfl
    · exact hnc (by rw [hut'])
    · exact hnr (by rw [hut'])
  · exact (h.asked c).take fun x hx => hreq ▸ mem_cons_of_mem _ hx
  · intro d hd u r hu
    rw [hpend]
    refine mem_erasePending.2 ⟨hu, fun hut => hd ?_⟩
    have heq := h.facts.unique _ _ ((h.facts.pending _).1 hu).1 hown hut
    exact (Pending.mk.inj heq).2.1
  · intro q hq
    rw [hpend] at hq
    obtain ⟨hq, hne⟩ := mem_erasePending.1 hq
    exact hholds _ hne (h.holds q hq)

private theorem handlePrepare (hops : S.ops.Sound asked update holds) {r : Nat} {m : M}
    (hreq : (w.peer c).toServer = .prepare r m :: rest) :
    ∃ o, w.server.handlePrepare S.ops c r m = some o ∧
      Agreement S asked holds ((w.setPeer c { w.peer c with toServer := rest }).applyServer o) := by
  have hmem := hreq ▸ mem_cons_self
  obtain ⟨t, bl, ht, hnew, hkeep⟩ := hops.prepare w.server.table (w.server.version + 1) m
    ((h.asked c).requests r m hmem)
  have hfacts := h.facts
  have hbound : ∀ d s, ⟨w.server.version + 1, d, s⟩ ∉ w.server.pendingForMds := by
    intro d s hm
    have := hfacts.bound _ ((hfacts.pending _).1 hm).1
    simp only [MDSTableServer.ledger] at this
    omega
  simp only [MDSTableServer.handlePrepare, MDSTableServer.notePrepare, ht]
  refine ⟨_, rfl, ?_⟩
  refine h.submit ?_ ?_ ?_ ?_ ?_ ?_
  · simp [note, MDSTableServer.ledger]
  · intro d m' hm'
    cases hm'
    exact ⟨rfl, .inl ⟨r, _, _, m, rfl, rfl⟩⟩
  · rw [agreesTo_snoc]
    have hagree : agreeTo c (M := M) (R := R) ⟨.prepare r c m (w.server.version + 1),
        some (c, .agree r (w.server.version + 1) (some bl))⟩ = some (r, w.server.version + 1) := by
      simp [agreeTo, Reply.agreed]
    rw [hagree]
    exact (h.peers c).takePrepare hreq hbound (fun q hq => mem_append_left _ hq)
      (fun q hq => hq.imp fun x hx => mem_append_left _ hx) ⟨m, by simp⟩
  · exact (h.asked c).take fun x hx => hreq ▸ mem_cons_of_mem _ hx
  · exact fun d _ u s hu => mem_append_left _ hu
  · exact forall_mem_append.2 ⟨fun q hq => hkeep _ (h.holds q hq), forall_mem_singleton.2 hnew⟩

private theorem pending_holds (ht : w.server.isPending t = true) : holds w.server.table t := by
  obtain ⟨q, hq, rfl⟩ := MDSTableServer.isPending_iff.1 ht
  exact h.holds q hq

section
variable (hops : S.ops.Sound asked update holds)
include hops

private theorem handleCommit (hreq : (w.peer c).toServer = .commit t :: rest) :
    ∃ o, w.server.handleCommit S.ops c t = some o ∧
      Agreement S asked holds ((w.setPeer c { w.peer c with toServer := rest }).applyServer o) := by
  have hmem := hreq ▸ mem_cons_self
  unfold MDSTableServer.handleCommit
  by_cases hp : w.server.isPending t = true
  · obtain ⟨t', ht', hkeep⟩ := hops.commit _ _ (h.pending_holds hp)
    simp only [hp, MDSTableServer.noteCommit, ht']
    refine ⟨_, rfl, ?_⟩
    refine h.endTransaction hreq (.inl rfl) rfl hkeep ?_ (.inr rfl)
    simp only [note, finish, MDSTableServer.ledger]
    rw [if_pos ⟨trivial, MDSTableServer.isPending_iff.1 hp⟩]
  -- the tid is one that the server has given out
  have hle : t ≤ w.server.version := by
    obtain ⟨r, hr⟩ := (h.peers c).commits t hmem
    exact h.facts.bound _ hr
  simp only [hp, hle]
  refine ⟨_, rfl, ?_⟩
  have htake : InStep w.events w.server.pendingForMds (agreesTo c w.journal.waiting) c
      { w.peer c with toServer := rest } := by
    exact (h.peers c).takeRequest hreq rfl (fun q hq => hq) fun u r hu hnc _ => hu
  have hback := (h.setPeer htake ((h.asked c).take fun x hx => hreq ▸ mem_cons_of_mem _ hx))
  exact { hback.setPeer (c := c) ((hback.peers c).sendAck t) { hback.asked c with } with }

private theorem handleRollback (hreq : (w.peer c).toServer = .rollback t :: rest) :
    ∃ o, w.server.handleRollback S.ops t = some o ∧
      Agreement S asked holds ((w.setPeer c { w.peer c with toServer := rest }).applyServer o) := by
  obtain ⟨r, hr⟩ := (h.peers c).rollbacks t (by rw [hreq]; simp)
  have hp := MDSTableServer.isPending_iff.2 ⟨_, hr, rfl⟩
  obtain ⟨t', ht', hkeep⟩ := hops.rollback _ _ (h.pending_holds hp)
  unfold MDSTableServer.handleRollback
  simp only [hp, MDSTableServer.noteRollback, ht']
  refine ⟨_, rfl, ?_⟩
  refine h.endTransaction hreq (.inr rfl) rfl hkeep ?_ (.inl rfl)
  simp only [note, finish, MDSTableServer.ledger]
  rw [if_pos ⟨trivial, MDSTableServer.isPending_iff.1 hp⟩]

/-- No request makes the server or its table fail. -/
theorem handleRequest (hreq : (w.peer c).toServer = m :: rest) : ∃ o, w.server.handleRequest S.ops c m = some o ∧
      Agreement S asked holds ((w.setPeer c { w.peer c with toServer := rest }).applyServer o) := by
  cases m with
  | prepare r m => exact h.handlePrepare hops hreq
  | commit t => exact h.handleCommit hops hreq
  | rollback t => exact h.handleRollback hops hreq

theorem doServerUpdate {m : M} (hm : update m) :
    ∃ o, w.server.doServerUpdate S.ops m = some o ∧ Agreement S asked holds (w.applyServer o) := by
  obtain ⟨t, ht, hkeep⟩ := hops.serverUpdate w.server.table m hm
  simp only [MDSTableServer.doServerUpdate, MDSTableServer.noteServerUpdate, ht]
  refine ⟨_, rfl, ?_⟩
  have hsame : w.setPeer 0 (w.peer 0) = w := by simp [Service.setPeer]
  have hsub := h.submit (c := 0) (p := w.peer 0) (s := ⟨w.server.version + 1, w.server.pendingForMds, t⟩)
    (e := ⟨.serverUpdate m (w.server.version + 1), none⟩) ?_ ?_ ?_ (h.asked 0) (fun _ _ _ _ hq => hq) ?_
  · rw [hsame] at hsub
    exact hsub
  · simp [note, MDSTableServer.ledger]
  · exact fun d m' hm' => by cases hm'
  · rw [agreesTo_snoc]
    simp only [agreeTo, toList_none, append_nil]
    exact (h.peers 0).frame (fun q hq => hq.imp fun x hx => mem_append_left _ hx) fun _ _ hq => hq
  · exact fun q hq => hkeep _ (h.holds q hq)

end

private theorem advance {j : Journal (LogEntry M R)} (ha : j.all = w.journal.all)
    (hw : ∀ e ∈ j.waiting, e ∈ w.journal.waiting) (p : Rank → Peer M R) (acked : List Nat)
    (hasked : ∀ c, Asked asked (p c))
    (hp : ∀ c, InStep w.events w.server.pendingForMds (agreesTo c j.waiting) c (p c)) :
    Agreement S asked holds { w with journal := j, peer := p, acked := acked } := by
  have hevents : j.all.map (·.event) = w.events := by rw [ha]; rfl
  refine { h with ledger := ?_, completions := fun e he => h.completions e (hw e he), peers := ?_, asked := hasked }
  · show exec note _ (j.all.map (·.event)) = _
    rw [hevents]
    exact h.ledger
  · intro c
    show InStep (j.all.map (·.event)) _ (agreesTo c j.waiting) c _
    rw [hevents]
    exact hp c

theorem flush {j : Journal (LogEntry M R)} (hj : w.journal.flush = some j) :
    Agreement S asked holds { w with journal := j } := by
  obtain ⟨e, -, ha, hw⟩ := flush_spec hj
  exact h.advance ha (fun e he => hw ▸ he) w.peer w.acked h.asked fun c => hw ▸ h.peers c

theorem complete (hw' : w.completeServer = some w') : Agreement S asked holds w' := by
  obtain ⟨e, j, hj, rfl⟩ := Service.completeServer_eq_some.1 hw'
  obtain ⟨-, -, ha, hw⟩ := complete_spec hj
  have hwait : ∀ c, agreesTo c w.journal.waiting = (agreeTo c e).toList ++ agreesTo c j.waiting := by
    intro c
    rw [hw]
    cases hc : agreeTo c e <;> simp [agreesTo, hc]
  have hkey := h.advance ha fun e' he' => hw ▸ mem_cons_of_mem _ he'
  have hother : ∀ c, agreeTo c e = none →
      InStep w.events w.server.pendingForMds (agreesTo c j.waiting) c (w.peer c) := by
    intro c hc
    have := h.peers c
    rw [hwait c, hc] at this
    exact this
  have hreceive : ∀ c m, Asked asked ((w.peer c).receive m) := fun c m =>
    ⟨(h.asked c).requests, (h.asked c).pendingPrepare, (h.asked c).waiting⟩
  cases hs : e.onSafe with
  | none => exact hkey w.peer w.acked h.asked fun c => hother c (by simp [agreeTo, hs])
  | some cm =>
    obtain ⟨c, m⟩ := cm
    refine hkey (update w.peer c ((w.peer c).receive m)) _ ?_ ?_
    · exact (forall_update_iff w.peer fun _ q => Asked asked q).2
        ⟨hreceive c m, fun d _ => h.asked d⟩
    refine (forall_update_iff w.peer fun d q => InStep w.events w.server.pendingForMds
      (agreesTo d j.waiting) d q).2 ⟨?_, fun d hd => hother d ?_⟩
    · rcases h.completions e (hw ▸ mem_cons_self) c m hs with ⟨r, t, b, mu, rfl, -⟩ | ⟨t, rfl⟩
      · have := h.peers c
        rw [hwait c] at this
        simp only [agreeTo, hs] at this
        exact this.sendAgree
      · exact (hother c (by simp [agreeTo, hs, Reply.agreed])).sendAck t
    · simp [agreeTo, hs, Ne.symm hd]

/-! ### Runs -/

theorem deliverServer (hops : S.ops.Sound asked update holds)
    (hw' : w.deliverServer S c = some w') : Agreement S asked holds w' := by
  obtain ⟨m, rest, o, hreq, ho, rfl⟩ := Service.deliverServer_eq_some.1 hw'
  obtain ⟨o', ho', hnext⟩ := h.handleRequest hops hreq
  obtain rfl : o' = o := Option.some.inj (ho'.symm.trans ho)
  exact hnext

section
variable (hup : (w.peer c).up = true)
include hup

theorem deliverClient
    (hw' : w.deliverClient c = some w') : Agreement S asked holds w' := by
  obtain ⟨m, rest, o, hm, ho, rfl⟩ := Service.deliverClient_eq_some.1 hw'
  obtain ⟨o', ho', hnext⟩ := (h.peers c).clientReply hup hm
  obtain rfl : o' = o := Option.some.inj (ho'.symm.trans ho)
  rw [h.up]
  exact h.setPeer hnext ((h.asked c).clientReply ho)

theorem completeClient
    (hw' : w.completeClient c = some w') : Agreement S asked holds w' := by
  obtain ⟨e, j, hj, hcase⟩ := Service.completeClient_cases hw'
  obtain ⟨-, -, ha, -⟩ := complete_spec hj
  have hp := (h.peers c).moveJournal ha
  obtain ⟨t, -, rfl⟩ | ⟨t, o, -, ho, rfl⟩ := hcase
  · exact h.setPeer hp { h.asked c with }
  · rw [h.up]
    exact h.setPeer (hp.clientCommit hup ho) ((h.asked c).applyNothing (w.peer c).toClient j (.commit ho))

theorem recoverClient
    (hrec : (w.peer c).recovering = true) : Agreement S asked holds (w.recover c) :=
  h.setPeer ((h.peers c).recover hup hrec h.facts.nodup fun x hx => ((h.facts.pending x).1 hx).1)
    { h.asked c with }

end

theorem restartClient (hdrained : ∀ e ∈ w.journal.waiting, e.event.preparedFor ≠ some c) :
    Agreement S asked holds (w.setPeer c (w.peer c).restart) := by
  have hwait : agreesTo c w.journal.waiting = [] := by
    rw [eq_nil_iff_forall_not_mem]
    intro q hq
    obtain ⟨e, he, hag⟩ := mem_filterMap.1 hq
    unfold agreeTo at hag
    split at hag
    · rename_i d m hm
      split at hag
      · rename_i hd
        rcases h.completions e he d m hm with ⟨r, t, b, mu, rfl, hev⟩ | ⟨t, rfl⟩
        · exact hdrained e he (by rw [hev, ← hd]; rfl)
        · cases hag
      · cases hag
    · cases hag
  refine h.setPeer ?_ (Asked.restart asked _)
  have hp := h.peers c
  rw [hwait] at hp ⊢
  exact hp.restart

omit h in
theorem init (S : Setup T M R) (asked : M → Prop) (holds : T → Nat → Prop) : Agreement S asked holds S.init where
  up := rfl
  ledger := rfl
  completions := nofun
  peers := by
    intro c
    constructor <;> intros <;> simp_all [Setup.init, Setup.saved, Journal.durable, Journal.all, Journal.waiting,
      agreesTo]
  asked := fun c => ⟨nofun, nofun, nofun⟩
  holds := nofun

end Agreement
end
end Lunule.Table
