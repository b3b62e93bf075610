import Lunule.Table.Durable

/-!
# A session that keeps in step

What holds between the table server and one client as long as the server does not fail. A client that has restarted
is *unready* until it takes the note that the server is ready: all that it has sent are rollbacks, one for each agree
that it could not place, and every agree that it has still to take is one for a pending transaction. A *ready* client
has in flight at most one message for each of its prepares: the request, the agree that waits for the journal of the
server, or the agree itself. So an agree that reaches a ready client is always placed.

The invariant speaks of the journal `J` of the server, of the transactions `pend` that it has pending, and of the
agrees `wait` that its journal will still send to the client. There is one lemma for each thing that can happen to a
session.
-/

namespace Lunule.Table
open Exec List Peer MDSTableClient Reply
variable {M R : Type}

/-! ### The messages of a session -/

def Reply.agreed : Reply R → Option (Nat × Nat)
  | .agree r t _ => some (r, t)
  | .ack _ => none
  | .serverReady _ => none

def agreedIn (l : List (Reply R)) : List (Nat × Nat) := l.filterMap agreed

def LogEntry.agreeTo (c : Rank) (e : LogEntry M R) : Option (Nat × Nat) :=
  match e.onSafe with
  | some (d, m) => if d = c then m.agreed else none
  | none => none

def agreesTo (c : Rank) (l : List (LogEntry M R)) : List (Nat × Nat) := l.filterMap (LogEntry.agreeTo c)

def Request.rolled : Request M → Option Nat
  | .rollback t => some t
  | .prepare _ _ => none
  | .commit _ => none

def Request.numbered : Request M → Option Nat
  | .prepare r _ => some r
  | .rollback _ => none
  | .commit _ => none

def rollbacksIn (l : List (Request M)) : List Nat := l.filterMap Request.rolled

def reqidsIn (l : List (Request M)) : List Nat := l.filterMap Request.numbered

def Quiet (l : List (Reply R)) : Prop := ∀ m ∈ l, ∃ t, m = .ack t

/-- The note that the server is ready is followed by nothing but acknowledgements. -/
def ReadyLast : List (Reply R) → Prop
  | [] => True
  | .serverReady _ :: l => Quiet l
  | .agree _ _ _ :: l => ReadyLast l
  | .ack _ :: l => ReadyLast l

section
variable {l l' : List (Reply R)} {k k' : List (Request M)} {t : Nat}

@[simp] theorem agreedIn_nil : agreedIn ([] : List (Reply R)) = [] := rfl

@[simp] theorem agreedIn_append : agreedIn (l ++ l') = agreedIn l ++ agreedIn l' := filterMap_append

@[simp] theorem agreedIn_agree {r t : Nat} {b : Option R} : agreedIn (.agree r t b :: l) = (r, t) :: agreedIn l := rfl
@[simp] theorem agreedIn_ack : agreedIn (.ack t :: l) = agreedIn l := rfl
@[simp] theorem agreedIn_serverReady {q : Nat} : agreedIn (.serverReady q :: l) = agreedIn l := rfl
@[simp] theorem rollbacksIn_nil : rollbacksIn ([] : List (Request M)) = [] := rfl

@[simp] theorem rollbacksIn_append : rollbacksIn (k ++ k') = rollbacksIn k ++ rollbacksIn k' := filterMap_append

@[simp] theorem rollbacksIn_rollback : rollbacksIn (.rollback t :: k) = t :: rollbacksIn k := rfl
@[simp] theorem rollbacksIn_commit : rollbacksIn (.commit t :: k) = rollbacksIn k := rfl
@[simp] theorem rollbacksIn_prepare {r : Nat} {m : M} : rollbacksIn (.prepare r m :: k) = rollbacksIn k := rfl
@[simp] theorem reqidsIn_nil : reqidsIn ([] : List (Request M)) = [] := rfl

@[simp] theorem reqidsIn_append : reqidsIn (k ++ k') = reqidsIn k ++ reqidsIn k' := filterMap_append

@[simp] theorem reqidsIn_rollback : reqidsIn (.rollback t :: k) = reqidsIn k := rfl
@[simp] theorem reqidsIn_commit : reqidsIn (.commit t :: k) = reqidsIn k := rfl
@[simp] theorem reqidsIn_prepare {r : Nat} {m : M} : reqidsIn (.prepare r m :: k) = r :: reqidsIn k := rfl

@[simp] theorem reqidsIn_map_prepare (l : List (Nat × M)) :
    reqidsIn (l.map fun p => Request.prepare p.1 p.2) = l.map Prod.fst := by
  simp [reqidsIn, Request.numbered, Function.comp_def]

@[simp] theorem reqidsIn_map_commit (l : List Nat) : reqidsIn (l.map (Request.commit (M := M))) = [] := by
  simp [reqidsIn, Request.numbered]

@[simp] theorem rollbacksIn_map_prepare (l : List (Nat × M)) :
    rollbacksIn (l.map fun p => Request.prepare p.1 p.2) = [] := by
  simp [rollbacksIn, Request.rolled]

@[simp] theorem rollbacksIn_map_commit (l : List Nat) : rollbacksIn (l.map (Request.commit (M := M))) = [] := by
  simp [rollbacksIn, Request.rolled]

theorem reqidsIn_of_rollbacks (h : ∀ m ∈ k, ∃ t, m = .rollback t) : reqidsIn k = [] := by
  refine filterMap_eq_nil_iff.2 fun m hm => ?_
  obtain ⟨t, rfl⟩ := h m hm
  rfl

private theorem Quiet.agreedIn (h : Quiet l) : agreedIn l = [] := by
  refine filterMap_eq_nil_iff.2 fun m hm => ?_
  obtain ⟨t, rfl⟩ := h m hm
  rfl

theorem Quiet.not_serverReady (h : Quiet l) (q : Nat) : .serverReady q ∉ l := by
  intro hm
  obtain ⟨t, ht⟩ := h _ hm
  cases ht

private theorem Quiet.readyLast (h : Quiet l) : ReadyLast l := by
  induction l with
  | nil => trivial
  | cons m l ih =>
    obtain ⟨t, rfl⟩ := h m mem_cons_self
    exact ih (forall_mem_cons.1 h).2

private theorem Quiet.snoc_ack (h : Quiet l) : Quiet (l ++ [.ack t]) := by
  exact forall_mem_append.2 ⟨h, forall_mem_singleton.2 ⟨t, rfl⟩⟩

private theorem ReadyLast.snoc_ack (h : ReadyLast l) : ReadyLast (l ++ [.ack t]) := by
  induction l with
  | nil => trivial
  | cons m l ih =>
    cases m with
    | serverReady q => exact Quiet.snoc_ack h
    | agree r u b => exact ih h
    | ack u => exact ih h

private theorem Quiet.readyLast_recovery (h : Quiet l) {ps : List Pending} {q : Nat} :
    ReadyLast (l ++ (ps.map (fun p => agree p.reqid p.tid none) ++ [.serverReady q])) := by
  have hps : ReadyLast (ps.map (fun p => agree (R := R) p.reqid p.tid none) ++ [.serverReady q]) := by
    induction ps with
    | nil => exact nofun
    | cons p ps ih => exact ih
  induction l with
  | nil => exact hps
  | cons m l ih =>
    obtain ⟨t, rfl⟩ := h m (by simp)
    exact ih (forall_mem_cons.1 h).2

private theorem agreedIn_map_pending (ps : List Pending) :
    agreedIn (ps.map fun p => agree (R := R) p.reqid p.tid none) = ps.map fun p => (p.reqid, p.tid) := by
  simp [agreedIn, agreed, Function.comp_def]

end

/-! ### The invariant -/

def Peer.flight (p : Peer M R) (wait : List (Nat × Nat)) : List Nat :=
  reqidsIn p.toServer ++ wait.map Prod.fst ++ (agreedIn p.toClient).map Prod.fst

structure Unready (pend : List Pending) (wait : List (Nat × Nat)) (c : Rank) (p : Peer M R) : Prop where
  lastReqid : p.client.lastReqid = none
  pendingPrepare : p.client.pendingPrepare = []
  preparedUpdate : p.client.preparedUpdate = []
  wait : wait = []
  requests : ∀ m ∈ p.toServer, ∃ t, m = .rollback t
  agreesNodup : ((agreedIn p.toClient).map Prod.snd).Nodup
  agreesPending : ∀ q ∈ agreedIn p.toClient, ⟨q.2, c, q.1⟩ ∈ pend
  readyLast : ReadyLast p.toClient
  recovering : p.recovering = true → p.toServer = [] ∧ Quiet p.toClient

structure Ready (wait : List (Nat × Nat)) (p : Peer M R) : Prop where
  recovering : p.recovering = false
  noReady : ∀ q, .serverReady q ∉ p.toClient
  nodup : (p.flight wait).Nodup
  /-- whatever is in flight belongs to a prepare that waits for its agree -/
  matched : ∀ r ∈ p.flight wait, r ∈ p.client.pendingPrepare.map Prod.fst
  numbered : ∃ last, p.client.lastReqid = some last ∧ ∀ r ∈ p.client.pendingPrepare.map Prod.fst, r ≤ last

structure InStep (J : List (ETableServer M)) (pend : List Pending) (wait : List (Nat × Nat)) (c : Rank)
    (p : Peer M R) : Prop where
  down : p.up = false → p.toClient = []
  commits : ∀ t, .commit t ∈ p.toServer → ∃ r, Prepared J ⟨t, c, r⟩
  committing : ∀ t ∈ p.client.pendingCommit, ∃ r, Prepared J ⟨t, c, r⟩
  logged : ∀ t, .update t ∈ p.journal.all → ∃ r, Prepared J ⟨t, c, r⟩
  prepared : ∀ t r, (t, r) ∈ p.client.preparedUpdate → Prepared J ⟨t, c, r⟩
  agreed : ∀ q ∈ agreedIn p.toClient ++ wait, Prepared J ⟨q.2, c, q.1⟩
  rollbacks : ∀ t ∈ rollbacksIn p.toServer, ∃ r, ⟨t, c, r⟩ ∈ pend
  rollbacksNodup : (rollbacksIn p.toServer).Nodup
  uncommitted : ∀ t ∈ rollbacksIn p.toServer, .commit t ∉ p.toServer
  /-- a transaction that the client has given up does not come back to it -/
  givenUp : p.up = true → ∀ t ∈ rollbacksIn p.toServer,
    t ∉ p.client.pendingCommit ∧ p.client.isPrepared t = false ∧ t ∉ (agreedIn p.toClient ++ wait).map Prod.snd
  unready : p.up = true → p.client.serverReady = false → Unready pend wait c p
  ready : p.up = true → p.client.serverReady = true → Ready wait p

namespace InStep
variable {J J' : List (ETableServer M)} {pend pend' : List Pending} {wait : List (Nat × Nat)} {c : Rank}
  {p : Peer M R} {rest : List (Reply R)}

section
variable (h : InStep J pend wait c p) {j : Journal ClientEvent}
include h

/-! ### The server moves -/

theorem frame (hJ : ∀ q, Prepared J q → Prepared J' q)
    (hpend : ∀ t r, ⟨t, c, r⟩ ∈ pend → ⟨t, c, r⟩ ∈ pend') : InStep J' pend' wait c p :=
  { h with
    commits := fun t ht => (h.commits t ht).imp fun _ => hJ _
    committing := fun t ht => (h.committing t ht).imp fun _ => hJ _
    logged := fun t ht => (h.logged t ht).imp fun _ => hJ _
    prepared := fun t r ht => hJ _ (h.prepared t r ht)
    agreed := fun q hq => hJ _ (h.agreed q hq)
    rollbacks := fun t ht => (h.rollbacks t ht).imp fun r => hpend t r
    unready := fun hup hr => { h.unready hup hr with
      agreesPending := fun q hq => hpend _ _ ((h.unready hup hr).agreesPending q hq) } }

/-- The server takes a request other than a prepare, which ends at most the transaction it names. -/
theorem takeRequest {m : Request M} {rest : List (Request M)}
    (hreq : p.toServer = m :: rest) (hm : m.numbered = none) (hJ : ∀ q, Prepared J q → Prepared J' q)
    (hpend : ∀ t r, ⟨t, c, r⟩ ∈ pend → m ≠ .commit t → m ≠ .rollback t → ⟨t, c, r⟩ ∈ pend') :
    InStep J' pend' wait c { p with toServer := rest } := by
  have hsub : ∀ x ∈ rest, x ∈ p.toServer := fun x hx => hreq ▸ mem_cons_of_mem m hx
  have hroll : (rollbacksIn rest).Sublist (rollbacksIn p.toServer) := by
    rw [hreq]
    exact (sublist_cons_self m rest).filterMap _
  have hids : reqidsIn p.toServer = reqidsIn rest := by
    rw [hreq, reqidsIn, filterMap_cons, hm]
    rfl
  -- the request that is taken is not about a transaction that is still to be rolled back
  have hother : ∀ t ∈ rollbacksIn rest, m ≠ .commit t ∧ m ≠ .rollback t := by
    intro t ht
    constructor
    · rintro rfl
      exact h.uncommitted t (hroll.subset ht) (hreq ▸ mem_cons_self)
    · rintro rfl
      have hnodup := h.rollbacksNodup
      rw [hreq, rollbacksIn_rollback, nodup_cons] at hnodup
      exact hnodup.1 ht
  replace h := h.frame hJ fun _ _ hq => hq
  exact { h with
    commits := fun t ht => h.commits t (hsub _ ht)
    rollbacks := fun t ht => (h.rollbacks t (hroll.subset ht)).imp fun r hr =>
      hpend t r hr (hother t ht).1 (hother t ht).2
    rollbacksNodup := hroll.nodup h.rollbacksNodup
    uncommitted := fun t ht hc => h.uncommitted t (hroll.subset ht) (hsub _ hc)
    givenUp := fun hup t ht => h.givenUp hup t (hroll.subset ht)
    unready := by
      intro hup hr
      have hu := h.unready hup hr
      obtain ⟨u, rfl⟩ := hu.requests m (hreq ▸ mem_cons_self)
      have hgiven := (h.givenUp hup u (by rw [hreq]; simp)).2.2
      exact { hu with
        requests := fun x hx => hu.requests x (hsub x hx)
        agreesPending := by
          intro q hq
          refine hpend _ _ (hu.agreesPending q hq) (by simp) ?_
          intro heq
          cases heq
          exact hgiven (mem_map_of_mem (mem_append_left _ hq))
        recovering := fun hrec => by
          have hnil := (hu.recovering hrec).1
          rw [hreq] at hnil
          cases hnil }
    ready := by
      intro hup hr
      have hready := h.ready hup hr
      have hflight : flight { p with toServer := rest } wait = p.flight wait := by
        simp only [flight, hids]
      exact { hready with nodup := hflight ▸ hready.nodup, matched := hflight ▸ hready.matched } }

/-- The server takes a prepare: the transaction is pending under a new tid, and its agree waits for the journal. -/
theorem takePrepare {r t : Nat} {m : M} {rest : List (Request M)}
    (hreq : p.toServer = .prepare r m :: rest) (hnew : ∀ d s, ⟨t, d, s⟩ ∉ pend) (hpend : ∀ q ∈ pend, q ∈ pend')
    (hJ : ∀ q, Prepared J q → Prepared J' q) (hprep : Prepared J' ⟨t, c, r⟩) :
    InStep J' pend' (wait ++ [(r, t)]) c { p with toServer := rest } := by
  have hsub : ∀ x ∈ rest, x ∈ p.toServer := fun x hx => hreq ▸ mem_cons_of_mem _ hx
  have hroll : rollbacksIn p.toServer = rollbacksIn rest := by rw [hreq, rollbacksIn_prepare]
  have hold := h.rollbacks
  replace h := h.frame hJ fun _ _ hq => hpend _ hq
  exact { h with
    commits := fun u hu => h.commits u (hsub _ hu)
    agreed := by
      intro q hq
      rw [← append_assoc, mem_append, mem_singleton] at hq
      rcases hq with hq | rfl
      · exact h.agreed q hq
      · exact hprep
    rollbacks := fun u hu => h.rollbacks u (hroll ▸ hu)
    rollbacksNodup := hroll ▸ h.rollbacksNodup
    uncommitted := fun u hu hc => h.uncommitted u (hroll ▸ hu) (hsub _ hc)
    givenUp := by
      intro hup u hu
      obtain ⟨h1, h2, h3⟩ := h.givenUp hup u (hroll ▸ hu)
      refine ⟨h1, h2, fun hmem => ?_⟩
      rw [← append_assoc, map_append, mem_append] at hmem
      rcases hmem with hmem | hmem
      · exact h3 hmem
      · obtain ⟨s, hs⟩ := hold u (hroll ▸ hu)
        have hut : u = t := by simpa using hmem
        exact hnew c s (hut ▸ hs)
    unready := by
      intro hup hr
      obtain ⟨u, hu⟩ := (h.unready hup hr).requests _ (hreq ▸ mem_cons_self)
      cases hu
    ready := by
      intro hup hr
      have hready := h.ready hup hr
      have hperm : (flight { p with toServer := rest } (wait ++ [(r, t)])).Perm (p.flight wait) := by
        simp only [flight, hreq, reqidsIn_prepare, map_append]
        rw [← append_assoc, append_assoc (reqidsIn rest ++ _), cons_append, cons_append]
        exact perm_middle
      exact { hready with
        nodup := hperm.nodup_iff.2 hready.nodup
        matched := fun s hs => hready.matched s (hperm.mem_iff.1 hs) } }

private theorem replies (hup : p.up = true) {l : List (Reply R)}
    (hsame : agreedIn p.toClient = agreedIn l) (hlast : ReadyLast p.toClient → ReadyLast l)
    (hquiet : Quiet p.toClient → Quiet l) (hmem : ∀ q, .serverReady q ∈ l → .serverReady q ∈ p.toClient) :
    InStep J pend wait c { p with toClient := l } where
  __ := h
  down hd := by simp [hup] at hd
  agreed := hsame ▸ h.agreed
  givenUp := hsame ▸ h.givenUp
  unready _ hr :=
    have hu := h.unready hup hr
    { hu with
      agreesNodup := hsame ▸ hu.agreesNodup
      agreesPending := hsame ▸ hu.agreesPending
      readyLast := hlast hu.readyLast
      recovering := fun hrec => (hu.recovering hrec).imp_right hquiet }
  ready _ hr :=
    have hready := h.ready hup hr
    have hflight : flight { p with toClient := l } wait = p.flight wait := by simp only [flight, hsame]
    { hready with
      noReady := fun q hq => hready.noReady q (hmem q hq)
      nodup := hflight ▸ hready.nodup
      matched := hflight ▸ hready.matched }

theorem sendAck (t : Nat) : InStep J pend wait c (p.receive (.ack t)) := by
  cases hup : p.up with
  | false => rw [receive_of_down hup]; exact h
  | true =>
    rw [receive_of_up hup]
    exact h.replies hup (by simp) ReadyLast.snoc_ack Quiet.snoc_ack (by simp)

omit h in
theorem sendAgree {r t : Nat} {b : Option R} (h : InStep J pend ((r, t) :: wait) c p) :
    InStep J pend wait c (p.receive (.agree r t b)) := by
  cases hup : p.up with
  | false =>
    rw [receive_of_down hup]
    exact { h with
      agreed := fun q hq => h.agreed q (by
        rcases mem_append.1 hq with hq | hq
        · exact mem_append_left _ hq
        · exact mem_append_right _ (mem_cons_of_mem _ hq))
      givenUp := fun hp => by simp [hup] at hp
      unready := fun hp => by simp [hup] at hp
      ready := fun hp => by simp [hup] at hp }
  | true =>
    rw [receive_of_up hup]
    have hsame : agreedIn (p.toClient ++ [agree r t b]) ++ wait = agreedIn p.toClient ++ (r, t) :: wait := by
      simp
    exact { h with
      down := fun hd => by simp [hup] at hd
      agreed := hsame ▸ h.agreed
      givenUp := hsame ▸ h.givenUp
      unready := by
        intro _ hr
        have hnil := (h.unready hup hr).wait
        cases hnil
      ready := by
        intro _ hr
        have hready := h.ready hup hr
        have hperm : (flight { p with toClient := p.toClient ++ [agree r t b] } wait).Perm
            (p.flight ((r, t) :: wait)) := by
          have hlast : (agreedIn (p.toClient ++ [agree r t b])).map Prod.fst =
              (agreedIn p.toClient).map Prod.fst ++ [r] := by simp
          simp only [flight, hlast]
          rw [← append_assoc, append_assoc (reqidsIn _), append_assoc (reqidsIn _), append_assoc (reqidsIn _)]
          refine List.Perm.append_left _ ?_
          exact perm_append_singleton r _
        exact { hready with
          noReady := fun q hq => hready.noReady q (by simpa using hq)
          nodup := hperm.nodup_iff.2 hready.nodup
          matched := fun s hs => hready.matched s (hperm.mem_iff.1 hs) } }

theorem unready_of_recovering (hup : p.up = true) (hrec : p.recovering = true) : p.client.serverReady = false := by
  by_contra hn
  have := (h.ready hup (by simpa using hn)).recovering
  simp [hrec] at this

theorem unready_of_note (hup : p.up = true) {q : Nat} (hq : .serverReady q ∈ p.toClient) :
    p.client.serverReady = false := by
  by_contra hn
  exact (h.ready hup (by simpa using hn)).noReady q hq

/-- The server handles the recovery of the client: an agree for each pending transaction, and the note. -/
theorem recover (hup : p.up = true) (hrec : p.recovering = true) {q : Nat}
    (hnodup : (pend.map (·.tid)).Nodup) (hprep : ∀ x ∈ pend, Prepared J x) :
    InStep J pend wait c
      { p with
        toClient := p.toClient ++ ((pend.filter (·.mds == c)).map (fun x => agree x.reqid x.tid none) ++
          [.serverReady q])
        recovering := false } := by
  have hunready := h.unready_of_recovering hup hrec
  have hu := h.unready hup hunready
  obtain ⟨hnil, hquiet⟩ := hu.recovering hrec
  have hagreed : agreedIn (p.toClient ++ ((pend.filter (·.mds == c)).map (fun x => agree x.reqid x.tid none) ++
      [.serverReady q])) = (pend.filter (·.mds == c)).map fun x => (x.reqid, x.tid) := by
    simp [hquiet.agreedIn, agreedIn_map_pending]
  have hmine : ∀ y ∈ (pend.filter (·.mds == c)).map (fun x => (x.reqid, x.tid)), ⟨y.2, c, y.1⟩ ∈ pend := by
    intro y hy
    obtain ⟨x, hx, rfl⟩ := mem_map.1 hy
    obtain ⟨hx, hc⟩ := mem_filter.1 hx
    have hc' : x.mds = c := by simpa using hc
    rw [← hc']
    exact hx
  exact { h with
    down := fun hd => by simp [hup] at hd
    agreed := by
      intro y hy
      rw [hagreed, hu.wait, append_nil] at hy
      exact hprep _ (hmine y hy)
    givenUp := by
      intro _ t ht
      simp [hnil] at ht
    unready := fun _ _ => { hu with
      agreesNodup := by
        rw [hagreed, map_map]
        exact ((filter_sublist).map _).nodup hnodup
      agreesPending := by
        rw [hagreed]
        exact hmine
      readyLast := hquiet.readyLast_recovery
      recovering := nofun }
    ready := fun _ hr => by rw [hunready] at hr; cases hr }

/-! ### The client moves -/

private theorem setJournal (hj : ∀ t, .update t ∈ j.all → ∃ r, Prepared J ⟨t, c, r⟩) :
    InStep J pend wait c { p with journal := j } :=
  { h with
    logged := hj
    unready := fun hup hr => { h.unready hup hr with }
    ready := fun hup hr => { h.ready hup hr with } }

theorem moveJournal (hj : j.all = p.journal.all) : InStep J pend wait c { p with journal := j } :=
  h.setJournal (hj ▸ h.logged)

theorem logUpdate {t : Nat} (ht : p.client.isPrepared t = true) :
    InStep J pend wait c { p with journal := p.journal.submit (.update t) } := by
  obtain ⟨r, hr⟩ := isPrepared_iff.1 ht
  refine h.setJournal fun u hu => ?_
  rw [Journal.all_submit, mem_append, mem_singleton, ClientEvent.update.injEq] at hu
  rcases hu with hu | rfl
  · exact h.logged u hu
  · exact ⟨r, h.prepared u r hr⟩

theorem crash (entries received : Nat) : InStep J pend wait c (p.crash entries received) := by
  have hsub : (p.toServer.take received).Sublist p.toServer := take_sublist _ _
  have hroll : (rollbacksIn (p.toServer.take received)).Sublist (rollbacksIn p.toServer) := hsub.filterMap _
  exact
    { down := fun _ => rfl
      commits := fun t ht => h.commits t (hsub.subset ht)
      committing := nofun
      logged := fun t ht => h.logged t ((p.journal.crash_prefix_all entries).subset (by
        rw [← Journal.all_crash]
        exact ht))
      prepared := nofun
      agreed := fun q hq => h.agreed q (mem_append_right _ hq)
      rollbacks := fun t ht => h.rollbacks t (hroll.subset ht)
      rollbacksNodup := hroll.nodup h.rollbacksNodup
      uncommitted := fun t ht hc => h.uncommitted t (hroll.subset ht) (hsub.subset hc)
      givenUp := nofun
      unready := nofun
      ready := nofun }

variable (hup : p.up = true)
include hup

/-- A client that knows the server to be ready sends prepares and commits. -/
theorem sendRequests {cl : MDSTableClient M} {l : List (Request M)} (hcl : cl.serverReady = true)
    (hroll : rollbacksIn l = [])
    (hcommit : ∀ t, .commit t ∈ l → (∃ r, Prepared J ⟨t, c, r⟩) ∧ t ∉ rollbacksIn p.toServer)
    (hcommitting : ∀ t ∈ cl.pendingCommit, t ∈ p.client.pendingCommit ∨ .commit t ∈ l)
    (hprepared : ∀ x ∈ cl.preparedUpdate, x ∈ p.client.preparedUpdate)
    (hready : Ready wait { p with client := cl, toServer := p.toServer ++ l }) :
    InStep J pend wait c { p with client := cl, toServer := p.toServer ++ l } := by
  have hsame : rollbacksIn (p.toServer ++ l) = rollbacksIn p.toServer := by simp [hroll]
  exact { h with
    commits := fun t ht => (mem_append.1 ht).elim (h.commits t) fun ht => (hcommit t ht).1
    committing := fun t ht => (hcommitting t ht).elim (h.committing t) fun ht => (hcommit t ht).1
    prepared := fun t r ht => h.prepared t r (hprepared _ ht)
    rollbacks := hsame ▸ h.rollbacks
    rollbacksNodup := hsame ▸ h.rollbacksNodup
    uncommitted := by
      intro t ht hc
      have ht' := hsame ▸ ht
      exact (mem_append.1 hc).elim (h.uncommitted t ht') fun hc => (hcommit t hc).2 ht'
    givenUp := by
      intro _ t ht
      have ht' := hsame ▸ ht
      obtain ⟨h1, h2, h3⟩ := h.givenUp hup t ht'
      refine ⟨fun hc => (hcommitting t hc).elim h1 fun hc => (hcommit t hc).2 ht', ?_, h3⟩
      rw [isPrepared_eq_false] at h2 ⊢
      exact fun s hs => h2 s (hprepared _ hs)
    unready := fun _ hr => by simp [hcl] at hr
    ready := fun _ _ => hready }

theorem clientPrepare (m : M) : InStep J pend wait c (p.apply true (p.client.prepare m)) := by
  cases hr : p.client.serverReady with
  | false =>
    have hu := h.unready hup hr
    simp only [prepare, hu.lastReqid, apply, if_true, append_nil]
    exact { h with
      unready := fun _ _ => { hu with lastReqid := rfl }
      ready := fun _ hr' => by simp [hr] at hr' }
  | true =>
    have hready := h.ready hup hr
    obtain ⟨last, hlast, hle⟩ := hready.numbered
    simp only [prepare, hlast, hr]
    have hnew : last + 1 ∉ p.flight wait := fun hm => by
      have := hle _ (hready.matched _ hm)
      omega
    have hperm : (flight { p with toServer := p.toServer ++ [Request.prepare (last + 1) m] } wait).Perm
        ((last + 1) :: p.flight wait) := by
      simp only [flight, reqidsIn_append]
      rw [append_assoc, append_assoc (reqidsIn _), append_assoc (reqidsIn _)]
      exact perm_middle
    refine h.sendRequests hup rfl (by simp) (by simp) (fun _ => .inl) (fun _ hx => hx)
      { recovering := hready.recovering
        noReady := hready.noReady
        nodup := hperm.nodup_iff.2 (nodup_cons.2 ⟨hnew, hready.nodup⟩)
        matched := ?_
        numbered := ⟨last + 1, rfl, fun s hs => ?_⟩ }
    · intro s hs
      rw [map_append, mem_append]
      rcases mem_cons.1 (hperm.mem_iff.1 hs) with rfl | hs
      · exact .inr (by simp)
      · exact .inl (hready.matched s hs)
    · rw [map_append, mem_append] at hs
      rcases hs with hs | hs
      · have := hle s hs
        omega
      · have hs' : s = last + 1 := by simpa using hs
        omega

theorem clientCommit {t : Nat} {o : MDSTableClient.Outcome M}
    (ho : p.client.commit t = some o) : InStep J pend wait c (p.apply true o) := by
  obtain ⟨hg, ho⟩ := Option.ite_none_right_eq_some.1 ho
  cases ho
  obtain ⟨r, hr⟩ := isPrepared_iff.1 hg.1
  have hready : p.client.serverReady = true := by
    by_contra hn
    have := (h.unready hup (by simpa using hn)).preparedUpdate
    rw [this] at hr
    cases hr
  have hrd := h.ready hup hready
  have hflight : flight { p with toServer := p.toServer ++ [Request.commit t] } wait = p.flight wait := by
    simp [flight]
  simp only [hready]
  refine h.sendRequests hup rfl (by simp) ?_ ?_ (fun x hx => mem_of_mem_filter hx)
    { hrd with nodup := hflight ▸ hrd.nodup, matched := hflight ▸ hrd.matched }
  · intro u hu
    cases mem_singleton.1 hu
    refine ⟨⟨r, h.prepared t r hr⟩, fun hm => ?_⟩
    have := (h.givenUp hup t hm).2.1
    simp [hg.1] at this
  · intro u hu
    rcases mem_insertTid.1 hu with rfl | hu
    · exact .inr (by simp)
    · exact .inl hu

/-! ### The client takes a reply -/

private theorem tail {t : Nat} (hm : p.toClient = .ack t :: rest) :
    InStep J pend wait c { p with toClient := rest } := by
  refine h.replies hup ?_ ?_ ?_ ?_ <;> rw [hm]
  · rfl
  · exact id
  · exact fun hq m hx => hq m (mem_cons_of_mem _ hx)
  · exact fun q => mem_cons_of_mem _

private theorem clientAck {t : Nat} (hm : p.toClient = .ack t :: rest) :
    InStep J pend wait c ({ p with toClient := rest }.apply true (p.client.handleAck t)) := by
  have ht := h.tail hup hm
  unfold handleAck
  split
  · simp only [apply, foldl_cons, foldl_nil, if_true, append_nil]
    exact { ht with
      committing := fun u hu => ht.committing u (mem_of_mem_filter hu)
      logged := by
        intro u hu
        rw [Journal.all_submit, mem_append, mem_singleton] at hu
        rcases hu with hu | hu
        · exact ht.logged u hu
        · cases hu
      givenUp := fun hp u hu => (ht.givenUp hp u hu).imp_left fun hn hm' => hn (mem_of_mem_filter hm')
      unready := fun hp hr => { ht.unready hp hr with }
      ready := fun hp hr => { ht.ready hp hr with } }
  · simpa [apply] using ht

section
variable {r t : Nat} {b : Option R} (hm : p.toClient = .agree r t b :: rest)
include hm

omit h hup in
private theorem agreedIn_of_head : agreedIn p.toClient = (r, t) :: agreedIn rest := by rw [hm, agreedIn_agree]

omit h hup in
private theorem mem_agreed_of_tail : ∀ q ∈ agreedIn rest ++ wait, q ∈ agreedIn p.toClient ++ wait := by
  intro q hq
  rw [agreedIn_of_head hm]
  exact mem_cons_of_mem _ hq

private theorem not_rollback_of_head : t ∉ rollbacksIn p.toServer := fun hmem =>
  (h.givenUp hup t hmem).2.2 (mem_map.2 ⟨(r, t), mem_append_left _ (by simp [agreedIn_of_head hm]), rfl⟩)

/-- An agree that comes before the server is ready: it is a duplicate for a transaction that the client is committing,
or the client gives the transaction up. -/
theorem clientAgree_unready (hr : p.client.serverReady = false) :
    ∃ o, p.client.handleAgree r t = some o ∧ InStep J pend wait c ({ p with toClient := rest }.apply true o) := by
  have hu := h.unready hup hr
  have hsame := agreedIn_of_head hm
  have hnodup := hu.agreesNodup
  rw [hsame, map_cons, nodup_cons] at hnodup
  have hsub : ∀ q ∈ agreedIn rest, q ∈ agreedIn p.toClient := fun q hq => hsame ▸ mem_cons_of_mem _ hq
  have hnotrec : p.recovering = false := by
    by_contra hn
    have hq := (hu.recovering (by simpa using hn)).2
    obtain ⟨u, hu'⟩ := hq _ (hm ▸ mem_cons_self)
    cases hu'
  have hpreparing : p.client.isPreparing r = false := by simp [isPreparing, hu.pendingPrepare]
  have hprepared : ∀ u, p.client.isPrepared u = false := fun u => by
    simp [isPrepared, hu.preparedUpdate]
  have hlast : ReadyLast rest := (hm ▸ hu.readyLast :)
  have hbase : InStep J pend wait c { p with toClient := rest } :=
    { h with
      down := fun hd => by simp [hup] at hd
      agreed := fun q hq => h.agreed q (mem_agreed_of_tail hm q hq)
      givenUp := fun hp u hu' => (h.givenUp hp u hu').imp_right fun hx => hx.imp_right fun hn hmem =>
        hn (map_subset _ (mem_agreed_of_tail hm) hmem)
      unready := fun _ _ => { hu with
        agreesNodup := hnodup.2
        agreesPending := fun q hq => hu.agreesPending q (hsub q hq)
        readyLast := hlast
        recovering := fun hrec => by simp [hnotrec] at hrec }
      ready := fun _ hr' => by simp [hr] at hr' }
  unfold handleAgree
  simp only [hpreparing, hprepared, hr]
  by_cases htc : t ∈ p.client.pendingCommit
  · simp only [htc]
    exact ⟨_, rfl, by simpa [apply] using hbase⟩
  simp only [htc]
  refine ⟨_, rfl, ?_⟩
  simp only [apply]
  have hgiven := h.not_rollback_of_head hup hm
  have hbase' := hbase.unready hup hr
  exact { hbase with
    commits := fun u hu' => h.commits u (by simpa using hu')
    rollbacks := by
      intro u hu'
      rw [rollbacksIn_append, mem_append] at hu'
      rcases hu' with hu' | hu'
      · exact h.rollbacks u hu'
      · have hut : u = t := by simpa using hu'
        exact ⟨r, hut ▸ hu.agreesPending (r, t) (by simp [hsame])⟩
    rollbacksNodup := by
      rw [rollbacksIn_append, nodup_append]
      refine ⟨h.rollbacksNodup, by simp, ?_⟩
      intro a ha e he hae
      have het : e = t := by simpa using he
      exact hgiven (het ▸ hae ▸ ha)
    uncommitted := by
      intro u _ hc
      obtain ⟨v, hv⟩ := hu.requests (.commit u) (by simpa using hc)
      cases hv
    givenUp := by
      intro _ u hu'
      rw [rollbacksIn_append, mem_append] at hu'
      rcases hu' with hu' | hu'
      · exact hbase.givenUp hup u hu'
      have hut : u = t := by simpa using hu'
      subst hut
      refine ⟨htc, hprepared u, ?_⟩
      rw [hu.wait, append_nil]
      exact hnodup.1
    unready := fun _ _ => { hbase' with
      requests := forall_mem_append.2 ⟨hu.requests, forall_mem_singleton.2 ⟨t, rfl⟩⟩
      recovering := fun hrec => by simp [hnotrec] at hrec }
    ready := fun _ hr' => by simp [hr] at hr' }

/-- An agree that reaches a ready client is the one that a prepare of it waits for. -/
theorem clientAgree_ready (hr : p.client.serverReady = true) :
    ∃ o, p.client.handleAgree r t = some o ∧ InStep J pend wait c ({ p with toClient := rest }.apply true o) := by
  have hready := h.ready hup hr
  have hsame := agreedIn_of_head hm
  have hperm : (p.flight wait).Perm (r :: flight { p with toClient := rest } wait) := by
    simp only [flight, hsame]
    exact perm_middle
  have hnodup := nodup_cons.1 (hperm.nodup_iff.1 hready.nodup)
  have hpreparing : p.client.isPreparing r = true := by
    have hin := hready.matched r (hperm.mem_iff.2 mem_cons_self)
    obtain ⟨x, hx, hxr⟩ := mem_map.1 hin
    exact any_eq_true.2 ⟨x, hx, by simp [hxr]⟩
  have hgiven := h.not_rollback_of_head hup hm
  unfold handleAgree
  simp only [hpreparing]
  refine ⟨_, rfl, ?_⟩
  simp only [apply, if_true, append_nil]
  have hprep : ∀ u s, (u, s) ∈ (t, r) :: p.client.preparedUpdate.filter (·.1 != t) →
      (u = t ∧ s = r) ∨ (u, s) ∈ p.client.preparedUpdate := by
    intro u s hs
    rcases mem_cons.1 hs with hs | hs
    · cases hs
      exact .inl ⟨rfl, rfl⟩
    · exact .inr (mem_of_mem_filter hs)
  exact { h with
    down := fun hd => by simp [hup] at hd
    prepared := by
      intro u s hs
      rcases hprep u s hs with ⟨rfl, rfl⟩ | hs
      · exact h.agreed (s, u) (mem_append_left _ (by simp [hsame]))
      · exact h.prepared u s hs
    agreed := fun q hq => h.agreed q (mem_agreed_of_tail hm q hq)
    givenUp := by
      intro _ u hu
      obtain ⟨h1, h2, h3⟩ := h.givenUp hup u hu
      refine ⟨h1, ?_, fun hmem => h3 (map_subset _ (mem_agreed_of_tail hm) hmem)⟩
      rw [isPrepared_eq_false] at h2 ⊢
      intro s hs
      rcases hprep u s hs with ⟨rfl, -⟩ | hs
      · exact hgiven hu
      · exact h2 s hs
    unready := fun _ hr' => by simp [hr] at hr'
    ready := fun _ _ =>
      { recovering := hready.recovering
        noReady := fun q hq => hready.noReady q (hm ▸ mem_cons_of_mem _ hq)
        nodup := hnodup.2
        matched := by
          intro s hs
          have hin := hready.matched s (hperm.mem_iff.2 (mem_cons_of_mem _ hs))
          obtain ⟨x, hx, rfl⟩ := mem_map.1 hin
          refine mem_map_of_mem (mem_filter.2 ⟨hx, ?_⟩)
          have hne : x.1 ≠ r := fun heq => hnodup.1 (heq ▸ hs)
          simpa using hne
        numbered := by
          obtain ⟨last, hlast, hle⟩ := hready.numbered
          refine ⟨last, hlast, fun s hs => hle s ?_⟩
          exact (filter_sublist.map _).subset hs } }

end

omit h hup in
theorem mem_numberWaiting {last : Nat} {ms : List M} {r : Nat}
    (h : r ∈ (numberWaiting last ms).map Prod.fst) : last < r ∧ r ≤ last + ms.length := by
  induction ms generalizing last with
  | nil => cases h
  | cons m ms ih =>
    rcases mem_cons.1 h with rfl | h
    · simp only [length_cons]
      omega
    · have := ih h
      simp only [length_cons]
      omega

omit h hup in
theorem numberWaiting_ascending (last : Nat) (ms : List M) :
    ((numberWaiting last ms).map Prod.fst).Pairwise (· < ·) := by
  induction ms generalizing last with
  | nil => exact List.Pairwise.nil
  | cons m ms ih =>
    refine List.Pairwise.cons (fun r hr => ?_) (ih (last + 1))
    exact (mem_numberWaiting hr).1

/-- The note that the server is ready: the client sends its prepares and its commits. -/
theorem clientReady {q : Nat} (hm : p.toClient = .serverReady q :: rest) :
    ∃ o, p.client.handleServerReady q = some o ∧ InStep J pend wait c ({ p with toClient := rest }.apply true o) := by
  have hr := h.unready_of_note hup (hm ▸ mem_cons_self)
  have hu := h.unready hup hr
  have hquiet : Quiet rest := (hm ▸ hu.readyLast :)
  have hnotrec : p.recovering = false := by
    by_contra hn
    exact (hu.recovering (by simpa using hn)).2.not_serverReady q (hm ▸ mem_cons_self)
  have ht := h.replies hup (by rw [hm]; rfl) (fun _ => hquiet.readyLast) (fun _ => hquiet)
      fun q' hq => absurd hq (hquiet.not_serverReady q')
  unfold handleServerReady
  simp only [hr, hu.lastReqid, hu.pendingPrepare, Option.getD_none, nil_append]
  refine ⟨_, rfl, ?_⟩
  simp only [apply, if_true]
  have hflight : ∀ client, flight
      { p with
        client := client
        toServer := p.toServer ++
          ((numberWaiting q p.client.waitingForReqid).map (fun x => Request.prepare x.1 x.2) ++
            p.client.pendingCommit.map Request.commit)
        toClient := rest } wait = (numberWaiting q p.client.waitingForReqid).map Prod.fst := by
    simp [flight, hu.wait, hquiet.agreedIn, reqidsIn_of_rollbacks hu.requests]
  refine ht.sendRequests hup rfl (by simp) (fun t hc => ?_) (fun _ => .inl) (fun _ hx => hx)
    { recovering := hnotrec
      noReady := hquiet.not_serverReady
      nodup := by
        rw [hflight]
        exact (numberWaiting_ascending q _).imp Nat.ne_of_lt
      matched := by
        rw [hflight]
        exact fun r hr => hr
      numbered := ⟨_, rfl, fun r hr => (mem_numberWaiting hr).2⟩ }
  have hc' : t ∈ p.client.pendingCommit := by simpa using hc
  exact ⟨h.committing t hc', fun hm => (h.givenUp hup t hm).1 hc'⟩

theorem clientReply {m : Reply R} (hm : p.toClient = m :: rest) :
    ∃ o, p.client.handleRequest m = some o ∧ InStep J pend wait c ({ p with toClient := rest }.apply true o) := by
  cases m with
  | agree r t b =>
    cases hr : p.client.serverReady with
    | false => exact h.clientAgree_unready hup hm hr
    | true => exact h.clientAgree_ready hup hm hr
  | ack t => exact ⟨_, rfl, h.clientAck hup hm⟩
  | serverReady q => exact h.clientReady hup hm

end

/-- The client starts again when none of its prepares waits for the journal of the server. -/
theorem restart (h : InStep J pend [] c p) : InStep J pend [] c p.restart := by
  have hclient : p.restart.client = { pendingCommit := p.restart.client.pendingCommit } := replay_client_eq _ _
  have hready : p.restart.client.serverReady = false := by rw [hclient]
  exact
    { down := nofun
      commits := nofun
      committing := by
        intro t ht
        rcases (mem_pendingCommit_replay p.journal.durable {} t).1 ht with hm | hm
        · cases hm
        · exact h.logged t (Journal.mem_all_of_durable hm)
      logged := h.logged
      prepared := fun t r ht => by rw [hclient] at ht; cases ht
      agreed := nofun
      rollbacks := nofun
      rollbacksNodup := nodup_nil
      uncommitted := nofun
      givenUp := nofun
      unready := fun _ _ =>
        { lastReqid := by rw [hclient]
          pendingPrepare := by rw [hclient]
          preparedUpdate := by rw [hclient]
          wait := rfl
          requests := nofun
          agreesNodup := nodup_nil
          agreesPending := nofun
          readyLast := trivial
          recovering := fun _ => ⟨rfl, nofun⟩ }
      ready := fun _ hr => by rw [hready] at hr; cases hr }

end InStep
end Lunule.Table
