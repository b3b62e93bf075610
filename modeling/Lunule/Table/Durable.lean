import Lunule.Table.SessionStep

/-!
# Acknowledged commits are durable

The server drops a transaction from `pending_for_mds` when it submits the COMMIT event, and answers a commit of a tid
that is not pending from memory. A client that restarts in between sends its commit again and gets an acknowledgement
although the COMMIT event is not durable; if the server crashes then, it has the transaction pending again, and the
client, which has forgotten it, asks for its rollback.

`ack_durable` is what holds: in every run in which no commit arrives while the COMMIT event of its tid is submitted but
not durable, and in which no client is recovered while one of its prepares still waits for the journal, each
acknowledgement sent is one of a durable commit, and no transaction that its client has journaled is ever rolled back.
-/

namespace Lunule.Table
open Exec List Option LogEntry Function Service Journal Ledger
open Service (step)
variable {T M R : Type} {c : Rank}

def Service.events (w : Service T M R) : List (ETableServer M) := w.journal.all.map (·.event)

def Service.safeEvents (w : Service T M R) : List (ETableServer M) := w.journal.durable.map (·.event)

/-- What a waiting completion may send. -/
def Completes (w : Service T M R) (e : LogEntry M R) (c : Rank) : Reply R → Prop
  | .agree r t _ => ∃ m, e.event = .prepare r c m t
  | .ack t => (∃ v, e.event = .commit t v) ∧ .update t ∈ (w.peer c).journal.durable
  | .serverReady _ => False

private theorem Completes.mono {w w' : Service T M R} {e : LogEntry M R} {m : Reply R} (h : Completes w e c m)
    (hd : ∀ x ∈ (w.peer c).journal.durable, x ∈ (w'.peer c).journal.durable) : Completes w' e c m := by
  cases m with
  | agree r t b => exact h
  | serverReady q => exact h
  | ack t => exact ⟨h.1, hd _ h.2⟩

structure Inv (S : Setup T M R) (w : Service T M R) : Prop where
  ledger : ∃ L, exec note ⟨S.version, []⟩ w.events = some L ∧ (w.up = true → w.server.ledger = L)
  idle : w.up = false → w.journal.waiting = []
  completions : ∀ e ∈ w.journal.waiting, ∀ c m, e.onSafe = some (c, m) → Completes w e c m
  acked : ∀ t ∈ w.acked, Committed w.safeEvents t
  peers : ∀ c, PeerInv w.up w.safeEvents w.events (agreesFor c w.journal.waiting) c (w.peer c)

variable {t : Nat}

private theorem mem_agreesFor {l : List (LogEntry M R)} :
    t ∈ agreesFor c l ↔ ∃ e ∈ l, ∃ r b, e.onSafe = some (c, .agree r t b) := by
  unfold agreesFor
  simp only [mem_filterMap, agreeFor]
  refine exists_congr fun e => and_congr_right fun _ => ?_
  constructor
  · intro h
    split at h
    · rename_i d r t' b heq
      split at h
      · rename_i hd
        cases h
        exact ⟨r, b, hd ▸ heq⟩
      · cases h
    · cases h
  · rintro ⟨r, b, h⟩
    simp [h]

section
variable {S : Setup T M R} {w : Service T M R} (h : Inv S w)
include h

private theorem Inv.facts : ∃ L, Ledger.Facts S.version w.events L ∧ (w.up = true → w.server.ledger = L) := by
  obtain ⟨L, hL, hs⟩ := h.ledger
  exact ⟨L, facts_of_exec hL, hs⟩

omit h in
private theorem Service.events_of_safe {e : ETableServer M} (he : e ∈ w.safeEvents) : e ∈ w.events :=
  (w.journal.durable_prefix_all.map _).subset he

omit h in
private theorem Service.prepared_of_safe {p : Pending} (hp : Prepared w.safeEvents p) : Prepared w.events p :=
  hp.imp fun _ hm => events_of_safe hm

private theorem Inv.live_prepared (c : Rank) :
    ∀ t ∈ (w.peer c).live (agreesFor c w.journal.waiting), ∃ r, Prepared w.events ⟨t, c, r⟩ := by
  intro t ht
  rcases mem_append.1 ht with ht | ht
  · obtain ⟨r, b, hm⟩ := mem_agreesOf.1 ((matchable_sublist _ _).subset ht)
    exact ⟨r, prepared_of_safe ((h.peers c).agreed r t b hm)⟩
  obtain ⟨e, he, r, b, hs⟩ := mem_agreesFor.1 ht
  obtain ⟨m, hm⟩ := h.completions e he c _ hs
  refine ⟨r, m, ?_⟩
  rw [← hm]
  exact List.mem_map_of_mem (mem_all_of_waiting he)

end

/-! ### One client moves -/

private theorem Inv.setPeer {S : Setup T M R} {w : Service T M R} (h : Inv S w) {p : Peer M R}
    (hp : PeerInv w.up w.safeEvents w.events (agreesFor c w.journal.waiting) c p)
    (hd : ∀ e ∈ (w.peer c).journal.durable, e ∈ p.journal.durable) : Inv S (w.setPeer c p) where
  ledger := h.ledger
  idle := h.idle
  completions := by
    intro e he d m hm
    refine (h.completions e he d m hm).mono ?_
    exact (forall_update_iff w.peer fun d q => ∀ x ∈ (w.peer d).journal.durable, x ∈ q.journal.durable).2
      ⟨hd, fun _ _ _ hx => hx⟩ d
  acked := h.acked
  peers := (forall_update_iff w.peer fun d q =>
    PeerInv w.up w.safeEvents w.events (agreesFor d w.journal.waiting) d q).2 ⟨hp, fun d _ => h.peers d⟩

variable {rest : List (Request M)}

private theorem Inv.takeRequest {S : Setup T M R} {w : Service T M R} (h : Inv S w) {m : Request M}
    (hreq : (w.peer c).toServer = m :: rest) :
    Inv S (w.setPeer c { w.peer c with toServer := rest }) :=
  h.setPeer ((h.peers c).takeRequests (hreq ▸ sublist_cons_self m rest)) (fun _ he => he)

/-! ### The server moves -/

section
variable {S : Setup T M R} {w : Service T M R} {o : MDSTableServer.Outcome T M R}

theorem Service.events_submit (w : Service T M R) (e : LogEntry M R) :
    (w.journal.submit e).all.map (·.event) = w.events ++ [e.event] := by
  simp [events]

section
variable (h : Inv S w)
include h

private theorem Inv.submit (hup : w.up = true) {s : MDSTableServer T} {e : LogEntry M R}
    (hnote : w.server.ledger.note e.event = some s.ledger)
    (hsafe : ∀ c m, e.onSafe = some (c, m) → Completes w e c m)
    (hroll : ∀ t v, e.event = .rollback t v → ∃ c, .rollback t ∈ (w.peer c).toServer) :
    Inv S { w with server := s, journal := w.journal.submit e } := by
  obtain ⟨L, hF, hs⟩ := h.facts
  obtain ⟨K, hK, hKs⟩ := h.ledger
  have hLedger : w.server.ledger = L := hs hup
  have hversion := hLedger ▸ version_of_note hnote
  -- a prepare creates a tid that is not in the journal
  have hnew : ∀ r c m t, e.event = .prepare r c m t →
      (∀ d r', ¬ Prepared w.events ⟨t, d, r'⟩) ∧ ¬ RolledBack (w.events ++ [e.event]) t := by
    intro r c m t he
    have ht : t = L.version + 1 := by simpa [he, ETableServer.version] using hversion
    have hno : ∀ d r', ¬ Prepared w.events ⟨t, d, r'⟩ := by
      intro d r' hp
      have := hF.bound _ hp
      simp only at this
      omega
    refine ⟨hno, ?_⟩
    intro hr
    obtain ⟨p, hp, hpt⟩ := hF.rolledBack t (by simpa [he] using hr)
    exact hno p.mds p.reqid (by rw [← hpt]; exact hp)
  have hframe : ∀ c, PeerInv w.up w.safeEvents (w.events ++ [e.event]) (agreesFor c w.journal.waiting) c
      (w.peer c) := by
    intro c
    refine (h.peers c).frame (h.peers c).serverDown (fun _ he => he) (h.live_prepared c) ?_ ?_ (List.Sublist.refl _)
    · rintro t r ⟨m, hm⟩
      rcases mem_append.1 hm with hm | hm
      · exact .inl ⟨m, hm⟩
      · obtain ⟨hno, hnr⟩ := hnew r c m t (mem_singleton.1 hm).symm
        exact .inr ⟨fun r' hp => hno c r' (prepared_of_safe hp), hnr⟩
    · rintro t ⟨v, hv⟩
      rcases mem_append.1 hv with hv | hv
      · exact .inl ⟨v, hv⟩
      obtain ⟨d, hd⟩ := hroll t v (mem_singleton.1 hv).symm
      by_cases hdc : d = c
      · exact .inr (.inl (hdc ▸ hd))
      -- the transaction belongs to the client that asked
      refine .inr (.inr fun r hp => ?_)
      obtain ⟨r', hp'⟩ := (h.peers d).rollbacks t hd
      have := hF.unique _ _ hp (prepared_of_safe hp') rfl
      exact hdc (Pending.mk.inj this).2.1.symm
  constructor
  · refine ⟨s.ledger, ?_, fun _ => rfl⟩
    show exec note ⟨S.version, []⟩ ((w.journal.submit e).all.map (·.event)) = _
    rw [w.events_submit]
    exact exec_snoc.2 ⟨K, hK, (hKs hup) ▸ hnote⟩
  · exact fun hd => by simp [hup] at hd
  · intro e' he' c m hm
    rw [waiting_submit, mem_append, mem_singleton] at he'
    rcases he' with he' | rfl
    · exact h.completions e' he' c m hm
    · exact hsafe c m hm
  · exact h.acked
  · intro c
    show PeerInv w.up w.safeEvents ((w.journal.submit e).all.map (·.event))
      (agreesFor c (w.journal.submit e).waiting) c (w.peer c)
    rw [w.events_submit, waiting_submit]
    have happ : agreesFor c (w.journal.waiting ++ [e]) = agreesFor c w.journal.waiting ++ agreesFor c [e] :=
      filterMap_append
    cases ha : agreeFor c e with
    | none =>
      have hnil : agreesFor c [e] = [] := by simp [agreesFor, ha]
      rw [happ, hnil, append_nil]
      exact hframe c
    | some t =>
      have hone : agreesFor c [e] = [t] := by simp [agreesFor, ha]
      obtain ⟨e', he', r, b, hb⟩ := mem_agreesFor.1 (hone ▸ mem_singleton_self t : t ∈ agreesFor c [e])
      rw [mem_singleton.1 he'] at hb
      obtain ⟨m, hm⟩ := hsafe c _ hb
      obtain ⟨hno, hnr⟩ := hnew r c m t hm
      have hp := h.peers c
      rw [happ, hone]
      refine (hframe c).addWait ?_ ?_ hnr ?_ ?_
      · intro ht
        rcases mem_append.1 ht with ht | ht
        · obtain ⟨r', b', hm'⟩ := mem_agreesOf.1 ht
          exact hno c r' (prepared_of_safe (hp.agreed r' t b' hm'))
        · obtain ⟨r', hr'⟩ := h.live_prepared c t (mem_append_right _ ht)
          exact hno c r' hr'
      · intro ht
        obtain ⟨r', hr'⟩ := hp.rollbacks t ht
        exact hno c r' (prepared_of_safe hr')
      · intro ht
        obtain ⟨r', hr'⟩ := hp.logged t ht
        exact hno c r' (prepared_of_safe hr')
      · rw [MDSTableClient.isPrepared_eq_false]
        exact fun r' hr' => hno c r' (prepared_of_safe (hp.prepared t r' hr'))

private theorem Inv.sendAck (hc : Committed w.safeEvents t)
    (hu : .update t ∈ (w.peer c).journal.durable) : Inv S (w.sendReply (c, .ack t)) := by
  have h' := h.setPeer ((h.peers c).sendAck hc hu) (fun _ he => he)
  refine { h' with acked := ?_ }
  intro u hu
  simp only [sendReply, mem_append, mem_singleton] at hu
  rcases hu with hu | rfl
  · exact h.acked u hu
  · exact hc

section
variable (hup : w.up = true) {j : Journal (LogEntry M R)}
include hup

private theorem Inv.handleCommit
    (hreq : (w.peer c).toServer = .commit t :: rest) (hset : Committed w.events t → Committed w.safeEvents t)
    (ho : w.server.handleCommit S.ops c t = some o) :
    Inv S ((w.setPeer c { w.peer c with toServer := rest }).applyServer o) := by
  have hupd := (h.peers c).commits t (hreq ▸ mem_cons_self)
  unfold MDSTableServer.handleCommit at ho
  split at ho
  · rename_i hp
    obtain ⟨s, hs, rfl⟩ := map_eq_some_iff.1 ho
    have hl := MDSTableServer.ledger_noteCommit hs
    have hv : s.version = w.server.version + 1 := congrArg version hl
    refine (h.submit hup (s := s) (e := ⟨.commit t s.version, some (c, .ack t)⟩) ?_ ?_ ?_).takeRequest hreq
    · simp only [note, finish, hv, hl]
      rw [if_pos ⟨rfl, MDSTableServer.isPending_iff.1 hp⟩]
      rfl
    · intro d m hm
      cases hm
      exact ⟨⟨_, rfl⟩, hupd⟩
    · intro u v he
      cases he
  · rename_i hp
    obtain ⟨-, ho⟩ := ite_none_right_eq_some.1 ho
    cases ho
    obtain ⟨L, hF, hs⟩ := h.facts
    obtain ⟨r, hr⟩ := (h.peers c).logged t (mem_all_of_durable hupd)
    have hr' := prepared_of_safe hr
    have hnr : ¬ RolledBack w.events t := fun hd =>
      ((h.peers c).doomed t r hr' (.inr hd)).1 (mem_all_of_durable hupd)
    have hnp : ⟨t, c, r⟩ ∉ L.pending := by
      rw [← hs hup]
      exact fun hm => hp (MDSTableServer.isPending_iff.2 ⟨_, hm, rfl⟩)
    -- neither pending nor rolled back, so the journal has its commit
    have hc : Committed w.events t := by
      by_contra hn
      exact hnp ((hF.pending _).2 ⟨hr', hn, hnr⟩)
    exact (h.takeRequest hreq).sendAck (hset hc) (by simpa [Service.setPeer] using hupd)

private theorem Inv.handlePrepare {r : Nat} {m : M}
    (hreq : (w.peer c).toServer = .prepare r m :: rest) (ho : w.server.handlePrepare S.ops c r m = some o) :
    Inv S ((w.setPeer c { w.peer c with toServer := rest }).applyServer o) := by
  obtain ⟨⟨s, bl⟩, hs, rfl⟩ := map_eq_some_iff.1 ho
  obtain ⟨hl, hv⟩ := MDSTableServer.ledger_notePrepare hs
  refine (h.submit hup (s := s) (e := ⟨.prepare r c m s.version, some (c, .agree r s.version (some bl))⟩)
    ?_ ?_ ?_).takeRequest hreq
  · rw [hv]
    exact hl
  · intro d m' hm
    cases hm
    exact ⟨m, rfl⟩
  · exact nofun

private theorem Inv.handleRollback
    (hreq : (w.peer c).toServer = .rollback t :: rest) (ho : w.server.handleRollback S.ops t = some o) :
    Inv S ((w.setPeer c { w.peer c with toServer := rest }).applyServer o) := by
  obtain ⟨hp, ho⟩ := ite_none_right_eq_some.1 ho
  obtain ⟨s, hs, rfl⟩ := map_eq_some_iff.1 ho
  have hl := MDSTableServer.ledger_noteRollback hs
  have hv : s.version = w.server.version + 1 := congrArg version hl
  refine (h.submit hup (s := s) (e := ⟨.rollback t s.version, none⟩) ?_ ?_ ?_).takeRequest hreq
  · simp only [note, finish, hv, hl]
    rw [if_pos ⟨rfl, MDSTableServer.isPending_iff.1 hp⟩]
    rfl
  · intro d m hm
    cases hm
  · intro u v he
    cases he
    exact ⟨c, hreq ▸ mem_cons_self⟩

private theorem Inv.serverUpdate {m : M} (ho : w.server.doServerUpdate S.ops m = some o) : Inv S (w.applyServer o) := by
  obtain ⟨s, hs, rfl⟩ := map_eq_some_iff.1 ho
  have hl := MDSTableServer.ledger_noteServerUpdate hs
  have hv : s.version = w.server.version + 1 := congrArg version hl
  refine h.submit hup (s := s) (e := ⟨.serverUpdate m s.version, none⟩) ?_ ?_ ?_
  · rw [hl]
    simp [note, hv, MDSTableServer.ledger]
  · intro d m' hm
    cases hm
  · intro u v he
    cases he

private theorem Inv.advance (ha : j.all = w.journal.all)
    (hsafe : ∀ x ∈ w.safeEvents, x ∈ j.durable.map (·.event)) (hw : ∀ e ∈ j.waiting, e ∈ w.journal.waiting)
    {p : Rank → Peer M R} (hpj : ∀ c, (p c).journal = (w.peer c).journal)
    (hp : ∀ c, PeerInv w.up (j.durable.map (·.event)) w.events (agreesFor c j.waiting) c (p c)) :
    Inv S { w with journal := j, peer := p } := by
  have hevents : j.all.map (·.event) = w.events := by rw [ha]; rfl
  constructor
  · show ∃ L, exec note ⟨S.version, []⟩ (j.all.map (·.event)) = some L ∧ _
    rw [hevents]
    exact h.ledger
  · exact fun hd => by simp [hup] at hd
  · intro e he c m hm
    refine (h.completions e (hw e he) c m hm).mono fun x hx => ?_
    rw [hpj c]
    exact hx
  · exact fun t ht => (h.acked t ht).imp fun v hv => hsafe _ hv
  · intro c
    show PeerInv w.up _ (j.all.map (·.event)) _ c _
    rw [hevents]
    exact hp c

private theorem Inv.flush (hj : w.journal.flush = some j) : Inv S { w with journal := j } := by
  obtain ⟨e, hd, ha, hw⟩ := flush_spec hj
  have hsafe : ∀ x ∈ w.safeEvents, x ∈ j.durable.map (·.event) := by
    intro x hx
    rw [hd, map_append]
    exact mem_append_left _ hx
  refine h.advance hup ha hsafe (fun e he => hw ▸ he) (fun _ => rfl) fun c => ?_
  rw [hw]
  exact (h.peers c).frame (h.peers c).serverDown hsafe (h.live_prepared c) (fun _ _ hp => .inl hp)
    (fun _ hr => .inl hr) (List.Sublist.refl _)

private theorem Inv.complete {w' : Service T M R} (hw' : w.completeServer = some w') : Inv S w' := by
  obtain ⟨e, j, hj, rfl⟩ := completeServer_eq_some.1 hw'
  obtain ⟨hmem, hd, ha, hw⟩ := complete_spec hj
  have hcomp := h.completions e (hw ▸ mem_cons_self)
  have hsafe : e.event ∈ w.safeEvents := List.mem_map_of_mem hmem
  have hdurable : j.durable.map (·.event) = w.safeEvents := by rw [hd]; rfl
  have hwait : ∀ c, agreesFor c w.journal.waiting = (agreeFor c e).toList ++ agreesFor c j.waiting := by
    intro c
    rw [hw]
    cases hc : agreeFor c e <;> simp [agreesFor, hc]
  have key := fun p : Rank → Peer M R => h.advance (p := p) hup ha (fun x hx => hdurable ▸ hx) fun e' he' =>
    hw ▸ mem_cons_of_mem _ he'
  rw [hdurable] at key
  have hother : ∀ c, agreeFor c e = none →
      PeerInv w.up w.safeEvents w.events (agreesFor c j.waiting) c (w.peer c) := by
    intro c hc
    have := h.peers c
    rw [hwait c, hc] at this
    exact this
  cases hs : e.onSafe with
  | none => exact key w.peer (fun _ => rfl) fun c => hother c (by simp [agreeFor, hs])
  | some cm =>
    obtain ⟨c, m⟩ := cm
    cases m with
    | serverReady q => exact (hcomp c _ hs).elim
    | ack t =>
      obtain ⟨⟨v, hv⟩, hu⟩ := hcomp c _ hs
      have hk := key w.peer (fun _ => rfl) fun d => hother d (by simp [agreeFor, hs])
      refine Inv.sendAck hk ?_ hu
      show Committed (j.durable.map (·.event)) t
      rw [hdurable]
      exact ⟨v, hv ▸ hsafe⟩
    | agree r t b =>
      obtain ⟨mu, hmu⟩ := hcomp c _ hs
      have hc : PeerInv w.up w.safeEvents w.events (agreesFor c j.waiting) c ((w.peer c).receive (.agree r t b)) := by
        have := h.peers c
        rw [hwait c] at this
        simp only [agreeFor, hs] at this
        exact this.sendAgree ⟨mu, hmu ▸ hsafe⟩
      refine key (update w.peer c ((w.peer c).receive (.agree r t b))) ?_ ?_
      · exact (forall_update_iff w.peer fun d q => q.journal = (w.peer d).journal).2 ⟨rfl, fun _ _ => rfl⟩
      · refine (forall_update_iff w.peer fun d q =>
          PeerInv w.up w.safeEvents w.events (agreesFor d j.waiting) d q).2 ⟨hc, fun d hd => hother d ?_⟩
        simp [agreeFor, hs, hd.symm]

end

private theorem Inv.crashServer (entries : Nat) (received : Rank → Nat) : Inv S { w with
      up := false, journal := w.journal.crash entries, peer := fun c => (w.peer c).lose (received c) } := by
  obtain ⟨L, hL, -⟩ := h.ledger
  have hdur : ∀ x ∈ w.safeEvents, x ∈ (w.journal.crash entries).durable.map (·.event) := fun x hx =>
    ((w.journal.durable_prefix_crash entries).map _).subset hx
  have hpre : (w.journal.crash entries).durable.map (·.event) <+: w.events := (w.journal.crash_prefix_all entries).map _
  have hevents : (w.journal.crash entries).all.map (·.event) = (w.journal.crash entries).durable.map (·.event) := by
    rw [all_crash]
  constructor
  · show ∃ L, exec note ⟨S.version, []⟩ ((w.journal.crash entries).all.map (·.event)) = some L ∧ _
    obtain ⟨K, hK⟩ := exec_of_prefix hpre hL
    rw [hevents]
    exact ⟨K, hK, nofun⟩
  · exact fun _ => rfl
  · exact nofun
  · exact fun t ht => (h.acked t ht).imp fun v hv => hdur _ hv
  · intro c
    show PeerInv false ((w.journal.crash entries).durable.map (·.event)) ((w.journal.crash entries).all.map (·.event))
      [] c ((w.peer c).lose (received c))
    rw [hevents]
    have hl := (h.peers c).lose (received c)
    refine hl.frame (fun _ => rfl) hdur ?_ ?_ ?_ (nil_sublist _)
    · intro t ht
      rcases mem_append.1 ht with ht | ht
      · obtain ⟨r, b, hm⟩ := mem_agreesOf.1 ((matchable_sublist _ _).subset ht)
        exact ⟨r, prepared_of_safe (hl.agreed r t b hm)⟩
      · exact h.live_prepared c t (mem_append_right _ ht)
    · exact fun t r hp => .inl (hp.imp fun m hm => hpre.subset hm)
    · exact fun t hr => .inl (hr.imp fun v hv => hpre.subset hv)

private theorem Inv.restartServer (hdown : w.up = false) {w' : Service T M R}
    (hw' : w.restartServer S = some w') : Inv S w' := by
  obtain ⟨s, hs, rfl⟩ := map_eq_some_iff.1 hw'
  have hwait := h.idle hdown
  have hevents : w.events = w.safeEvents := by
    simp only [events, safeEvents, Journal.all]
    rw [(append_eq_nil_iff.1 hwait).2, append_nil]
  obtain ⟨K, hK, -⟩ := h.ledger
  have hK' := hevents ▸ hK
  have hledger : s.ledger = K := ledger_replay_all (s := S.saved) hK' hs
  have hF' := hledger ▸ hevents ▸ facts_of_exec hK
  constructor
  · exact ⟨K, hK, fun _ => hledger⟩
  · intro hd
    cases hd
  · show ∀ e ∈ w.journal.waiting, _
    rw [hwait]
    intro e he
    cases he
  · exact h.acked
  · intro c
    show PeerInv true w.safeEvents w.events (agreesFor c w.journal.waiting) c ((w.peer c).finishRecovery s c)
    have hp := h.peers c
    have htoServer := hp.serverDown hdown
    have hlive := h.live_prepared c
    rw [hwait] at hp hlive ⊢
    have hp' : PeerInv true w.safeEvents w.events [] c (w.peer c) :=
      hp.frame (fun hd => by cases hd) (fun _ he => he) hlive (fun _ _ h => .inl h) (fun _ h => .inl h)
        (List.Sublist.refl _)
    unfold Peer.finishRecovery
    split
    · rename_i hup
      refine hp'.noteFailure.recovered hup (fun _ => not_mem_nil) (.inr ⟨rfl, htoServer⟩) ?_ hF'.nodup
      intro q hq _
      have := (hF'.pending q).1 hq
      rw [hevents]
      exact this
    · exact hp'

private theorem Inv.recoverClient (hup : w.up = true) (hc : (w.peer c).up = true)
    (hr : (w.peer c).recovering = true) (hset : ∀ e ∈ w.journal.waiting, ∀ r m t, e.event ≠ .prepare r c m t) :
    Inv S (w.recover c) := by
  obtain ⟨L, hF, hs⟩ := h.facts
  have hL := hs hup
  have hp := h.peers c
  have hwait : agreesFor c w.journal.waiting = [] := by
    rw [eq_nil_iff_forall_not_mem]
    intro t ht
    obtain ⟨e, he, r, b, hb⟩ := mem_agreesFor.1 ht
    obtain ⟨m, hm⟩ := h.completions e he c _ hb
    exact hset e he r m t hm
  refine h.setPeer ?_ (fun _ he => he)
  rw [hwait] at hp ⊢
  obtain ⟨hlast, hready⟩ := hp.recovering hc hr
  refine hp.recovered hc hready (.inl hlast) ?_ ?_
  · intro q hq hqc
    have hq' : q ∈ L.pending := hL ▸ hq
    obtain ⟨⟨m, hm⟩, hnc, hnr⟩ := (hF.pending q).1 hq'
    refine ⟨⟨m, ?_⟩, fun hcom => hnc (hcom.imp fun v hv => events_of_safe hv), hnr⟩
    obtain ⟨e, he, heq⟩ := List.mem_map.1 hm
    refine List.mem_map.2 ⟨e, ?_, heq⟩
    rcases durable_or_waiting he with hd | hw
    · exact hd
    · exact absurd (heq.trans (by rw [hqc])) (hset e hw q.reqid m q.tid)
  · have := hF.nodup
    rw [← hL] at this
    exact this

end
end

/-! ### Runs -/

/-- The events of the table that a commit ends, and the rank that a prepare is made for. -/
def ETableServer.commits : ETableServer M → Option Nat
  | .commit tid _ => some tid
  | _ => none

def ETableServer.preparedFor : ETableServer M → Option Rank
  | .prepare _ c _ _ => some c
  | _ => none

instance (evs : List (ETableServer M)) (t : Nat) : Decidable (Committed evs t) :=
  decidable_of_iff (∃ e ∈ evs, e.commits = some t) (by
    constructor
    · rintro ⟨e, he, ht⟩
      cases e <;> simp only [ETableServer.commits, reduceCtorEq, Option.some.injEq] at ht
      subst ht
      exact ⟨_, he⟩
    · rintro ⟨v, hv⟩
      exact ⟨_, hv, rfl⟩)

/-- A commit does not arrive while the COMMIT event of its tid is submitted but not durable, and a client is not
recovered while one of its prepares waits for the journal. -/
def Service.Settled (w : Service T M R) : Event M → Prop
  | .deliverServer c =>
    match (w.peer c).toServer with
    | .commit t :: _ => Committed w.events t → Committed w.safeEvents t
    | _ => True
  | .recoverClient c => ∀ e ∈ w.journal.waiting, e.event.preparedFor ≠ some c
  | _ => True

instance (w : Service T M R) (ev : Event M) : Decidable (w.Settled ev) :=
  decidable_of_bool (match ev with
    | .deliverServer c =>
      match (w.peer c).toServer with
      | .commit t :: _ => Committed w.events t → Committed w.safeEvents t
      | _ => true
    | .recoverClient c => ∀ e ∈ w.journal.waiting, e.event.preparedFor ≠ some c
    | _ => true) (by
      cases ev <;> simp only [Service.Settled, decide_eq_true_eq]
      split <;> simp [imp_iff_not_or])

private theorem inv_init (S : Setup T M R) : Inv S S.init where
  ledger := ⟨_, rfl, fun _ => rfl⟩
  idle := nofun
  completions := nofun
  acked := nofun
  peers := by
    intro c
    constructor <;> intros <;> simp_all [Setup.init, events, Journal.durable, Journal.all, Journal.waiting,
      Peer.live, matchable, agreesWhenReady, agreesFor, Prepared]

section
variable {S : Setup T M R} {w w' : Service T M R}

private theorem Inv.deliverServer (h : Inv S w) (hup : w.up = true) (hset : w.Settled (.deliverServer c))
    (hw' : w.deliverServer S c = some w') : Inv S w' := by
  obtain ⟨m, rest, o, hreq, ho, rfl⟩ := deliverServer_eq_some.1 hw'
  cases m with
  | prepare r mu => exact h.handlePrepare hup hreq ho
  | commit t =>
    simp only [Service.Settled, hreq] at hset
    exact h.handleCommit hup hreq hset ho
  | rollback t => exact h.handleRollback hup hreq ho

private theorem Inv.deliverClient (h : Inv S w) (hw' : w.deliverClient c = some w') : Inv S w' := by
  obtain ⟨m, rest, o, hm, ho, rfl⟩ := deliverClient_eq_some.1 hw'
  refine h.setPeer ((h.peers c).clientReply hm ho) ?_
  exact fun e he => Journal.durable_foldl_submit o.log (w.peer c).journal ▸ he

private theorem Inv.completeClient (h : Inv S w) (hc : (w.peer c).up = true) (hw' : w.completeClient c = some w') :
    Inv S w' := by
  obtain ⟨e, j, hj, hcase⟩ := completeClient_cases hw'
  obtain ⟨hmem, hd, ha, -⟩ := complete_spec hj
  have hp := (h.peers c).moveJournal hc (fun e he => hd ▸ he) ha
  obtain ⟨t, -, rfl⟩ | ⟨t, o, rfl, ho, rfl⟩ := hcase
  · exact h.setPeer hp fun e he => hd ▸ he
  · refine h.setPeer (hp.clientCommit (hd ▸ hmem) ho) fun e he => ?_
    show e ∈ (o.log.foldl Journal.submit j).durable
    rw [Journal.durable_foldl_submit, hd]
    exact he

private theorem Inv.step {ev : Event M} (h : Inv S w) (hset : w.Settled ev) (hw' : w.step S ev = some w') :
    Inv S w' := by
  cases ev with
  | prepare c m =>
    obtain ⟨-, hw'⟩ := ite_none_right_eq_some.1 hw'
    cases hw'
    refine h.setPeer ((h.peers c).clientPrepare m) fun e he => ?_
    exact Journal.durable_foldl_submit _ (w.peer c).journal ▸ he
  | logUpdate c t =>
    obtain ⟨hg, hw'⟩ := ite_none_right_eq_some.1 hw'
    cases hw'
    exact h.setPeer ((h.peers c).logUpdate hg.1 hg.2) fun e he => he
  | flushClient c =>
    obtain ⟨hc, hw'⟩ := ite_none_right_eq_some.1 hw'
    obtain ⟨j, hj, rfl⟩ := map_eq_some_iff.1 hw'
    obtain ⟨e, hd, ha, -⟩ := flush_spec hj
    have hsub : ∀ x ∈ (w.peer c).journal.durable, x ∈ j.durable := fun x hx => by
      rw [hd]
      exact mem_append_left _ hx
    exact h.setPeer ((h.peers c).moveJournal hc hsub ha) hsub
  | completeClient c =>
    obtain ⟨hc, hw'⟩ := ite_none_right_eq_some.1 hw'
    exact h.completeClient hc hw'
  | deliverClient c =>
    obtain ⟨-, hw'⟩ := ite_none_right_eq_some.1 hw'
    exact h.deliverClient hw'
  | crashClient c k r =>
    obtain ⟨-, hw'⟩ := ite_none_right_eq_some.1 hw'
    cases hw'
    exact h.setPeer ((h.peers c).crash k r) fun e he => ((w.peer c).journal.durable_prefix_crash k).subset he
  | restartClient c =>
    obtain ⟨hc, hw'⟩ := ite_none_left_eq_some.1 hw'
    cases hw'
    exact h.setPeer ((h.peers c).restart (by simpa using hc)) fun e he => he
  | recoverClient c =>
    obtain ⟨hg, hw'⟩ := ite_none_right_eq_some.1 hw'
    cases hw'
    refine h.recoverClient hg.1 hg.2.1 hg.2.2 fun e he r m t heq => ?_
    exact hset e he (by rw [heq]; rfl)
  | deliverServer c =>
    obtain ⟨hup, hw'⟩ := ite_none_right_eq_some.1 hw'
    exact h.deliverServer hup hset hw'
  | serverUpdate m =>
    obtain ⟨hup, hw'⟩ := ite_none_right_eq_some.1 hw'
    obtain ⟨o, ho, rfl⟩ := map_eq_some_iff.1 hw'
    exact h.serverUpdate hup ho
  | flushServer =>
    obtain ⟨hup, hw'⟩ := ite_none_right_eq_some.1 hw'
    obtain ⟨j, hj, rfl⟩ := map_eq_some_iff.1 hw'
    exact h.flush hup hj
  | completeServer =>
    obtain ⟨hup, hw'⟩ := ite_none_right_eq_some.1 hw'
    exact h.complete hup hw'
  | crashServer k r =>
    obtain ⟨-, hw'⟩ := ite_none_right_eq_some.1 hw'
    cases hw'
    exact h.crashServer k r
  | noteFailure c =>
    obtain ⟨-, hw'⟩ := ite_none_left_eq_some.1 hw'
    cases hw'
    exact h.setPeer (h.peers c).noteFailure fun e he => he
  | restartServer =>
    obtain ⟨hup, hw'⟩ := ite_none_left_eq_some.1 hw'
    exact h.restartServer (by simpa using hup) hw'

end

/-- In every run in which no commit arrives while the COMMIT event of its tid is submitted but not durable, and no
client is recovered while one of its prepares waits for the journal, every acknowledgement sent is one of a durable
commit, and no transaction that its client has journaled is rolled back. -/
theorem ack_durable (S : Setup T M R) (es : List (Event M)) (w : Service T M R)
    (hset : AllSteps (step S) Service.Settled S.init es) (h : exec (step S) S.init es = some w) :
    (∀ t ∈ w.acked, Committed w.safeEvents t) ∧
      ∀ c t, .update t ∈ (w.peer c).journal.durable → ¬ RolledBack w.events t := by
  have hinv : Inv S w := exec_invariant (I := Inv S) (fun s e t hs hq ht => hs.step hq ht) (inv_init S) hset h
  refine ⟨hinv.acked, fun c t ht hr => ?_⟩
  have ht' := mem_all_of_durable ht
  obtain ⟨r, hp⟩ := (hinv.peers c).logged t ht'
  exact ((hinv.peers c).doomed t r (prepared_of_safe hp) (.inr hr)).1 ht'

/-- A table without content. -/
def plainTable : Setup Unit Unit Unit where
  ops := ⟨fun _ _ _ => some ((), ()), fun _ _ => some (), fun _ _ => some (), fun _ _ => some ()⟩
  table := ()

/-- Client 0 starts, prepares a transaction, journals it and sends its commit, which the server takes. -/
def commitTaken : List (Event Unit) :=
  [.restartClient 0, .recoverClient 0, .deliverClient 0, .prepare 0 (), .deliverServer 0, .flushServer,
    .completeServer, .deliverClient 0, .logUpdate 0 1, .flushClient 0, .completeClient 0, .deliverServer 0]

/-- Client 0 crashes and recovers, and sends its commit again. -/
def commitAgain : List (Event Unit) :=
  [.crashClient 0 0 0, .restartClient 0, .recoverClient 0, .deliverClient 0, .deliverServer 0]

/-- The acknowledgement is journaled, and the server crashes and asks client 0 about the transaction. -/
def serverLoses : List (Event Unit) :=
  [.deliverClient 0, .flushClient 0, .crashServer 0 fun _ => 0, .restartServer, .deliverClient 0, .deliverServer 0]

theorem ack_durable_after_restarts : ∃ w, exec (step plainTable) plainTable.init
        (commitTaken ++ [.flushServer] ++ commitAgain ++ serverLoses.take 4) = some w ∧ w.acked = [1] ∧
      (∀ t ∈ w.acked, Committed w.safeEvents t) ∧
        ∀ c t, .update t ∈ (w.peer c).journal.durable → ¬ RolledBack w.events t := by
  have hset : AllSteps (step plainTable) Service.Settled plainTable.init
      (commitTaken ++ [.flushServer] ++ commitAgain ++ serverLoses.take 4) := by decide
  have hrun : ((exec (step plainTable) plainTable.init
      (commitTaken ++ [.flushServer] ++ commitAgain ++ serverLoses.take 4)).map (·.acked)) = some [1] := by decide
  obtain ⟨w, hw, hacked⟩ := map_eq_some_iff.1 hrun
  exact ⟨w, hw, hacked, ack_durable plainTable _ w hset hw⟩

/-- Acknowledged with only the prepare durable; after the crash of the server the transaction that client 0 has
journaled is rolled back. -/
theorem ack_before_durable : (exec (step plainTable) plainTable.init (commitTaken ++ commitAgain)).map
        (fun w => (w.acked, w.safeEvents)) = some ([1], [.prepare 1 0 () 1]) ∧
      (exec (step plainTable) plainTable.init (commitTaken ++ commitAgain ++ serverLoses)).map
        (fun w => ((w.peer 0).journal.durable, w.events)) =
          some ([.update 1, .ack 1], [.prepare 1 0 () 1, .rollback 1 2]) := by
  decide

/-- Client 0 is recovered twice while its first prepare waits for the journal, and numbers its next prepare as the
first one, which it has rolled back in between. -/
def numberReused : List (Event Unit) :=
  [.restartClient 0, .recoverClient 0, .deliverClient 0, .prepare 0 (), .deliverServer 0, .crashClient 0 0 0,
    .restartClient 0, .recoverClient 0, .deliverClient 0, .deliverServer 0, .crashClient 0 0 0, .restartClient 0,
    .recoverClient 0, .deliverClient 0, .prepare 0 (), .flushServer, .completeServer, .deliverClient 0,
    .logUpdate 0 1, .flushClient 0, .completeClient 0, .deliverServer 0, .deliverServer 0]

-- The other part of the condition: an acknowledgement of a transaction that was rolled back.
example : (exec (step plainTable) plainTable.init numberReused).map (fun w => (w.acked, w.events)) =
      some ([1], [.prepare 1 0 () 1, .rollback 1 2, .prepare 1 0 () 3]) := by
  decide

end Lunule.Table
