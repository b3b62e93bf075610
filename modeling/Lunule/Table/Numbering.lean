import Lunule.Table.Agreement

/-!
# Request ids

A client numbers its prepares in ascending order, and a server that recovers a client tells it where to count on: above
the prepares of it that are pending. If the last prepare of the client is among them, then the new numbers are above
every number that the server has seen from that client, and its numbers ascend in the journal for ever.
-/

namespace Lunule.Table
open Exec List Option MDSTableServer Service ETableServer
variable {T M R : Type}

def ETableServer.prepareFor (c : Rank) : ETableServer M → Option (Nat × Nat)
  | .prepare r d _ t => if d = c then some (r, t) else none
  | .commit _ _ => none
  | .rollback _ _ => none
  | .serverUpdate _ _ => none

def preparesOf (c : Rank) (J : List (ETableServer M)) : List (Nat × Nat) := J.filterMap (prepareFor c)

def reqidsOf (c : Rank) (J : List (ETableServer M)) : List Nat := (preparesOf c J).map Prod.fst

/-- A client is recovered only while the last prepare of it that the server took is pending. -/
def Service.LastPending (w : Service T M R) : Event M → Prop
  | .recoverClient c => ∀ x ∈ (preparesOf c w.events).getLast?, w.server.isPending x.2 = true
  | _ => True

instance (w : Service T M R) (ev : Event M) : Decidable (w.LastPending ev) :=
  decidable_of_bool (match ev with
    | .recoverClient c => ∀ x ∈ (preparesOf c w.events).getLast?, w.server.isPending x.2
    | _ => true) (by cases ev <;> simp [Service.LastPending])

/-- The numbers of `c` ascend, from the journal `J` of the server to the requests in the channel. -/
structure Numbered (J : List (ETableServer M)) (c : Rank) (p : Peer M R) : Prop where
  ascending : (reqidsOf c J ++ reqidsIn p.toServer).Pairwise (· < ·)
  last : p.up = true → ∀ n, p.client.lastReqid = some n → ∀ r ∈ reqidsOf c J ++ reqidsIn p.toServer, r ≤ n
  announced : p.up = true → ∀ q, .serverReady q ∈ p.toClient → ∀ r ∈ reqidsOf c J, r ≤ q

section
variable {J : List (ETableServer M)} {c : Rank}

private theorem mem_preparesOf {x : Nat × Nat} : x ∈ preparesOf c J ↔ Prepared J ⟨x.2, c, x.1⟩ := by
  unfold preparesOf
  rw [mem_filterMap]
  constructor
  · rintro ⟨e, he, hx⟩
    cases e with
    | prepare r d m t =>
      obtain ⟨hd, hx⟩ := ite_none_right_eq_some.1 hx
      cases hx
      exact ⟨m, hd ▸ he⟩
    | commit t v => cases hx
    | rollback t v => cases hx
    | serverUpdate m v => cases hx
  · rintro ⟨m, hm⟩
    exact ⟨_, hm, by simp [prepareFor]⟩

private theorem reqidsOf_snoc (e : ETableServer M) :
    reqidsOf c (J ++ [e]) = reqidsOf c J ++ ((e.prepareFor c).map Prod.fst).toList := by
  unfold reqidsOf preparesOf
  rw [filterMap_append, map_append]
  cases he : e.prepareFor c <;> simp [he]

private theorem MDSTableServer.lt_nextReqid (s : MDSTableServer T) {q : Pending} (hq : q ∈ s.pendingForMds) :
    q.reqid < s.nextReqid q.mds := by
  have key : ∀ (l : List Pending) (n : Nat),
      n ≤ l.foldl (fun n p => if n ≤ p.reqid then p.reqid + 1 else n) n ∧
        ∀ x ∈ l, x.reqid < l.foldl (fun n p => if n ≤ p.reqid then p.reqid + 1 else n) n := by
    intro l
    induction l with
    | nil => exact fun n => ⟨Nat.le_refl n, nofun⟩
    | cons y l ih =>
      intro n
      obtain ⟨hle, hlt⟩ := ih (if n ≤ y.reqid then y.reqid + 1 else n)
      rw [foldl_cons]
      have hstep : n ≤ (if n ≤ y.reqid then y.reqid + 1 else n) ∧
          y.reqid < (if n ≤ y.reqid then y.reqid + 1 else n) := by
        split <;> omega
      refine ⟨Nat.le_trans hstep.1 hle, fun x hx => ?_⟩
      rcases mem_cons.1 hx with rfl | hx
      · exact Nat.lt_of_lt_of_le hstep.2 hle
      · exact hlt x hx
  exact (key _ 0).2 q (mem_filter.2 ⟨hq, by simp⟩)

private theorem le_getLast {l : List Nat} (h : l.Pairwise (· < ·)) {n : Nat} (hn : l.getLast? = some n) :
    ∀ r ∈ l, r ≤ n := by
  obtain ⟨k, rfl⟩ := List.getLast?_eq_some_iff.1 hn
  intro r hr
  rcases mem_append.1 hr with hr | hr
  · exact Nat.le_of_lt ((pairwise_append.1 h).2.2 r hr n (by simp))
  · exact Nat.le_of_eq (mem_singleton.1 hr)

end

namespace Numbered
variable {J J' : List (ETableServer M)} {c : Rank} {p p' : Peer M R}

variable (h : Numbered J c p)
include h

private theorem frame (hJ : reqidsOf c J' = reqidsOf c J) (hsub : (reqidsIn p'.toServer).Sublist (reqidsIn p.toServer))
    (hup : p'.up = true → p.up = true ∧ (∀ n, p'.client.lastReqid = some n → p.client.lastReqid = some n) ∧
      ∀ q, .serverReady q ∈ p'.toClient → .serverReady q ∈ p.toClient) : Numbered J' c p' where
  ascending := by
    rw [hJ]
    exact h.ascending.sublist (hsub.append_left _)
  last := by
    intro hp n hn r hr
    obtain ⟨hp, hlast, -⟩ := hup hp
    rw [hJ] at hr
    exact h.last hp n (hlast n hn) r ((hsub.append_left _).subset hr)
  announced := by
    intro hp q hq r hr
    obtain ⟨hp, -, hready⟩ := hup hp
    rw [hJ] at hr
    exact h.announced hp q (hready q hq) r hr

variable {o : MDSTableClient.Outcome M} {rest : List (Reply R)} {pend : List Pending} {wait : List (Nat × Nat)}

private theorem applyNothing (ho : AsksNothing p.client o) (j : Journal ClientEvent)
    (hrest : ∀ q, .serverReady q ∈ rest → .serverReady q ∈ p.toClient) :
    Numbered J c ({ p with toClient := rest, journal := j }.apply true o) := by
  refine h.frame rfl ?_ fun hp => ⟨hp, fun n hn => ho.lastReqid ▸ hn, hrest⟩
  simp [Peer.apply, ho.numbered]

private theorem clientPrepare (hup : p.up = true) (m : M) : Numbered J c (p.apply true (p.client.prepare m)) := by
  unfold MDSTableClient.prepare
  cases hlast : p.client.lastReqid with
  | none =>
    refine h.frame rfl (by simp [Peer.apply]) fun hp => ⟨hp, fun n hn => ?_, fun q hq => hq⟩
    cases hn
  | some last =>
    have hbelow := h.last hup last hlast
    by_cases hr : p.client.serverReady = true
    · have happ : ∀ l : List Nat, l ++ reqidsIn (p.toServer ++ [Request.prepare (last + 1) m]) =
          l ++ reqidsIn p.toServer ++ [last + 1] := by simp
      simp only [Peer.apply, hr, if_true]
      constructor
      · rw [happ, pairwise_append]
        refine ⟨h.ascending, by simp, fun a ha b hb => ?_⟩
        have := hbelow a ha
        have hb' := mem_singleton.1 hb
        omega
      · intro _ n hn r hr'
        cases hn
        rw [happ, mem_append, mem_singleton] at hr'
        rcases hr' with hr' | rfl
        · have := hbelow r hr'
          omega
        · exact Nat.le_refl _
      · exact h.announced
    · simp only [Peer.apply, hr, Bool.false_eq_true, if_false, if_true, append_nil]
      refine ⟨h.ascending, fun _ n hn r hr' => ?_, h.announced⟩
      cases hn
      have := hbelow r hr'
      omega

private theorem clientReply
    (hs : InStep J pend wait c p) (hup : p.up = true) {m : Reply R}
    (hm : p.toClient = m :: rest) (ho : p.client.handleRequest m = some o) :
    Numbered J c ({ p with toClient := rest }.apply true o) := by
  have hrest : ∀ q, .serverReady q ∈ rest → .serverReady q ∈ p.toClient := fun q hq =>
    hm ▸ mem_cons_of_mem _ hq
  cases m with
  | agree r t b => exact h.applyNothing (.handleAgree ho) p.journal hrest
  | ack t =>
    cases ho
    exact h.applyNothing .handleAck p.journal hrest
  | serverReady q =>
    have hunready := hs.unready_of_note hup (hm ▸ mem_cons_self)
    have hu := hs.unready hup hunready
    simp only [MDSTableClient.handleRequest, MDSTableClient.handleServerReady, hunready, hu.lastReqid,
      hu.pendingPrepare, Bool.false_eq_true, if_false, getD_none, nil_append, Option.some.injEq] at ho
    subst ho
    have hbelow := h.announced hup q (hm ▸ mem_cons_self)
    have hnumbers : ∀ l : List Nat, l ++ reqidsIn (p.toServer ++
        ((MDSTableClient.numberWaiting q p.client.waitingForReqid).map (fun x => Request.prepare x.1 x.2) ++
          p.client.pendingCommit.map Request.commit)) =
        l ++ (MDSTableClient.numberWaiting q p.client.waitingForReqid).map Prod.fst := by
      simp [reqidsIn_of_rollbacks hu.requests]
    simp only [Peer.apply, if_true]
    constructor
    · rw [hnumbers, pairwise_append]
      refine ⟨(pairwise_append.1 h.ascending).1, InStep.numberWaiting_ascending q _, fun a ha b hb => ?_⟩
      have := hbelow a ha
      have := (InStep.mem_numberWaiting hb).1
      omega
    · intro _ n hn r hr
      cases hn
      rw [hnumbers, mem_append] at hr
      rcases hr with hr | hr
      · have := hbelow r hr
        omega
      · exact (InStep.mem_numberWaiting hr).2
    · exact fun hp q' hq' => h.announced hp q' (hrest q' hq')

private theorem takePrepare
    (hs : InStep J pend wait c p) {r t : Nat} {m : M} {rest : List (Request M)}
    (hreq : p.toServer = .prepare r m :: rest) :
    Numbered (J ++ [.prepare r c m t]) c { p with toServer := rest } := by
  have hsame : reqidsOf c (J ++ [.prepare r c m t]) ++ reqidsIn rest = reqidsOf c J ++ reqidsIn p.toServer := by
    rw [reqidsOf_snoc, hreq]
    simp [prepareFor]
  constructor
  · rw [hsame]
    exact h.ascending
  · intro hup n hn
    rw [hsame]
    exact h.last hup n hn
  · intro hup q hq
    -- a client to which the note is under way has sent rollbacks only
    obtain ⟨u, hu⟩ := (hs.unready hup (hs.unready_of_note hup hq)).requests _ (hreq ▸ mem_cons_self)
    cases hu

end Numbered

/-! ### Runs -/

section
variable {S : Setup T M R} {asked update : M → Prop} {holds : T → Nat → Prop} {w w' : Service T M R}

def AllNumbered (w : Service T M R) : Prop := ∀ c, Numbered w.events c (w.peer c)

namespace AllNumbered
variable {c : Rank}

section
variable (h : AllNumbered w)
include h

private theorem setPeer {p : Peer M R} (hp : Numbered w.events c p) : AllNumbered (w.setPeer c p) :=
  (Function.forall_update_iff w.peer fun d q => Numbered w.events d q).2 ⟨hp, fun d _ => h d⟩

private theorem submit {s : MDSTableServer T} {e : LogEntry M R} {p : Peer M R}
    (hp : Numbered (w.events ++ [e.event]) c p) (hother : ∀ d, d ≠ c → e.event.prepareFor d = none) :
    AllNumbered { w.setPeer c p with server := s, journal := w.journal.submit e } := by
  show ∀ d, Numbered ((w.journal.submit e).all.map (·.event)) d (Function.update w.peer c p d)
  rw [w.events_submit]
  refine (Function.forall_update_iff w.peer fun d q => Numbered (w.events ++ [e.event]) d q).2 ⟨hp, fun d hd => ?_⟩
  refine (h d).frame ?_ (List.Sublist.refl _) fun hup => ⟨hup, fun n hn => hn, fun q hq => hq⟩
  rw [reqidsOf_snoc, hother d hd]
  simp

private theorem recover (hag : Agreement S asked holds w) (hup : (w.peer c).up = true)
    (hrec : (w.peer c).recovering = true)
    (hlast : ∀ x ∈ (preparesOf c w.events).getLast?, w.server.isPending x.2 = true) : AllNumbered (w.recover c) := by
  have hunready := (hag.peers c).unready_of_recovering hup hrec
  have hquiet := (((hag.peers c).unready hup hunready).recovering hrec).2
  refine h.setPeer ⟨(h c).ascending, (h c).last, ?_⟩
  intro _ q hq r hr
  have hq' : q = w.server.nextReqid c := by
    rcases mem_append.1 hq with hq | hq
    · exact absurd hq (hquiet.not_serverReady q)
    · simpa [handleMdsRecovery] using hq
  have hasc := (pairwise_append.1 (h c).ascending).1
  cases hx : (preparesOf c w.events).getLast? with
  | none =>
    have hnil : reqidsOf c w.events = [] := by rw [reqidsOf, List.getLast?_eq_none_iff.1 hx]; rfl
    rw [hnil] at hr
    cases hr
  | some x =>
    have hxlast : (reqidsOf c w.events).getLast? = some x.1 := by rw [reqidsOf, List.getLast?_map, hx]; rfl
    have hle := le_getLast hasc hxlast r hr
    obtain ⟨y, hy, hyx⟩ := isPending_iff.1 (hlast x hx)
    have hprep := mem_preparesOf.1 (List.mem_of_getLast? hx)
    have heq : y = ⟨x.2, c, x.1⟩ := hag.facts.unique _ _ ((hag.facts.pending y).1 hy).1 hprep hyx
    have hlt := w.server.lt_nextReqid hy
    rw [heq] at hlt
    have hlt' : x.1 < w.server.nextReqid c := hlt
    omega

private theorem deliverServer (hag : Agreement S asked holds w) (hw' : w.deliverServer S c = some w') :
    AllNumbered w' := by
  obtain ⟨m, rest, o, hreq, ho, rfl⟩ := deliverServer_eq_some.1 hw'
  have hrest : (reqidsIn rest).Sublist (reqidsIn (w.peer c).toServer) := by
    rw [hreq]
    exact (sublist_cons_self m rest).filterMap _
  have hend : ∀ e : ETableServer M, e.prepareFor c = none →
      Numbered (w.events ++ [e]) c { w.peer c with toServer := rest } := by
    intro e he
    refine (h c).frame ?_ hrest fun hup => ⟨hup, fun n hn => hn, fun q hq => hq⟩
    rw [reqidsOf_snoc, he]
    simp
  cases m with
  | prepare r mu =>
    obtain ⟨⟨s, bl⟩, -, rfl⟩ := map_eq_some_iff.1 ho
    refine h.submit ((h c).takePrepare (hag.peers c) hreq) fun d hd => ?_
    simp [prepareFor, Ne.symm hd]
  | commit t =>
    simp only [handleRequest, handleCommit] at ho
    split at ho
    · obtain ⟨s, -, rfl⟩ := map_eq_some_iff.1 ho
      exact h.submit (hend _ rfl) fun d _ => rfl
    obtain ⟨-, ho⟩ := ite_none_right_eq_some.1 ho
    cases ho
    have hp : Numbered w.events c ({ w.peer c with toServer := rest }.receive (.ack t)) := by
      refine (h c).frame rfl hrest fun hup => ⟨hup, fun n hn => hn, fun q hq => ?_⟩
      rcases mem_append.1 hq with hq | hq
      · exact hq
      · split at hq <;> simp at hq
    have hpeer : ((w.setPeer c { w.peer c with toServer := rest }).sendReply (c, .ack t)).peer =
        (w.setPeer c ({ w.peer c with toServer := rest }.receive (.ack t))).peer := by
      simp [Service.sendReply, Service.setPeer]
    intro d
    show Numbered w.events d (((w.setPeer c { w.peer c with toServer := rest }).sendReply (c, .ack t)).peer d)
    rw [hpeer]
    exact h.setPeer hp d
  | rollback t =>
    obtain ⟨-, ho⟩ := ite_none_right_eq_some.1 ho
    obtain ⟨s, -, rfl⟩ := map_eq_some_iff.1 ho
    exact h.submit (hend _ rfl) fun d _ => rfl

end

private theorem advance {j : Journal (LogEntry M R)} (ha : j.all = w.journal.all) {p : Rank → Peer M R}
    (acked : List Nat)
    (hp : ∀ c, Numbered w.events c (p c)) : AllNumbered { w with journal := j, peer := p, acked := acked } := by
  have hevents : j.all.map (·.event) = w.events := by rw [ha]; rfl
  show ∀ c, Numbered (j.all.map (·.event)) c (p c)
  rw [hevents]
  exact hp

private theorem complete (h : AllNumbered w) (hag : Agreement S asked holds w) (hw' : w.completeServer = some w') :
    AllNumbered w' := by
  obtain ⟨e, j, hj, rfl⟩ := completeServer_eq_some.1 hw'
  obtain ⟨-, -, ha, hw⟩ := Journal.complete_spec hj
  cases hs : e.onSafe with
  | none => exact advance ha w.acked h
  | some cm =>
    obtain ⟨c, m⟩ := cm
    refine advance ha _ (h.setPeer (c := c) (p := (w.peer c).receive m) ?_)
    refine ((h c).frame rfl (List.Sublist.refl _) fun hup => ⟨hup, fun n hn => hn, fun q hq => ?_⟩)
    -- a completion sends an agree or an acknowledgement
    rcases mem_append.1 hq with hq | hq
    · exact hq
    · rcases hag.completions e (hw ▸ mem_cons_self) c m hs with ⟨r, t, b, mu, rfl, -⟩ | ⟨t, rfl⟩ <;>
        split at hq <;> simp at hq

theorem init (S : Setup T M R) : AllNumbered S.init := fun _ => ⟨List.Pairwise.nil, nofun, nofun⟩

end AllNumbered

/-- One step keeps the agreement, and with it the numbers, if a client is recovered in time. -/
theorem Agreement.step (h : Agreement S asked holds w) (hops : S.ops.Sound asked update holds) {ev : Event M}
    (hserved : ev.Served asked update) (hdrained : w.Drained ev) (hw' : w.step S ev = some w') :
    Agreement S asked holds w' ∧ (AllNumbered w → w.LastPending ev → AllNumbered w') := by
  cases ev with
  | prepare c m =>
    simp only [Service.step, h.up] at hw'
    obtain ⟨hup, hw'⟩ := ite_none_right_eq_some.1 hw'
    cases hw'
    exact ⟨h.setPeer ((h.peers c).clientPrepare hup m) ((h.asked c).clientPrepare hserved),
      fun hn _ => hn.setPeer ((hn c).clientPrepare hup m)⟩
  | logUpdate c t =>
    obtain ⟨hg, hw'⟩ := ite_none_right_eq_some.1 hw'
    cases hw'
    exact ⟨h.setPeer ((h.peers c).logUpdate hg.2) { h.asked c with }, fun hn _ => hn.setPeer { hn c with }⟩
  | flushClient c =>
    obtain ⟨-, hw'⟩ := ite_none_right_eq_some.1 hw'
    obtain ⟨j, hj, rfl⟩ := map_eq_some_iff.1 hw'
    obtain ⟨e, -, ha, -⟩ := Journal.flush_spec hj
    exact ⟨h.setPeer ((h.peers c).moveJournal ha) { h.asked c with },
      fun hn _ => hn.setPeer { hn c with }⟩
  | completeClient c =>
    obtain ⟨hup, hw'⟩ := ite_none_right_eq_some.1 hw'
    refine ⟨h.completeClient hup hw', fun hn _ => ?_⟩
    obtain ⟨e, j, -, ⟨t, -, rfl⟩ | ⟨t, o, -, ho, rfl⟩⟩ := completeClient_cases hw'
    · exact hn.setPeer { hn c with }
    · rw [h.up]
      exact hn.setPeer ((hn c).applyNothing (.commit ho) j fun q hq => hq)
  | deliverClient c =>
    obtain ⟨hup, hw'⟩ := ite_none_right_eq_some.1 hw'
    refine ⟨h.deliverClient hup hw', fun hn _ => ?_⟩
    obtain ⟨m, rest, o, hm, ho, rfl⟩ := deliverClient_eq_some.1 hw'
    rw [h.up]
    exact hn.setPeer ((hn c).clientReply (h.peers c) hup hm ho)
  | crashClient c k r =>
    obtain ⟨-, hw'⟩ := ite_none_right_eq_some.1 hw'
    cases hw'
    refine ⟨h.setPeer ((h.peers c).crash k r) ⟨fun s m hm => ?_, nofun, nofun⟩,
      fun hn _ => hn.setPeer ((hn c).frame rfl ((take_sublist _ _).filterMap _) nofun)⟩
    exact (h.asked c).requests s m (mem_of_mem_take hm)
  | restartClient c =>
    obtain ⟨-, hw'⟩ := ite_none_left_eq_some.1 hw'
    cases hw'
    refine ⟨h.restartClient hdrained, fun hn _ => hn.setPeer ⟨?_, fun _ n hlast => ?_, nofun⟩⟩
    · exact (hn c).ascending.sublist ((nil_sublist _).append_left _)
    · have hclient : (w.peer c).restart.client = { pendingCommit := (w.peer c).restart.client.pendingCommit } :=
        replay_client_eq _ _
      rw [hclient] at hlast
      cases hlast
  | recoverClient c =>
    obtain ⟨hg, hw'⟩ := ite_none_right_eq_some.1 hw'
    cases hw'
    exact ⟨h.recoverClient hg.2.1 hg.2.2, fun hn hlast => hn.recover h hg.2.1 hg.2.2 hlast⟩
  | deliverServer c =>
    obtain ⟨-, hw'⟩ := ite_none_right_eq_some.1 hw'
    exact ⟨h.deliverServer hops hw', fun hn _ => hn.deliverServer h hw'⟩
  | serverUpdate m =>
    obtain ⟨-, hw'⟩ := ite_none_right_eq_some.1 hw'
    obtain ⟨o, ho, hnext⟩ := h.doServerUpdate hops hserved
    rw [ho] at hw'
    cases hw'
    refine ⟨hnext, fun hn _ => ?_⟩
    obtain ⟨s, -, rfl⟩ := map_eq_some_iff.1 ho
    have hsame : w.setPeer 0 (w.peer 0) = w := by simp [Service.setPeer]
    rw [← hsame]
    refine hn.submit ((hn 0).frame ?_ (List.Sublist.refl _) fun hup => ⟨hup, fun n hn => hn, fun q hq => hq⟩)
      fun d _ => rfl
    rw [reqidsOf_snoc]
    simp [prepareFor]
  | flushServer =>
    obtain ⟨-, hw'⟩ := ite_none_right_eq_some.1 hw'
    obtain ⟨j, hj, rfl⟩ := map_eq_some_iff.1 hw'
    obtain ⟨e, -, ha, -⟩ := Journal.flush_spec hj
    exact ⟨h.flush hj, fun hn _ => AllNumbered.advance ha w.acked hn⟩
  | completeServer =>
    obtain ⟨-, hw'⟩ := ite_none_right_eq_some.1 hw'
    exact ⟨h.complete hw', fun hn _ => hn.complete h hw'⟩
  | crashServer k r => exact hserved.elim
  | noteFailure c => exact hserved.elim
  | restartServer => exact hserved.elim

end
end Lunule.Table
