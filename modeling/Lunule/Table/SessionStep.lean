import Lunule.Table.Session

/-!
# The session invariant under every change of a session

One lemma for each thing that can happen to a session: the journal of the server moves on, the server takes a request
or sends a reply, the client acts, either end crashes or starts again.
-/

namespace Lunule.Table
open Exec List Peer Journal
open Reply (agree)
open Option (ite_none_left_eq_some ite_none_right_eq_some ne_none_iff_exists')
open MDSTableClient
variable {T M R : Type} {up : Bool} {D J : List (ETableServer M)} {wait : List Nat} {c : Rank} {p : Peer M R}

theorem Peer.receive_of_up (h : p.up = true) (m : Reply R) :
    p.receive m = { p with toClient := p.toClient ++ [m] } := by
  simp [receive, h]

theorem Peer.receive_of_down (h : p.up = false) (m : Reply R) : p.receive m = p := by
  cases p
  simp_all [receive]

namespace PeerInv
variable (h : PeerInv up D J wait c p) {wait' : List Nat}
include h

/-! ### The journal of the server -/

theorem frame {up' : Bool} {D' J' : List (ETableServer M)}
    (hup : up' = false → p.toServer = []) (hD : ∀ e ∈ D, e ∈ D')
    (hlive : ∀ t ∈ p.live wait, ∃ r, Prepared J ⟨t, c, r⟩)
    (hprep : ∀ t r, Prepared J' ⟨t, c, r⟩ → Prepared J ⟨t, c, r⟩ ∨ (∀ r, ¬ Prepared D ⟨t, c, r⟩) ∧ ¬ RolledBack J' t)
    (hroll : ∀ t, RolledBack J' t → RolledBack J t ∨ .rollback t ∈ p.toServer ∨ ∀ r, ¬ Prepared J ⟨t, c, r⟩)
    (hwait : wait'.Sublist wait) : PeerInv up' D' J' wait' c p := by
  have hPrep : ∀ q, Prepared D q → Prepared D' q := fun q ⟨m, hm⟩ => ⟨m, hD _ hm⟩
  have hCom : ∀ t, Committed D t → Committed D' t := fun t ⟨v, hv⟩ => ⟨v, hD _ hv⟩
  have hsub : (p.live wait').Sublist (p.live wait) := hwait.append_left _
  exact { h with
    serverDown := hup
    agreed := fun r t b hm => hPrep _ (h.agreed r t b hm)
    acked := fun t hm => (h.acked t hm).imp_left (hCom t)
    prepared := fun t r hm => hPrep _ (h.prepared t r hm)
    logged := fun t hm => (h.logged t hm).imp fun r => hPrep _
    loggedAck := fun t hm => (h.loggedAck t hm).imp_left (hCom t)
    rollbacks := fun t hm => (h.rollbacks t hm).imp fun r => hPrep _
    liveNodup := hsub.nodup h.liveNodup
    stale := fun hl t ht hm => h.stale hl t ht (hsub.subset hm)
    liveSafe := by
      intro t ht
      have ht' := hsub.subset ht
      obtain ⟨hno, hnr⟩ := h.liveSafe t ht'
      refine ⟨hno, fun hr => ?_⟩
      rcases hroll t hr with hr | hr | hr
      · exact hnr hr
      · exact hno hr
      · exact (hlive t ht').elim hr
    waitFresh := fun t ht => h.waitFresh t (hwait.subset ht)
    doomed := by
      intro t r hp hd
      rcases hprep t r hp with hp | ⟨hno, hnr⟩
      · refine h.doomed t r hp ?_
        rcases hd with hd | hd
        · exact .inl hd
        · rcases hroll t hd with hd | hd | hd
          · exact .inr hd
          · exact .inl hd
          · exact absurd hp (hd r)
      · rcases hd with hd | hd
        · exact absurd (h.rollbacks t hd) (not_exists.2 hno)
        · exact absurd hd hnr }

variable {t : Nat}

theorem addWait (hnew : t ∉ agreesOf p.toClient ++ wait) (hno : .rollback t ∉ p.toServer)
    (hnr : ¬ RolledBack J t) (hlog : .update t ∉ p.journal.all) (hprep : p.client.isPrepared t = false) :
    PeerInv up D J (wait ++ [t]) c p := by
  have hl : p.live (wait ++ [t]) = p.live wait ++ [t] := by simp [live]
  have hlive : t ∉ p.live wait := fun hm => hnew (((matchable_sublist _ _).append_right _).subset hm)
  exact
  { h with
    liveNodup := by
      rw [hl, nodup_append]
      refine ⟨h.liveNodup, by simp, ?_⟩
      intro a ha b hb hab
      rw [mem_singleton.1 hb] at hab
      exact hlive (hab ▸ ha)
    stale := by
      intro hlast u hu hm
      rw [hl, mem_append, mem_singleton] at hm
      rcases hm with hm | rfl
      · exact h.stale hlast u hu hm
      · exact hnew (mem_append_left _ ((agreesBeforeReady_sublist _).subset hu))
    liveSafe := by
      intro u hu
      rw [hl, mem_append, mem_singleton] at hu
      rcases hu with hu | rfl
      · exact h.liveSafe u hu
      · exact ⟨hno, hnr⟩
    waitFresh := by
      intro u hu
      rw [mem_append, mem_singleton] at hu
      rcases hu with hu | rfl
      · exact h.waitFresh u hu
      · exact ⟨hlog, hprep⟩ }

/-! ### Messages of the server -/

theorem takeRequests {rest : List (Request M)} (hs : rest.Sublist p.toServer) :
    PeerInv up D J wait c { p with toServer := rest } :=
  { h with
    serverDown := fun hu => sublist_nil.1 (h.serverDown hu ▸ hs)
    commits := fun t hm => h.commits t (hs.subset hm)
    rollbacks := fun t hm => h.rollbacks t (hs.subset hm)
    liveSafe := fun t ht => ⟨fun hm => (h.liveSafe t ht).1 (hs.subset hm), (h.liveSafe t ht).2⟩
    doomed := fun t r hp hd => h.doomed t r hp (hd.imp_left fun hm => hs.subset hm) }

omit h in
private theorem order_append {l l' : List (Reply R)} {P : Nat → Prop}
    (h : ∀ l1 r t b l2, l = l1 ++ .agree r t b :: l2 → .ack t ∉ l1 ∧ P t)
    (hl' : ∀ r t b, .agree r t b ∈ l' → .ack t ∉ l ∧ .ack t ∉ l' ∧ P t) :
    ∀ l1 r t b l2, l ++ l' = l1 ++ .agree r t b :: l2 → .ack t ∉ l1 ∧ P t := by
  intro l1 r t b l2 heq
  rcases append_eq_append_iff.1 heq with ⟨k, hk, hk'⟩ | ⟨k, hk, hk'⟩
  · -- the agree is among the new replies
    obtain ⟨hn1, hn2, hp⟩ := hl' r t b (by rw [hk']; simp)
    refine ⟨fun hm => ?_, hp⟩
    rw [hk] at hm
    rcases mem_append.1 hm with hm | hm
    · exact hn1 hm
    · exact hn2 (by rw [hk']; exact mem_append_left _ hm)
  · cases k with
    | nil =>
      obtain ⟨hn1, hn2, hp⟩ := hl' r t b (by rw [nil_append] at hk'; rw [← hk']; exact mem_cons_self)
      rw [append_nil] at hk
      exact ⟨hk ▸ hn1, hp⟩
    | cons m k =>
      obtain ⟨rfl, hk''⟩ := List.cons.inj hk'
      exact h l1 r t b k hk

private theorem sendReplies (hup : p.up = true) {l : List (Reply R)} (hagree : ∀ r t b, .agree r t b ∈ l →
      Prepared D ⟨t, c, r⟩ ∧ .ack t ∉ p.toClient ∧ .ack t ∉ l ∧ .ack t ∉ p.journal.all)
    (hack : ∀ t, .ack t ∈ l → Committed D t ∧ .update t ∈ p.journal.durable)
    (hready : p.recovering = true → ∀ q, .serverReady q ∉ l) (hwait : ∀ t ∈ wait', t ∈ wait)
    (hnodup : (live { p with toClient := p.toClient ++ l } wait').Nodup)
    (hstale : p.client.lastReqid = none → ∀ t ∈ agreesBeforeReady (p.toClient ++ l),
      t ∉ live { p with toClient := p.toClient ++ l } wait')
    (hsafe : ∀ t ∈ live { p with toClient := p.toClient ++ l } wait', .rollback t ∉ p.toServer ∧ ¬ RolledBack J t) :
    PeerInv up D J wait' c { p with toClient := p.toClient ++ l } :=
  { h with
    down := fun hd => by simp [hup] at hd
    agreed := fun r t b hm => (mem_append.1 hm).elim (h.agreed r t b) fun hm => (hagree r t b hm).1
    acked := fun t hm => (mem_append.1 hm).elim (h.acked t) (hack t)
    recovering := fun hu hr => (h.recovering hu hr).imp_right fun hq q hm =>
      (mem_append.1 hm).elim (hq q) (hready hr q)
    order := order_append h.order fun r t b hm => (hagree r t b hm).2
    liveNodup := hnodup
    stale := hstale
    liveSafe := hsafe
    waitFresh := fun t ht => h.waitFresh t (hwait t ht) }

theorem sendAck (hc : Committed D t) (hu : .update t ∈ p.journal.durable) :
    PeerInv up D J wait c (p.receive (.ack t)) := by
  by_cases hp : p.up = true
  · rw [receive_of_up hp]
    have hlive : live { p with toClient := p.toClient ++ [Reply.ack t] } wait = p.live wait := by
      simp only [live, matchable_snoc_ack]
    have hbefore : agreesBeforeReady (p.toClient ++ [.ack t]) = agreesBeforeReady p.toClient := by
      rcases agreesBeforeReady_append p.toClient [.ack t] with ⟨hb, -⟩ | ⟨hb, -⟩
      · exact hb
      · simpa [agreesBeforeReady] using hb
    refine h.sendReplies hp (by simp) ?_ (by simp) (fun _ ht => ht) (hlive ▸ h.liveNodup) ?_ (hlive ▸ h.liveSafe)
    · intro u hm
      cases mem_singleton.1 hm
      exact ⟨hc, hu⟩
    · rw [hlive, hbefore]
      exact h.stale
  · rw [receive_of_down (by simpa using hp)]
    exact h

variable {b : Option R}

omit h in
theorem sendAgree {r t : Nat} (h : PeerInv up D J (t :: wait) c p) (hprep : Prepared D ⟨t, c, r⟩) :
    PeerInv up D J wait c (p.receive (.agree r t b)) := by
  have hfresh := h.waitFresh t mem_cons_self
  by_cases hp : p.up = true
  · rw [receive_of_up hp]
    -- the agree moves from the waiting ones to the channel, if the client can match it at all
    have key : (live { p with toClient := p.toClient ++ [agree r t b] } wait = p.live (t :: wait) ∧
          (p.client.lastReqid = none →
            agreesBeforeReady (p.toClient ++ [.agree r t b]) = agreesBeforeReady p.toClient)) ∨
        (live { p with toClient := p.toClient ++ [agree r t b] } wait = wait ∧ p.live (t :: wait) = t :: wait ∧
          agreesBeforeReady (p.toClient ++ [.agree r t b]) = agreesBeforeReady p.toClient ++ [t]) := by
      simp only [live]
      rcases matchable_snoc_agree p.client.lastReqid p.toClient r t b with ⟨hm, hb⟩ | ⟨hm, hl, hb⟩
      · exact .inl ⟨by simp [hm], hb⟩
      · exact .inr ⟨by simp [hm], by simp [hl], hb⟩
    have hlive : (live { p with toClient := p.toClient ++ [agree r t b] } wait).Sublist
        (p.live (t :: wait)) := by
      rcases key with ⟨hk, -⟩ | ⟨hk, hk', -⟩
      · rw [hk]
      · rw [hk, hk']
        exact sublist_cons_self t wait
    refine h.sendReplies hp ?_ (by simp) (by simp) (fun _ => mem_cons_of_mem _) (hlive.nodup h.liveNodup) ?_
      fun u hu => h.liveSafe u (hlive.subset hu)
    · intro r' u b' hm
      cases mem_singleton.1 hm
      exact ⟨hprep, fun hm => hfresh.1 (mem_all_of_durable (h.acked t hm).2), by simp,
        fun hm => hfresh.1 (mem_all_of_durable (h.loggedAck t hm).2)⟩
    intro hl u hu
    rcases key with ⟨hk, hb⟩ | ⟨hk, hk', hb⟩
    · rw [hk]
      exact h.stale hl u (hb hl ▸ hu)
    have hnodup := hk' ▸ h.liveNodup
    rw [hk]
    simp only [hb, mem_append, mem_singleton] at hu
    rcases hu with hu | rfl
    · intro hm
      refine h.stale hl u hu ?_
      rw [hk']
      exact mem_cons_of_mem _ hm
    · exact (nodup_cons.1 hnodup).1
  · rw [receive_of_down (by simpa using hp)]
    have hlive : (p.live wait).Sublist (p.live (t :: wait)) := (sublist_cons_self t wait).append_left _
    exact { h with
      liveNodup := hlive.nodup h.liveNodup
      stale := fun hl u hu hm => h.stale hl u hu (hlive.subset hm)
      liveSafe := fun u hu => h.liveSafe u (hlive.subset hu)
      waitFresh := (forall_mem_cons.1 h.waitFresh).2 }

/-! ### The client -/

private theorem sendRequests {l : List (Request M)} (hc : ∀ t, .commit t ∈ l → .update t ∈ p.journal.durable)
    (hr : ∀ t, .rollback t ∈ l → (∃ r, Prepared D ⟨t, c, r⟩) ∧ t ∉ p.live wait ∧ .update t ∉ p.journal.all ∧
      p.client.isPrepared t = false) :
    PeerInv up D J wait c { p with toServer := p.toServer ++ if up then l else [] } := by
  cases up with
  | false => simpa using h
  | true =>
    exact { h with
      serverDown := nofun
      commits := fun t hm => (mem_append.1 hm).elim (h.commits t) (hc t)
      rollbacks := fun t hm => (mem_append.1 hm).elim (h.rollbacks t) fun hm => (hr t hm).1
      liveSafe := by
        intro t ht
        refine ⟨fun hm => ?_, (h.liveSafe t ht).2⟩
        rcases mem_append.1 hm with hm | hm
        · exact (h.liveSafe t ht).1 hm
        · exact (hr t hm).2.1 ht
      doomed := by
        intro t r hp hd
        by_cases hm : .rollback t ∈ l
        · exact (hr t hm).2.2
        · exact h.doomed t r hp (hd.imp_left fun hd => (mem_append.1 hd).resolve_right hm) }

theorem clientPrepare (m : M) : PeerInv up D J wait c (p.apply up (p.client.prepare m)) := by
  cases hl : p.client.lastReqid with
  | none =>
    have h' : PeerInv up D J wait c { p with client := { p.client with
        waitingForReqid := p.client.waitingForReqid ++ [m] } } := { h with }
    simpa [apply, prepare, hl] using h'
  | some n =>
    have h' : PeerInv up D J wait c { p with client := { p.client with
        lastReqid := some (n + 1), pendingPrepare := p.client.pendingPrepare ++ [(n + 1, m)] } } :=
      { h with
        unnumbered := nofun
        recovering := fun hup hr => absurd (h.recovering hup hr).1 (by simp [hl])
        liveNodup := by simpa [live, matchable, hl] using h.liveNodup
        stale := nofun
        liveSafe := by simpa [live, matchable, hl] using h.liveSafe }
    simp only [prepare, hl]
    refine h'.sendRequests ?_ ?_ <;> intro t ht <;> split at ht <;> simp at ht

theorem logUpdate (hup : p.up = true) (ht : p.client.isPrepared t = true) :
    PeerInv up D J wait c { p with journal := p.journal.submit (.update t) } := by
  have hne : ∀ u, .update u ∉ p.journal.all ∧ p.client.isPrepared u = false →
      .update u ∉ (p.journal.submit (.update t)).all ∧ p.client.isPrepared u = false := by
    intro u hu
    refine ⟨?_, hu.2⟩
    have hut : u ≠ t := by
      rintro rfl
      rw [ht] at hu
      cases hu.2
    simpa [hut] using hu.1
  have hack : ∀ u, .ack u ∈ (p.journal.submit (.update t)).all ↔ .ack u ∈ p.journal.all := by simp
  exact { h with
    down := fun hd => by simp [hup] at hd
    logged := by
      intro u hu
      simp only [all_submit, mem_append, mem_singleton, ClientEvent.update.injEq] at hu
      rcases hu with hu | rfl
      · exact h.logged u hu
      · obtain ⟨r, hr⟩ := isPrepared_iff.1 ht
        exact ⟨r, h.prepared u r hr⟩
    loggedAck := fun u hu => h.loggedAck u ((hack u).1 hu)
    held := by
      intro hup u hu
      simp only [all_submit, mem_append, mem_singleton, ClientEvent.update.injEq] at hu
      rcases hu with hu | rfl
      · exact (h.held hup u hu).imp_left (hack u).2
      · exact .inr (.inl ht)
    order := fun l1 r u b l2 heq => (h.order l1 r u b l2 heq).imp_right fun hn hm => hn ((hack u).1 hm)
    waitFresh := fun u hu => hne u (h.waitFresh u hu)
    doomed := fun u r hp hd => hne u (h.doomed u r hp hd) }

theorem moveJournal (hup : p.up = true) {j : Journal ClientEvent}
    (hd : ∀ e ∈ p.journal.durable, e ∈ j.durable) (ha : j.all = p.journal.all) :
    PeerInv up D J wait c { p with journal := j } :=
  { h with
    down := fun hu => by simp [hup] at hu
    acked := fun t hm => (h.acked t hm).imp_right (hd _)
    logged := fun t hm => h.logged t (ha ▸ hm)
    committing := fun t hm => hd _ (h.committing t hm)
    commits := fun t hm => hd _ (h.commits t hm)
    loggedAck := fun t hm => (h.loggedAck t (ha ▸ hm)).imp_right (hd _)
    held := by
      simp only [ha]
      exact h.held
    order := by
      simp only [ha]
      exact h.order
    waitFresh := by
      simp only [ha]
      exact h.waitFresh
    doomed := by
      simp only [ha]
      exact h.doomed }

variable {o : Outcome M}

theorem clientCommit (ht : .update t ∈ p.journal.durable)
    (ho : p.client.commit t = some o) : PeerInv up D J wait c (p.apply up o) := by
  obtain ⟨-, ho⟩ := ite_none_right_eq_some.1 ho
  cases ho
  have hfilter : ∀ u, p.client.isPrepared u = false →
      isPrepared { p.client with
        preparedUpdate := p.client.preparedUpdate.filter (·.1 != t)
        pendingCommit := insertTid t p.client.pendingCommit } u = false := by
    intro u hu
    rw [isPrepared_eq_false] at hu ⊢
    exact fun r hm => hu r (mem_filter.1 hm).1
  have h' : PeerInv up D J wait c { p with client := { p.client with
      preparedUpdate := p.client.preparedUpdate.filter (·.1 != t)
      pendingCommit := insertTid t p.client.pendingCommit } } :=
    { h with
      prepared := fun u r hm => h.prepared u r (mem_filter.1 hm).1
      committing := by
        intro u hu
        rcases mem_insertTid.1 hu with rfl | hu
        · exact ht
        · exact h.committing u hu
      held := by
        intro hup u hu
        by_cases hut : u = t
        · exact .inr (.inr (mem_insertTid.2 (.inl hut)))
        rcases h.held hup u hu with ha | hp | hc
        · exact .inl ha
        · obtain ⟨r, hr⟩ := isPrepared_iff.1 hp
          refine .inr (.inl (isPrepared_iff.2 ⟨r, mem_filter.2 ⟨hr, ?_⟩⟩))
          simpa using hut
        · exact .inr (.inr (mem_insertTid.2 (.inr hc)))
      waitFresh := fun u hu => (h.waitFresh u hu).imp_right (hfilter u)
      doomed := fun u r hp hd => (h.doomed u r hp hd).imp_right (hfilter u) }
  refine h'.sendRequests (l := if p.client.serverReady then [.commit t] else []) ?_ ?_
  · intro u hu
    split at hu <;> simp at hu
    subst hu
    exact ht
  · intro u hu
    split at hu <;> simp at hu

variable {rest : List (Reply R)}

private theorem keepReplies {a l b : List (Reply R)} (hl : p.toClient = a ++ (l ++ b)) :
    PeerInv up D J wait c { p with toClient := l } := by
  have hin : ∀ m ∈ l, m ∈ p.toClient := fun m hm => by simp [hl, hm]
  have hlive : (live { p with toClient := l } wait).Sublist (p.live wait) := by
    simp only [live, hl]
    exact (matchable_append_left.trans matchable_append_right).append_right _
  exact { h with
    down := fun hd => (h.down hd).imp_left fun hn => by simp_all
    agreed := fun r t b hx => h.agreed r t b (hin _ hx)
    acked := fun t hx => h.acked t (hin _ hx)
    recovering := fun hup hr => (h.recovering hup hr).imp_right fun hq q hx => hq q (hin _ hx)
    order := by
      rintro l1 r t b' l2 rfl
      have := h.order (a ++ l1) r t b' (l2 ++ b) (by simp [hl])
      exact this.imp_left fun hn hx => hn (mem_append_right _ hx)
    liveNodup := hlive.nodup h.liveNodup
    stale := by
      intro hn t ht hx
      have hn' : p.client.lastReqid = none := hn
      rcases agreesBeforeReady_append a (l ++ b) with ⟨-, hw⟩ | ⟨hb, -⟩
      · -- all of them come after the server is ready, and once
        have hsub : (agreesBeforeReady l ++ (agreesWhenReady l ++ wait)).Sublist (p.live wait) := by
          simp only [live, hn', hl, matchable, hw]
          rw [← append_assoc, ← agreesOf_eq, agreesOf_append]
          exact ((sublist_append_left _ _).trans (sublist_append_right _ _)).append_right _
        refine (nodup_append.1 (hsub.nodup h.liveNodup)).2.2 t ht t ?_ rfl
        simpa [live, hn', matchable] using hx
      · refine h.stale hn t ?_ (hlive.subset hx)
        rw [hl, hb]
        exact mem_append_right _ (agreesBeforeReady_append_left.subset ht)
    liveSafe := fun t ht => h.liveSafe t (hlive.subset ht) }

private theorem takeReply {m : Reply R} (hm : p.toClient = m :: rest) :
    PeerInv up D J wait c { p with toClient := rest } :=
  h.keepReplies (a := [m]) (b := []) (by simpa using hm)

private theorem not_live_of_head {r t : Nat}
    (hm : p.toClient = .agree r t b :: rest) : t ∉ live { p with toClient := rest } wait := by
  cases hl : p.client.lastReqid with
  | none =>
    have := h.stale hl t (by rw [hm]; exact mem_cons_self)
    simpa [live, hm, hl, matchable, agreesWhenReady] using this
  | some n =>
    have := h.liveNodup
    simp only [live, hm, hl, matchable, agreesOf, cons_append, nodup_cons] at this ⊢
    exact this.1

private theorem takeUp {t r : Nat} (hprep : Prepared D ⟨t, c, r⟩) (hw : t ∉ wait)
    (hs : .rollback t ∉ p.toServer ∧ ¬ RolledBack J t) :
    PeerInv up D J wait c { p with client := { p.client with
      pendingPrepare := p.client.pendingPrepare.filter (·.1 != r)
      preparedUpdate := (t, r) :: p.client.preparedUpdate.filter (·.1 != t) } } := by
  have hne : ∀ u, u ≠ t → p.client.isPrepared u = false →
      isPrepared { p.client with
        pendingPrepare := p.client.pendingPrepare.filter (·.1 != r)
        preparedUpdate := (t, r) :: p.client.preparedUpdate.filter (·.1 != t) } u = false := by
    intro u hut hu
    rw [isPrepared_eq_false] at hu ⊢
    intro r' hm
    rcases mem_cons.1 hm with hm | hm
    · exact hut (Prod.mk.inj hm).1
    · exact hu r' (mem_filter.1 hm).1
  exact { h with
    prepared := by
      intro u r' hm
      rcases mem_cons.1 hm with hm | hm
      · cases hm
        exact hprep
      · exact h.prepared u r' (mem_filter.1 hm).1
    held := by
      intro hup u hu
      by_cases hut : u = t
      · exact .inr (.inl (isPrepared_iff.2 ⟨r, by rw [hut]; exact mem_cons_self⟩))
      rcases h.held hup u hu with ha | hp | hc
      · exact .inl ha
      · obtain ⟨r', hr⟩ := isPrepared_iff.1 hp
        refine .inr (.inl (isPrepared_iff.2 ⟨r', mem_cons_of_mem _ (mem_filter.2 ⟨hr, ?_⟩)⟩))
        simpa using hut
      · exact .inr (.inr hc)
    unnumbered := by
      intro hl
      rw [h.unnumbered hl]
      rfl
    waitFresh := fun u hu => (h.waitFresh u hu).imp_right (hne u fun hut => hw (hut ▸ hu))
    doomed := by
      intro u r' hp hd
      refine (h.doomed u r' hp hd).imp_right (hne u ?_)
      rintro rfl
      rcases hd with hd | hd
      · exact hs.1 hd
      · exact hs.2 hd }

private theorem clientAgree {r t : Nat} (hm : p.toClient = .agree r t b :: rest)
    (ho : p.client.handleAgree r t = some o) : PeerInv up D J wait c ({ p with toClient := rest }.apply up o) := by
  have h' := h.takeReply hm
  have hprep := h.agreed r t b (hm ▸ mem_cons_self)
  have hlive := h.not_live_of_head hm
  have hsame : PeerInv up D J wait c ({ p with toClient := rest }.apply up { client := p.client }) := by
    simpa [apply] using h'
  unfold handleAgree at ho
  split at ho
  · -- a client that has prepares has request ids, so that the agree is a live one
    rename_i hpend
    cases ho
    have hsome : p.client.lastReqid ≠ none := by
      intro hn
      simp [isPreparing, h.unnumbered hn] at hpend
    obtain ⟨n, hn⟩ := ne_none_iff_exists'.1 hsome
    have hin : t ∈ p.live wait := by simp [live, hm, hn, matchable, agreesOf]
    have hw : t ∉ wait := fun hw => hlive (mem_append_right _ hw)
    simpa [apply] using h'.takeUp hprep hw (h.liveSafe t hin)
  · rename_i hpend
    split at ho
    · obtain ⟨-, ho⟩ := ite_none_right_eq_some.1 ho
      cases ho
      exact hsame
    rename_i hnp
    split at ho
    · obtain ⟨-, ho⟩ := ite_none_right_eq_some.1 ho
      cases ho
      exact hsame
    rename_i hnc
    obtain ⟨-, ho⟩ := ite_none_right_eq_some.1 ho
    cases ho
    have hack := (h.order [] r t b rest hm).2
    have hlog : .update t ∉ p.journal.all := by
      intro hu
      have hup : p.up = true := by
        by_contra hd
        have hnil := (h.down (by simpa using hd)).1
        rw [hm] at hnil
        cases hnil
      rcases h.held hup t hu with ha | hp | hc
      · exact hack ha
      · exact hnp hp
      · exact hnc hc
    refine h'.sendRequests (fun u hu => by simp at hu) fun u hu => ?_
    cases mem_singleton.1 hu
    exact ⟨⟨r, hprep⟩, hlive, hlog, by simpa using hnp⟩

private theorem clientAck (hm : p.toClient = .ack t :: rest) :
    PeerInv up D J wait c ({ p with toClient := rest }.apply up (p.client.handleAck t)) := by
  have h' := h.takeReply hm
  have hacked := h.acked t (hm ▸ mem_cons_self)
  unfold handleAck
  split
  · rename_i hc
    have heq : ({ p with toClient := rest }.apply up
        { client := { p.client with pendingCommit := p.client.pendingCommit.filter (· != t) }, log := [.ack t] }) =
        { p with
          toClient := rest
          client := { p.client with pendingCommit := p.client.pendingCommit.filter (· != t) }
          journal := p.journal.submit (.ack t) } := by
      simp [apply]
    rw [heq]
    have hupd : ∀ u, .update u ∈ (p.journal.submit (.ack t)).all ↔ .update u ∈ p.journal.all := by simp
    exact { h' with
      down := fun hd => by
        have hnil := (h.down hd).1
        rw [hm] at hnil
        cases hnil
      logged := fun u hu => h'.logged u ((hupd u).1 hu)
      committing := fun u hu => h'.committing u (mem_filter.1 hu).1
      loggedAck := by
        intro u hu
        simp only [all_submit, mem_append, mem_singleton, ClientEvent.ack.injEq] at hu
        rcases hu with hu | rfl
        · exact h'.loggedAck u hu
        · exact hacked
      held := by
        intro hup u hu
        by_cases hut : u = t
        · subst hut
          exact .inl (by simp)
        · rcases h'.held hup u ((hupd u).1 hu) with ha | hp | hc
          · exact .inl (by simpa using .inl ha)
          · exact .inr (.inl hp)
          · exact .inr (.inr (mem_filter.2 ⟨hc, by simpa using hut⟩))
      order := by
        intro l1 r u b l2 heq
        obtain ⟨hn1, hn2⟩ := h.order (.ack t :: l1) r u b l2 (hm.trans (congrArg (Reply.ack t :: ·) heq))
        simp only [mem_cons, Reply.ack.injEq, not_or] at hn1
        refine ⟨hn1.2, ?_⟩
        simp only [all_submit, mem_append, mem_singleton, ClientEvent.ack.injEq, not_or]
        exact ⟨hn2, hn1.1⟩
      waitFresh := fun u hu => (h'.waitFresh u hu).imp_left fun hn hx => hn ((hupd u).1 hx)
      doomed := fun u r hp hd => (h'.doomed u r hp hd).imp_left fun hn hx => hn ((hupd u).1 hx) }
  · simpa [apply] using h'

private theorem clientReady {q : Nat} (hm : p.toClient = .serverReady q :: rest)
    (ho : p.client.handleServerReady q = some o) : PeerInv up D J wait c ({ p with toClient := rest }.apply up o) := by
  obtain ⟨-, ho⟩ := ite_none_left_eq_some.1 ho
  cases ho
  have h' := h.takeReply hm
  have hlive : agreesOf rest ++ wait = p.live wait := by
    cases hl : p.client.lastReqid <;> simp [live, hm, hl, matchable, agreesOf, agreesWhenReady]
  have hc : PeerInv up D J wait c { p with
      toClient := rest
      client := { p.client with
        serverReady := true
        lastReqid := some (p.client.lastReqid.getD q + p.client.waitingForReqid.length)
        pendingPrepare := p.client.pendingPrepare ++ numberWaiting (p.client.lastReqid.getD q) p.client.waitingForReqid
        waitingForReqid := [] } } :=
    { h' with
      unnumbered := fun hn => by cases hn
      recovering := by
        intro hup hr
        exact absurd (hm ▸ mem_cons_self) ((h.recovering hup hr).2 q)
      liveNodup := by
        show (agreesOf rest ++ wait).Nodup
        rw [hlive]
        exact h.liveNodup
      stale := fun hn => by cases hn
      liveSafe := by
        intro t ht
        have ht' : t ∈ agreesOf rest ++ wait := ht
        rw [hlive] at ht'
        exact h.liveSafe t ht' }
  refine hc.sendRequests (l := _ ++ _) ?_ ?_
  · intro t ht
    simp only [mem_append, mem_map, Request.commit.injEq, reduceCtorEq, and_false, exists_false,
      false_or, exists_eq_right] at ht
    exact h.committing t ht
  · intro t ht
    simp at ht

theorem clientReply {m : Reply R} (hm : p.toClient = m :: rest) (ho : p.client.handleRequest m = some o) :
    PeerInv up D J wait c ({ p with toClient := rest }.apply up o) := by
  cases m with
  | agree r t b => exact h.clientAgree hm ho
  | ack t =>
    cases ho
    exact h.clientAck hm
  | serverReady q => exact h.clientReady hm ho

/-! ### Crashes and restarts -/

theorem crash (entries received : Nat) : PeerInv up D J wait c (p.crash entries received) := by
  have hall : ∀ e ∈ (p.journal.crash entries).all, e ∈ p.journal.all := by
    intro e he
    rw [all_crash] at he
    exact (p.journal.crash_prefix_all entries).subset he
  have hdur : ∀ e ∈ p.journal.durable, e ∈ (p.journal.crash entries).durable := fun e he =>
    (p.journal.durable_prefix_crash entries).subset he
  have hreq : ∀ m ∈ p.toServer.take received, m ∈ p.toServer := fun m hm => mem_of_mem_take hm
  have hlive : ∀ t ∈ (p.crash entries received).live wait, t ∈ p.live wait := fun t ht => mem_append_right _ ht
  have hfresh : ∀ t, .update t ∉ p.journal.all ∧ p.client.isPrepared t = false →
      .update t ∉ (p.journal.crash entries).all ∧ isPrepared ({} : MDSTableClient M) t = false :=
    fun t ht => ⟨fun hm => ht.1 (hall _ hm), rfl⟩
  constructor
  · exact fun _ => ⟨rfl, all_crash _ _⟩
  · intro hu
    simp [Peer.crash, h.serverDown hu]
  · exact nofun
  · exact nofun
  · exact nofun
  · exact fun t hm => h.logged t (hall _ hm)
  · exact nofun
  · exact fun t hm => hdur _ (h.commits t (hreq _ hm))
  · exact fun t hm => (h.loggedAck t (hall _ hm)).imp_right (hdur _)
  · exact nofun
  · exact fun t hm => h.rollbacks t (hreq _ hm)
  · exact fun _ => rfl
  · exact nofun
  · intro l1 r t b l2 heq
    cases l1 <;> cases heq
  · exact (nodup_append.1 h.liveNodup).2.1
  · exact nofun
  · exact fun t ht => ⟨fun hm => (h.liveSafe t (hlive t ht)).1 (hreq _ hm), (h.liveSafe t (hlive t ht)).2⟩
  · exact fun t ht => hfresh t (h.waitFresh t ht)
  · exact fun t r hp hd => hfresh t (h.doomed t r hp (hd.imp_left (hreq _)))

theorem restart (hdown : p.up = false) : PeerInv up D J wait c p.restart := by
  have hclient : p.restart.client = { pendingCommit := p.restart.client.pendingCommit } := replay_client_eq _ _
  have hlast : p.restart.client.lastReqid = none := by rw [hclient]
  have hprep : p.restart.client.preparedUpdate = [] := by rw [hclient]
  have hlive : p.restart.live wait = wait := by
    simp only [live, hlast]
    rfl
  have hsub : ∀ t ∈ p.restart.live wait, t ∈ p.live wait := by
    intro t ht
    rw [hlive] at ht
    exact mem_append_right _ ht
  have hno : ∀ t, p.restart.client.isPrepared t = false := by
    simp [isPrepared, hprep]
  constructor
  · intro hu
    cases hu
  · exact fun _ => rfl
  · intro r t b hm
    cases hm
  · intro t hm
    cases hm
  · intro t r hm
    rw [hprep] at hm
    cases hm
  · exact h.logged
  · intro t ht
    rcases (mem_pendingCommit_replay p.journal.durable {} t).1 ht with hm | hm
    · cases hm
    · exact hm
  · intro t hm
    cases hm
  · exact h.loggedAck
  · intro _ t ht
    have ht' := (h.down hdown).2 ▸ ht
    rcases (mem_pendingCommit_replay p.journal.durable ({} : MDSTableClient M) t).2 (.inr ht') with hm | hm
    · exact .inl (mem_all_of_durable hm)
    · exact .inr (.inr hm)
  · intro t hm
    cases hm
  · intro _
    rw [hclient]
  · exact fun _ _ => ⟨hlast, fun _ => not_mem_nil⟩
  · intro l1 r t b l2 heq
    cases l1 <;> cases heq
  · rw [hlive]
    exact (nodup_append.1 h.liveNodup).2.1
  · intro _ t ht
    cases ht
  · exact fun t ht => ⟨not_mem_nil, (h.liveSafe t (hsub t ht)).2⟩
  · exact fun t ht => ⟨(h.waitFresh t ht).1, hno t⟩
  · intro t r hp hd
    refine ⟨(h.doomed t r hp (.inr ?_)).1, hno t⟩
    rcases hd with hd | hd
    · cases hd
    · exact hd

theorem lose (received : Nat) : PeerInv up D J wait c (p.lose received) :=
  have h' := (h.keepReplies (a := []) (take_append_drop received p.toClient).symm).takeRequests (nil_sublist _)
  { h' with recovering := nofun }

theorem noteFailure : PeerInv up D J wait c p.noteFailure :=
  { h.keepReplies (l := []) (b := []) (append_nil p.toClient).symm with }

omit h in
theorem recovered {s : MDSTableServer T} (h : PeerInv up D J [] c p) (hup : p.up = true)
    (hready : ∀ q, .serverReady q ∉ p.toClient)
    (hnew : p.client.lastReqid = none ∨ p.toClient = [] ∧ p.toServer = [])
    (hpend : ∀ q ∈ s.pendingForMds, q.mds = c → Prepared D q ∧ ¬ Committed D q.tid ∧ ¬ RolledBack J q.tid)
    (hnodup : (s.pendingForMds.map (·.tid)).Nodup) :
    PeerInv up D J [] c { p with toClient := p.toClient ++ s.handleMdsRecovery c, recovering := false } := by
  have hagree : ∀ r t b, (agree r t b : Reply R) ∈ s.handleMdsRecovery c → ⟨t, c, r⟩ ∈ s.pendingForMds := by
    intro r t b hm
    simp only [MDSTableServer.handleMdsRecovery, mem_append, mem_map, mem_filter, beq_iff_eq, mem_singleton, reduceCtorEq,
      or_false] at hm
    obtain ⟨⟨t', m', r'⟩, ⟨hq, rfl⟩, rfl, rfl, -⟩ := hm
    exact hq
  have hnoack : ∀ t, Reply.ack t ∉ (s.handleMdsRecovery c : List (Reply R)) := by
    intro t hm
    simp [MDSTableServer.handleMdsRecovery] at hm
  have htids : agreesOf (s.handleMdsRecovery c : List (Reply R)) =
      (s.pendingForMds.filter (·.mds == c)).map (·.tid) := by
    unfold MDSTableServer.handleMdsRecovery
    rw [agreesOf_append]
    have : ∀ l : List Pending, agreesOf (l.map fun q => (agree q.reqid q.tid none : Reply R)) = l.map (·.tid) := by
      intro l
      induction l with
      | nil => rfl
      | cons q l ih => simpa [agreesOf] using ih
    rw [this]
    simp [agreesOf]
  have hnone : p.client.lastReqid = none → live { p with
      toClient := p.toClient ++ s.handleMdsRecovery c, recovering := false } [] = [] := by
    intro hl
    simp only [live, hl, append_nil]
    exact agreesWhenReady_recovery hready (by simp)
  -- what is live after the messages: nothing, or the pending transactions of the client
  have hlive : live { p with toClient := p.toClient ++ s.handleMdsRecovery c, recovering := false } [] = [] ∨
      p.toClient = [] ∧ p.toServer = [] ∧
        live { p with toClient := p.toClient ++ s.handleMdsRecovery c, recovering := false } [] =
          (s.pendingForMds.filter (·.mds == c)).map (·.tid) := by
    cases hl : p.client.lastReqid with
    | none => exact .inl (hnone hl)
    | some n =>
      rcases hnew with hn | ⟨hc, hs⟩
      · rw [hl] at hn
        cases hn
      · refine .inr ⟨hc, hs, ?_⟩
        simp only [live, hl, hc, append_nil]
        exact htids
  have h' : PeerInv up D J [] c { p with recovering := false } := { h with recovering := fun _ hr => by cases hr }
  refine h'.sendReplies hup ?_ (fun t hm => absurd hm (hnoack t)) (fun hr => by cases hr) (fun _ ht => ht) ?_ ?_ ?_
  · intro r t b hm
    obtain ⟨hp, hnc, -⟩ := hpend _ (hagree r t b hm) rfl
    exact ⟨hp, fun ha => hnc (h.acked t ha).1, hnoack t, fun ha => hnc (h.loggedAck t ha).1⟩
  · rcases hlive with hl | ⟨-, -, hl⟩
    · rw [hl]
      exact nodup_nil
    · rw [hl]
      exact (filter_sublist.map _).nodup hnodup
  · intro hl t _
    rw [hnone hl]
    exact not_mem_nil
  · intro t ht
    rcases hlive with hl | ⟨-, hs, hl⟩
    · rw [hl] at ht
      cases ht
    rw [hl] at ht
    obtain ⟨q, hq, rfl⟩ := mem_map.1 ht
    obtain ⟨hq, hc⟩ := mem_filter.1 hq
    refine ⟨?_, (hpend q hq (by simpa using hc)).2.2⟩
    rw [hs]
    exact not_mem_nil

end PeerInv
end Lunule.Table
