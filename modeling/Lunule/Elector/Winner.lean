import Lunule.Elector.Basic

/-!
# One winner for each epoch

Two winners of an epoch have a common member in their quorums, so the epoch has one winner as long as no monitor
acknowledges two. A monitor does so in two ways. It may hear a lower rank after it has acknowledged a higher one, while
the first candidate's timer runs out with a majority. And in the epoch of its first boot, which its store does not hold, it
may start an election of its own after it has acknowledged another's. `Careful` excludes the two, and that an epoch runs
up to its 32 bits.

`World.Inv` is kept by everything a handler does: an acknowledgement of a monitor's present epoch is the one `leader_acked`
names, and whoever still runs for itself has sent none (`voted`). `Settled` holds between the events only.
-/

namespace Lunule.Elector
open Network Exec List Mon Option Function
variable {n : ℕ} {w w' : World n} {i me src who : Fin n} {m m' : Mon n} {e : ℕ}

def Mon.last (m : Mon n) : ℕ := max m.stored 1

structure Mon.Ok (i : Fin n) (acks : List (Fin n × Fin n × ℕ)) (m : Mon n) : Prop where
  epoch : m.epoch = 0 ∨ m.epoch = m.last
  awake : m.phase ≠ .probing → m.epoch ≠ 0
  electing : m.electing_me = true → m.epoch % 2 = 1 ∧ i ∈ m.acked_me
  nodup : m.acked_me.Nodup
  acked : ∀ k ∈ m.acked_me, k ≠ i → (k, i, m.epoch) ∈ acks
  leader : ∀ l ∈ m.leader_acked, l < i

/-- What a message from `a` to `b` says is true of its epoch and of the history. -/
def Msg.Ok (a b : Fin n) (acks : List (Fin n × Fin n × ℕ)) : Msg n → Prop
  | .propose e => e % 2 = 1 ∧ a ≠ b
  | .ack e => (a, b, e) ∈ acks
  | .victory e _ => e % 2 = 0 ∧ a < b

def Msg.epoch : Msg n → ℕ
  | .propose e => e
  | .ack e => e
  | .victory e _ => e

def Msg.proposed : Msg n → Option ℕ
  | .propose e => some e
  | _ => none

/-- The quorum of a victory: a majority with the winner in it, all of whom acknowledged it in the epoch before. -/
structure Won (acks : List (Fin n × Fin n × ℕ)) (i : Fin n) (e : ℕ) (quorum : List (Fin n)) : Prop where
  even : e % 2 = 0
  pos : 0 < e
  self : i ∈ quorum
  nodup : quorum.Nodup
  majority : n / 2 < quorum.length
  acked : ∀ k ∈ quorum, k ≠ i → (k, i, e - 1) ∈ acks

structure World.Inv (w : World n) : Prop where
  mons : ∀ i, (w.mons i).Ok i w.acks
  acks : ∀ k c e, (k, c, e) ∈ w.acks → c < k ∧ e % 2 = 1 ∧ e ≤ (w.mons k).last
  net : ∀ a b, ∀ msg ∈ w.net a b, msg.Ok a b w.acks ∧ msg.epoch ≤ (w.mons a).last
  wins : ∀ i e quorum, (i, e, quorum) ∈ w.wins → Won w.acks i e quorum ∧ e ≤ (w.mons i).stored
  voted : ∀ i c, (i, c, (w.mons i).last) ∈ w.acks →
    (w.mons i).electing_me = false ∧ ((w.mons i).epoch = 0 ∨ (w.mons i).leader_acked = some c)
  once : ∀ i c c' e, (i, c, e) ∈ w.acks → (i, c', e) ∈ w.acks → c = c'
  won : ∀ i e quorum c, (i, e, quorum) ∈ w.wins → (i, c, e - 1) ∉ w.acks

/-- A monitor in an election runs for itself or has acknowledged somebody. -/
def Settled (m : Mon n) : Prop :=
  n ≠ 1 → m.phase ≠ .probing → m.epoch % 2 = 1 → m.electing_me = true ∨ m.leader_acked.isSome = true

/-- The event repeats no vote: a proposal comes from no lower rank than one acknowledged in its epoch, and a monitor with
an empty store starts no election once it has acknowledged somebody. -/
def Careful (w : World n) (ev : Event n) : Prop :=
  (∀ i, (w.mons i).stored + 2 < 2 ^ 32) ∧
    match ev with
    | .deliver src dst =>
      ∀ e ∈ (w.net src dst).head?.bind Msg.proposed, ∀ v ∈ w.acks, v.1 = dst → v.2.2 = e → v.2.1 ≤ src
    | .expire i => (w.mons i).stored = 0 → ∀ v ∈ w.acks, v.1 ≠ i
    | .startElection i => (w.mons i).stored = 0 → ∀ v ∈ w.acks, v.1 ≠ i
    | _ => True

instance (w : World n) : (ev : Event n) → Decidable (Careful w ev)
  | .deliver _ _ => inferInstanceAs (Decidable (_ ∧ _))
  | .expire _ | .startElection _ => inferInstanceAs (Decidable (_ ∧ _))
  | .lose _ _ | .bootstrap _ | .join _ | .restart _ => inferInstanceAs (Decidable (_ ∧ True))

/-! ## The parts of a handler -/

@[simp] theorem mons_set_self : (w.set i m).mons i = m := update_self ..

@[simp] theorem mons_set_of_ne {j : Fin n} (h : j ≠ i) : (w.set i m).mons j = w.mons j := update_of_ne h ..

/-- What a part of a handler of `i` does to the world around it. -/
structure Turn (w w' : World n) (i : Fin n) : Prop where
  inv : w'.Inv
  others : ∀ j, j ≠ i → w'.mons j = w.mons j
  stored : (w.mons i).stored ≤ (w'.mons i).stored

private theorem Turn.trans {w'' : World n} (h : Turn w w' i) (h' : Turn w' w'' i) : Turn w w'' i :=
  ⟨h'.inv, fun j hj => (h'.others j hj).trans (h.others j hj), h.stored.trans h'.stored⟩

private theorem next_eq (h : e + 1 < 2 ^ 32) : next e = e + 1 := Nat.mod_eq_of_lt h

private theorem Mon.last_le (h : m.stored ≤ m'.stored) : m.last ≤ m'.last := by
  unfold last
  omega

private theorem World.Inv.fresh (h : w.Inv) (hlt : (w.mons i).last < e) (c : Fin n) : (i, c, e) ∉ w.acks := by
  intro hc
  have := (h.acks i c e hc).2.2
  omega

variable {acks : List (Fin n × Fin n × ℕ)}

private theorem Mon.Ok.eq_last (h : m.Ok i acks) (hodd : m.epoch % 2 = 1) : m.epoch = m.last := by
  have := h.epoch
  omega

private theorem World.Inv.set (h : w.Inv) (hm : m.Ok i w.acks) (hstored : (w.mons i).stored ≤ m.stored)
    (hvoted : ∀ c, (i, c, m.last) ∈ w.acks → m.electing_me = false ∧ (m.epoch = 0 ∨ m.leader_acked = some c)) :
    Turn w (w.set i m) i := by
  have hgrow := (forall_update_iff w.mons fun k m => (w.mons k).stored ≤ m.stored).2 ⟨hstored, fun _ _ => le_rfl⟩
  have hlast : ∀ k, (w.mons k).last ≤ ((w.set i m).mons k).last := fun k => last_le (hgrow k)
  refine ⟨⟨?_, ?_, ?_, ?_, ?_, h.once, h.won⟩, fun j hj => mons_set_of_ne hj, hgrow i⟩
  · exact (forall_update_iff w.mons fun k m => m.Ok k w.acks).2 ⟨hm, fun k _ => h.mons k⟩
  · intro k c e hc
    obtain ⟨h1, h2, h3⟩ := h.acks k c e hc
    exact ⟨h1, h2, h3.trans (hlast k)⟩
  · intro a b msg hmsg
    exact ⟨(h.net a b msg hmsg).1, (h.net a b msg hmsg).2.trans (hlast a)⟩
  · intro k e quorum hk
    exact ⟨(h.wins k e quorum hk).1, (h.wins k e quorum hk).2.trans (hgrow k)⟩
  · exact (forall_update_iff w.mons fun k m => ∀ c, (k, c, m.last) ∈ w.acks →
      m.electing_me = false ∧ (m.epoch = 0 ∨ m.leader_acked = some c)).2 ⟨hvoted, fun k _ => h.voted k⟩

variable {msgs : Fin n → List (Msg n)} {r : Option (World n)} {p q : List (Fin n)}

private theorem World.Inv.send (h : w.Inv)
    (hmsgs : ∀ b, ∀ msg ∈ msgs b, msg.Ok i b w.acks ∧ msg.epoch ≤ (w.mons i).last) : (w.send i msgs).Inv := by
  refine { h with net := ?_ }
  intro a b msg hmsg
  obtain hold | ⟨rfl, hnew⟩ := mem_post.1 hmsg
  · exact h.net a b msg hold
  · exact hmsgs b msg hnew

private theorem Turn.send (h : Turn w w' i)
    (hmsgs : ∀ b, ∀ msg ∈ msgs b, msg.Ok i b w'.acks ∧ msg.epoch ≤ (w'.mons i).last) : Turn w (w'.send i msgs) i :=
  ⟨h.inv.send hmsgs, h.others, h.stored⟩

private theorem Msg.Ok.mono {a b : Fin n} {acks acks' : List (Fin n × Fin n × ℕ)} (hsub : acks ⊆ acks') {msg : Msg n}
    (h : msg.Ok a b acks) : msg.Ok a b acks' := by
  cases msg with
  | propose e => exact h
  | ack e => exact hsub h
  | victory e quorum => exact h

/-- A handler runs to its end, and leaves its monitor in order. -/
def Done (w : World n) (me : Fin n) (r : Option (World n)) : Prop :=
  ∃ w', r = some w' ∧ Turn w w' me ∧ Settled (w'.mons me)

private theorem World.Inv.unchanged (h : w.Inv) (hsettled : Settled (w.mons i)) : Done w i (some w) :=
  ⟨w, rfl, ⟨h, fun _ _ => rfl, le_rfl⟩, hsettled⟩

private theorem World.Inv.vote (h : w.Inv) (hlt : who < me) (hodd : (w.mons me).epoch % 2 = 1)
    (helecting : (w.mons me).electing_me = false) (hleader : (w.mons me).leader_acked = some who)
    (hvote : ∀ c, (me, c, (w.mons me).epoch) ∈ w.acks → c = who) :
    ({ w with acks := (me, who, (w.mons me).epoch) :: w.acks } : World n).Inv := by
  have hlast := (h.mons me).eq_last hodd
  refine ⟨?_, ?_, ?_, ?_, ?_, ?_, ?_⟩
  · intro i
    exact { h.mons i with acked := fun k hk hki => mem_cons_of_mem _ ((h.mons i).acked k hk hki) }
  · intro k c e hc
    obtain heq | hc := mem_cons.1 hc
    · simp only [Prod.mk.injEq] at heq
      obtain ⟨rfl, rfl, rfl⟩ := heq
      exact ⟨hlt, hodd, hlast.le⟩
    · exact h.acks k c e hc
  · intro a b msg hmsg
    exact ⟨(h.net a b msg hmsg).1.mono (subset_cons_self _ _), (h.net a b msg hmsg).2⟩
  · intro i e quorum hi
    obtain ⟨hwon, hle⟩ := h.wins i e quorum hi
    exact ⟨{ hwon with acked := fun k hk hki => mem_cons_of_mem _ (hwon.acked k hk hki) }, hle⟩
  · intro i c hc
    obtain heq | hc := mem_cons.1 hc
    · simp only [Prod.mk.injEq] at heq
      obtain ⟨rfl, rfl, -⟩ := heq
      exact ⟨helecting, .inr hleader⟩
    · exact h.voted i c hc
  · intro i c c' e hc hc'
    simp only [mem_cons] at hc hc'
    obtain ⟨rfl, rfl, rfl⟩ | hc := hc
    · obtain ⟨-, rfl, -⟩ | hc' := hc'
      · rfl
      · exact (hvote c' hc').symm
    · obtain ⟨rfl, rfl, rfl⟩ | hc' := hc'
      · exact hvote c hc
      · exact h.once i c c' e hc hc'
  · intro i e quorum c hi hc
    obtain heq | hc := mem_cons.1 hc
    · -- a winner has left the epoch it won
      simp only [Prod.mk.injEq] at heq
      obtain ⟨rfl, -, he⟩ := heq
      obtain ⟨hwon, hle⟩ := h.wins i e quorum hi
      unfold last at hlast
      omega
    · exact h.won i e quorum c hi hc

private theorem World.Inv.candidate (h : w.Inv) (hme : (w.mons me).electing_me = true) (c : Fin n) :
    (me, c, (w.mons me).epoch) ∉ w.acks := by
  intro hc
  rw [(h.mons me).eq_last ((h.mons me).electing hme).1] at hc
  have hfalse := (h.voted me c hc).1
  rw [hme] at hfalse
  cases hfalse

/-! ### Bumping the epoch and starting -/

private theorem Mon.ok_of_idle (hstored : m.epoch = m.stored) (hpos : m.epoch ≠ 0)
    (helecting : m.electing_me = false) (hacked : m.acked_me = []) (hleader : ∀ l ∈ m.leader_acked, l < i) : m.Ok i acks where
  epoch := Or.inr (by rw [last]; omega)
  awake _ := hpos
  electing := by simp [helecting]
  nodup := by simp [hacked]
  acked := by simp [hacked]
  leader := hleader

private theorem Mon.start_eq (me : Fin n) (hroom : m.stored + 2 < 2 ^ 32) :
    ∃ m', m.start me = some m' ∧ m'.epoch = m'.last ∧ m'.epoch % 2 = 1 ∧ m'.electing_me = true ∧ m'.acked_me = [me] ∧
      m'.leader_acked = none ∧ (m.last < m'.last ∨ m.stored = 0) ∧ m.stored ≤ m'.stored := by
  unfold start init bumpEpoch last
  have h1 : next m.stored = m.stored + 1 := next_eq (by omega)
  have h2 : next (m.stored + 1) = m.stored + 2 := next_eq (by omega)
  by_cases h0 : m.stored = 0
  · simp [h0]
  by_cases hodd : m.stored % 2 = 1
  · have hstart : (m.stored + 1) % 2 = 0 ∧ (m.stored + 2) % 2 = 1 := by omega
    simp [h0, hodd, h1, h2, hstart]
  · have hstart : m.stored % 2 = 0 ∧ (m.stored + 1) % 2 = 1 ∧ 0 < m.stored := by omega
    simp [h0, h1, hstart]

@[simp] theorem set_set : (w.set i m).set i m' = w.set i m' := by
  simp [World.set]

private theorem World.Inv.start (h : w.Inv) (hstored : (w.mons me).stored ≤ m.stored) (hroom : m.stored + 2 < 2 ^ 32)
    (hempty : m.stored = 0 → ∀ v ∈ w.acks, v.1 ≠ me) :
    ∃ w', Elector.start (w.set me m) me = some w' ∧ Turn w w' me ∧ (w'.mons me).electing_me = true := by
  obtain ⟨m', hm', hepoch, hodd, helecting, hacked, hleader, hlast, hle⟩ := start_eq me hroom
  have hok : m'.Ok me w.acks :=
    ⟨.inr hepoch, fun _ => by omega, by simp [hodd, hacked], by simp [hacked], by simp [hacked], by simp [hleader]⟩
  have hset : Turn w (w.set me m') me := by
    refine h.set hok (hstored.trans hle) fun c hc => ?_
    obtain hlt | h0 := hlast
    · exact absurd hc (h.fresh (lt_of_le_of_lt (last_le hstored) hlt) c)
    · exact absurd rfl (hempty h0 _ hc)
  refine ⟨_, by rw [Elector.start, mons_set_self, hm', map_some, set_set], hset.send ?_, ?_⟩
  · intro b msg hmsg
    split_ifs at hmsg with hb
    · cases hmsg
    · rw [mem_singleton.1 hmsg, mons_set_self]
      exact ⟨⟨hodd, Ne.symm hb⟩, hepoch.le⟩
  · simpa [World.send] using helecting

private theorem World.Inv.defer (h : w.Inv) (hlt : who < me) (hodd : (w.mons me).epoch % 2 = 1)
    (hvote : ∀ c, (me, c, (w.mons me).epoch) ∈ w.acks → c = who) :
    Turn w (defer w me who) me ∧ ((defer w me who).mons me).leader_acked = some who := by
  have hlast := (h.mons me).eq_last hodd
  -- the monitor first drops its candidacy
  obtain ⟨m, hm⟩ : ∃ m : Mon n, m = { w.mons me with
    acked_me := if (w.mons me).electing_me then [] else (w.mons me).acked_me, electing_me := false,
    leader_acked := some who, timer := true } := ⟨_, rfl⟩
  have hok : m.Ok me w.acks := by
    have := h.mons me
    subst hm
    refine ⟨this.epoch, this.awake, by simp, ?_, ?_, by simp [hlt]⟩
    · by_cases he : (w.mons me).electing_me = true <;> simp [he, this.nodup]
    · by_cases he : (w.mons me).electing_me = true
      · simp [he]
      · simpa [he] using this.acked
  have hset : Turn w (w.set me m) me := by
    subst hm
    refine h.set hok le_rfl fun c hc => ⟨rfl, .inr ?_⟩
    rw [hvote c (hlast ▸ hc)]
  have hme : (w.set me m).mons me = m := mons_set_self
  have hepoch : m.epoch = (w.mons me).epoch := by rw [hm]
  have hinv := hset.inv.vote hlt (by rw [hme, hepoch]; exact hodd) (by rw [hme, hm]) (by rw [hme, hm])
    (by rw [hme, hepoch]; exact hvote)
  have hvoted : Turn w { w.set me m with acks := (me, who, m.epoch) :: w.acks } me :=
    ⟨by rwa [hme] at hinv, hset.others, hset.stored⟩
  have heq : Elector.defer w me who = ({ w.set me m with acks := (me, who, m.epoch) :: w.acks } : World n).send me
      fun j => if j = who then [.ack m.epoch] else [] := by
    subst hm
    unfold Elector.defer World.send World.set
    by_cases he : (w.mons me).electing_me = true <;> simp [he]
  rw [heq]
  refine ⟨hvoted.send fun b msg hmsg => ?_, ?_⟩
  · split_ifs at hmsg with hb
    · rw [mem_singleton.1 hmsg, hb]
      refine ⟨mem_cons_self, ?_⟩
      rw [hme, hm]
      exact hlast.le
    · cases hmsg
  · show ((w.set me m).mons me).leader_acked = some who
    rw [hme, hm]

private theorem World.Inv.victory (h : w.Inv) (hme : (w.mons me).electing_me = true)
    (hmajority : n / 2 < (w.mons me).acked_me.length) (hroom : (w.mons me).stored + 2 < 2 ^ 32) :
    Done w me (victory w me) := by
  have hok := h.mons me
  obtain ⟨hodd, hself⟩ := hok.electing hme
  have hlast := hok.eq_last hodd
  have hnext : next (w.mons me).epoch = (w.mons me).epoch + 1 := by
    refine next_eq ?_
    rw [hlast]
    unfold last
    omega
  obtain ⟨m, hm⟩ : ∃ m : Mon n, m = { w.mons me with
    leader_acked := none, electing_me := false, timer := false, epoch := (w.mons me).epoch + 1,
    stored := (w.mons me).epoch + 1, acked_me := [], phase := .leader, quorum := (w.mons me).acked_me } := ⟨_, rfl⟩
  have hepoch : m.epoch = (w.mons me).epoch + 1 := by rw [hm]
  have hstored : m.stored = (w.mons me).epoch + 1 := by rw [hm]
  have hset : Turn w (w.set me m) me := by
    refine h.set ?_ ?_ fun c hc => absurd hc (h.fresh ?_ c)
    · subst hm
      exact ok_of_idle rfl (Nat.succ_ne_zero _) rfl rfl (by simp)
    · unfold last at hlast
      omega
    · unfold last at hlast ⊢
      omega
  refine ⟨{ (w.set me m).send me (fun j => if j ∈ (w.mons me).acked_me ∧ j ≠ me then
      [.victory m.epoch (w.mons me).acked_me] else []) with wins := (me, m.epoch, (w.mons me).acked_me) :: w.wins }, ?_, ?_, ?_⟩
  · subst hm
    simp [Elector.victory, bumpEpoch, hodd, hnext]
  · have hsent : Turn w ((w.set me m).send me fun j => if j ∈ (w.mons me).acked_me ∧ j ≠ me then
        [.victory m.epoch (w.mons me).acked_me] else []) me := by
      refine hset.send fun b msg hmsg => ?_
      split_ifs at hmsg with hb
      · rw [mem_singleton.1 hmsg, mons_set_self]
        have hlt := (h.acks b me _ (hok.acked b hb.1 hb.2)).1
        rw [Msg.epoch, last, hstored, hepoch]
        exact ⟨⟨by omega, hlt⟩, le_max_left _ _⟩
      · cases hmsg
    refine ⟨{ hsent.inv with wins := ?_, won := ?_ }, hsent.others, hsent.stored⟩
    · intro i e quorum hi
      obtain heq | hi := mem_cons.1 hi
      · simp only [Prod.mk.injEq] at heq
        obtain ⟨rfl, rfl, rfl⟩ := heq
        refine ⟨⟨by omega, by omega, hself, hok.nodup, hmajority, by rw [hepoch]; exact hok.acked⟩, ?_⟩
        show m.epoch ≤ ((w.set i m).mons i).stored
        rw [mons_set_self, hepoch, hstored]
      · exact hsent.inv.wins i e quorum hi
    · intro i e quorum c hi
      obtain heq | hi := mem_cons.1 hi
      · simp only [Prod.mk.injEq] at heq
        obtain ⟨rfl, rfl, -⟩ := heq
        rw [hepoch]
        exact h.candidate hme c
      · exact hsent.inv.won i e quorum c hi
  · intro _ _ ho
    change ((w.set me m).mons me).epoch % 2 = 1 at ho
    rw [mons_set_self] at ho
    omega

/-! ## The handlers -/

private theorem Turn.andThen (h : Turn w w' me) (hr : Done w' me r) : Done w me r := by
  obtain ⟨w'', hw'', hturn, hsettled⟩ := hr
  exact ⟨w'', hw'', h.trans hturn, hsettled⟩

private theorem World.Inv.start_done (h : w.Inv) (hstored : (w.mons me).stored ≤ m.stored)
    (hroom : m.stored + 2 < 2 ^ 32)
    (hempty : m.stored = 0 → ∀ v ∈ w.acks, v.1 ≠ me) : Done w me (Elector.start (w.set me m) me) := by
  obtain ⟨w', hw', hturn, hme⟩ := h.start hstored hroom hempty
  exact ⟨w', hw', hturn, fun _ _ _ => .inl hme⟩

private theorem World.Inv.bump (h : w.Inv) (hawake : (w.mons me).epoch ≠ 0) (hlt : (w.mons me).epoch < e) :
    ∃ m, (w.mons me).bumpEpoch e = some m ∧ m.epoch = e ∧ m.stored = e ∧ Turn w (w.set me m) me := by
  refine ⟨_, if_pos hlt.le, rfl, rfl, h.set (ok_of_idle rfl (by simp only; omega) rfl rfl (h.mons me).leader) ?_ fun c hc => absurd hc (h.fresh ?_ c)⟩
  all_goals
    have hlast := (h.mons me).epoch
    unfold last at *
    simp only
    omega

private theorem World.Inv.rankProposal (h : w.Inv) (hne : src ≠ me) (hodd : (w.mons me).epoch % 2 = 1)
    (hvote : ∀ c, (me, c, (w.mons me).epoch) ∈ w.acks → c ≤ src)
    (hstart : (w.mons me).electing_me = false → (w.mons me).leader_acked = none →
      (w.mons me).stored ≠ 0 ∧ (w.mons me).stored + 2 < 2 ^ 32) : Done w me (rankProposal w src me) := by
  have hlast := (h.mons me).eq_last hodd
  unfold Elector.rankProposal
  by_cases hlt : me < src
  · rw [if_pos hlt]
    split
    · rename_i l hl
      have hsrc : l < src := lt_trans ((h.mons me).leader l hl) hlt
      rw [if_pos hsrc]
      exact h.unchanged fun _ _ _ => .inr (by rw [hl]; rfl)
    rename_i hl
    split_ifs with hme
    · exact h.unchanged fun _ _ _ => .inl hme
    · obtain ⟨h0, hroom⟩ := hstart (by simpa using hme) hl
      exact h.start_done le_rfl hroom fun h0' => absurd h0' h0
  · rw [if_neg hlt]
    have hsrc : src < me := lt_of_le_of_ne (not_lt.1 hlt) hne
    -- the one acknowledged before, if any, is the one `leader_acked` names
    have hleader : ∀ c, (me, c, (w.mons me).epoch) ∈ w.acks → (w.mons me).leader_acked = some c := by
      intro c hc
      obtain ⟨-, h0 | hl⟩ := h.voted me c (hlast ▸ hc)
      · omega
      · exact hl
    have hdefer (hv : ∀ c, (me, c, (w.mons me).epoch) ∈ w.acks → c = src) : Done w me (some (Elector.defer w me src)) := by
      obtain ⟨hturn, hl⟩ := h.defer hsrc hodd hv
      exact ⟨_, rfl, hturn, fun _ _ _ => .inr (by rw [hl]; rfl)⟩
    split
    · rename_i hl
      refine hdefer fun c hc => ?_
      rw [hleader c hc] at hl
      cases hl
    rename_i l hl
    split_ifs with hle
    · refine hdefer fun c hc => ?_
      have hcl := hleader c hc
      rw [hl, some.injEq] at hcl
      exact le_antisymm (hvote c hc) (hcl ▸ hle)
    · exact h.unchanged fun _ _ _ => .inr (by rw [hl]; rfl)

private theorem World.Inv.handlePropose (h : w.Inv) (hne : src ≠ me) (hawake : (w.mons me).epoch ≠ 0)
    (hsettled : Settled (w.mons me)) (hphase : (w.mons me).phase ≠ .probing)
    (hroom : (w.mons me).stored + 2 < 2 ^ 32) (hroom' : e + 2 < 2 ^ 32) (hodd : e % 2 = 1)
    (hvote : ∀ c, (me, c, e) ∈ w.acks → c ≤ src) : Done w me (handlePropose w src me e) := by
  have hn : n ≠ 1 := by
    rintro rfl
    exact hne (Subsingleton.elim _ _)
  unfold Elector.handlePropose
  dsimp only
  split_ifs with hlt hold hcall
  · obtain ⟨m, hm, hepoch, hstored, hturn⟩ := h.bump hawake hlt
    rw [hm, bind_some]
    refine hturn.andThen (hturn.inv.rankProposal hne ?_ ?_ ?_)
    · rw [mons_set_self, hepoch]
      exact hodd
    · rw [mons_set_self, hepoch]
      exact hvote
    · rw [mons_set_self, hstored]
      exact fun _ _ => ⟨by omega, hroom'⟩
  · have hlast := (h.mons me).epoch
    have hempty : (w.mons me).stored = 0 → ∀ v ∈ w.acks, v.1 ≠ me := by
      intro h0
      unfold last at hlast
      omega
    obtain ⟨w', hw', hturn, hme⟩ : ∃ w', startElection w me = some w' ∧ _ := h.start le_rfl hroom hempty
    rw [hw', bind_some]
    refine hturn.andThen (hturn.inv.rankProposal hne ((hturn.inv.mons me).electing hme).1 ?_ ?_)
    · exact fun c hc => absurd hc (hturn.inv.candidate hme c)
    · exact fun hfalse => absurd hme (by simp [hfalse])
  · exact h.unchanged hsettled
  · have hepoch : (w.mons me).epoch = e := by omega
    refine h.rankProposal hne (by rw [hepoch]; exact hodd) (by rw [hepoch]; exact hvote) fun hme hl => ?_
    -- a monitor in the epoch of the proposal has a candidate
    obtain hme' | hl' := hsettled hn hphase (by rw [hepoch]; exact hodd)
    · rw [hme] at hme'
      cases hme'
    · rw [hl] at hl'
      cases hl'

private theorem Mon.Ok.addAck (h : m.Ok me acks) (hsrc : src ≠ me → (src, me, m.epoch) ∈ acks) :
    (m.addAck src).Ok me acks := by
  unfold Mon.addAck
  split_ifs with hmem
  · exact h
  refine ⟨h.epoch, h.awake, fun hme => ?_, nodup_cons.2 ⟨hmem, h.nodup⟩, fun k hk hne => ?_, h.leader⟩
  · exact ⟨(h.electing hme).1, mem_cons_of_mem _ (h.electing hme).2⟩
  · obtain rfl | hk := mem_cons.1 hk
    · exact hsrc hne
    · exact h.acked k hk hne

private theorem World.Inv.handleAck (h : w.Inv) (hack : (src, me, e) ∈ w.acks) (hawake : (w.mons me).epoch ≠ 0)
    (hsettled : Settled (w.mons me)) (hphase : (w.mons me).phase ≠ .probing)
    (hroom : (w.mons me).stored + 2 < 2 ^ 32) (hroom' : e + 2 < 2 ^ 32) (hnew : ¬ e < (w.mons me).epoch) :
    Done w me (handleAck w src me e) := by
  obtain ⟨hlt, hodd, -⟩ := h.acks src me e hack
  have hn : n ≠ 1 := by
    rintro rfl
    exact hlt.ne (Subsingleton.elim _ _)
  unfold Elector.handleAck
  simp only [hodd, ↓reduceIte]
  by_cases hbump : (w.mons me).epoch < e
  · rw [if_pos hbump]
    obtain ⟨m, hm, -, hstored, hturn⟩ := h.bump hawake hbump
    rw [hm, bind_some]
    have hle := hturn.stored
    rw [mons_set_self] at hle
    exact h.start_done hle (by rw [hstored]; exact hroom') fun h0 => by omega
  have hepoch : e = (w.mons me).epoch := by omega
  rw [if_neg hbump, if_pos hepoch]
  by_cases hme : (w.mons me).electing_me = true
  · rw [if_pos hme]
    have hset : Turn w (w.set me ((w.mons me).addAck src)) me := by
      refine h.set ((h.mons me).addAck fun _ => hepoch ▸ hack) le_rfl ?_
      exact h.voted me
    have hme' : ((w.set me ((w.mons me).addAck src)).mons me).electing_me = true := by rw [mons_set_self]; exact hme
    split_ifs with hall
    · have hpos : 0 < n := me.pos
      exact hset.andThen (hset.inv.victory hme' (by rw [mons_set_self, hall]; omega) (by rw [mons_set_self]; exact hroom))
    · exact ⟨_, rfl, hset, fun _ _ _ => .inl hme'⟩
  · rw [if_neg hme]
    obtain hme' | hl := hsettled hn hphase (by omega)
    · exact absurd hme' hme
    · rw [if_pos hl]
      exact h.unchanged hsettled

private theorem World.Inv.handleVictory (h : w.Inv) (hsrc : src < me) (heven : e % 2 = 0)
    (hawake : (w.mons me).epoch ≠ 0) (hroom : e + 2 < 2 ^ 32) (hnew : ¬ e < (w.mons me).epoch) (quorum : List (Fin n)) :
    Done w me (handleVictory w src me e quorum) := by
  have hle : (w.mons me).epoch ≤ e := by omega
  have hstored : (w.mons me).stored ≤ e := by
    have := (h.mons me).epoch
    unfold last at this
    omega
  unfold Elector.handleVictory bumpEpoch
  simp only [hsrc, heven, and_self, ↓reduceIte]
  split_ifs with hfunny
  · exact h.start_done hstored hroom fun h0 => by simp only at h0; omega
  refine ⟨_, rfl, h.set ?_ hstored fun c hc => ?_, fun _ _ ho => ?_⟩
  · exact ok_of_idle rfl (by simp only; omega) rfl rfl (by simp)
  · have := (h.acks me c _ hc).2.1
    simp only [last] at this
    omega
  · rw [mons_set_self] at ho
    simp only at ho
    omega

private theorem Mon.standalone_eq (hroom : m.stored + 2 < 2 ^ 32) :
    ∃ m', m.init.bumpEpoch (next m.init.epoch) = some m' ∧ m'.epoch = m'.stored ∧ m.stored ≤ m'.stored ∧ m'.epoch ≠ 0 ∧
      m'.electing_me = false ∧ m'.acked_me = [] ∧ m'.leader_acked = m.leader_acked := by
  have h1 : next m.stored = m.stored + 1 := next_eq (by omega)
  have h2 : next (m.stored + 1) = m.stored + 2 := next_eq (by omega)
  unfold init bumpEpoch
  by_cases h0 : m.stored = 0
  · simp [h0, next]
  by_cases hodd : m.stored % 2 = 1
  · simp [h0, hodd, h1, h2]
  · simp [h0, hodd, h1]

private theorem World.Inv.bootstrap (h : w.Inv) (hroom : (w.mons me).stored + 2 < 2 ^ 32) :
    Done w me (bootstrap w me) := by
  unfold Elector.bootstrap
  split_ifs with hn
  · -- alone in the map
    have hnone : ∀ c e, (me, c, e) ∉ w.acks := by
      intro c e hc
      subst hn
      exact (h.acks me c e hc).1.ne (Subsingleton.elim _ _)
    obtain ⟨m, hm, hepoch, hstored, h0, helecting, hacked, hleader⟩ :=
      standalone_eq (show ({ w.mons me with phase := .probing, quorum := [] } : Mon n).stored + 2 < 2 ^ 32 from hroom)
    simp only at hm ⊢
    rw [hm, map_some]
    refine ⟨_, rfl, h.set (ok_of_idle hepoch h0 helecting hacked ?_) hstored fun c hc => absurd hc (hnone c _), ?_⟩
    · simpa [hleader] using (h.mons me).leader
    · exact fun hn' => absurd hn hn'
  · refine ⟨_, rfl, h.set { h.mons me with awake := by simp } le_rfl (h.voted me), fun _ hp => ?_⟩
    simp at hp

private theorem World.Inv.expire (h : w.Inv) (hroom : (w.mons me).stored + 2 < 2 ^ 32)
    (hempty : (w.mons me).stored = 0 → ∀ v ∈ w.acks, v.1 ≠ me) : Done w me (expire w me) := by
  have hset : Turn w (w.set me { w.mons me with timer := false }) me := h.set { h.mons me with } le_rfl (h.voted me)
  unfold Elector.expire
  simp only
  split_ifs with hwin hjoined
  · have hme : ((w.set me { w.mons me with timer := false }).mons me).electing_me = true := by simpa using hwin.1
    exact hset.andThen (hset.inv.victory hme (by simpa using hwin.2) (by simpa using hroom))
  · exact h.start_done le_rfl hroom hempty
  · exact hset.andThen (hset.inv.bootstrap (by simpa using hroom))

/-! ## Whole runs -/

private theorem World.Inv.lose (h : w.Inv) (a b : Fin n) : ({ w with net := pop w.net a b } : World n).Inv :=
  { h with net := fun a' b' msg hmsg => h.net a' b' msg (mem_of_mem_pop hmsg) }

private theorem World.Inv.dispatch (h : w.Inv) {msg : Msg n}
    (hmsg : msg.Ok src me w.acks ∧ msg.epoch ≤ (w.mons src).last)
    (hsettled : Settled (w.mons me)) (hroom : ∀ i, (w.mons i).stored + 2 < 2 ^ 32)
    (hvote : ∀ e ∈ msg.proposed, ∀ v ∈ w.acks, v.1 = me → v.2.2 = e → v.2.1 ≤ src) :
    Done w me (dispatch w src me msg) := by
  obtain ⟨hok, hle⟩ := hmsg
  have hroom' : msg.epoch + 2 < 2 ^ 32 := by
    have := hroom src
    unfold last at hle
    omega
  unfold Elector.dispatch
  split_ifs with hphase
  · exact h.unchanged hsettled
  have hawake := (h.mons me).awake hphase
  cases msg with
  | propose e =>
    exact h.handlePropose hok.2 hawake hsettled hphase (hroom me) hroom' hok.1 fun c hc => hvote e rfl _ hc rfl rfl
  | ack e =>
    simp only
    split_ifs with hold
    · exact h.unchanged hsettled
    · exact h.handleAck hok hawake hsettled hphase (hroom me) hroom' hold
  | victory e quorum =>
    simp only
    split_ifs with hold
    · exact h.unchanged hsettled
    · exact h.handleVictory hok.2 hok.1 hawake hroom' hold quorum

def Event.at : Event n → Fin n
  | .deliver _ dst | .lose _ dst => dst
  | .expire i | .startElection i | .bootstrap i | .join i | .restart i => i

private theorem World.Inv.step (h : w.Inv) (hsettled : ∀ i, Settled (w.mons i)) {ev : Event n} (hev : Careful w ev) :
    Done w ev.at (step w ev) := by
  obtain ⟨hroom, hev⟩ := hev
  cases ev with
  | deliver src dst =>
    simp only [Elector.step]
    split
    · exact h.unchanged (hsettled dst)
    rename_i msg rest hnet
    have hpop : Turn w { w with net := pop w.net src dst } dst := ⟨h.lose src dst, fun _ _ => rfl, le_rfl⟩
    refine hpop.andThen (hpop.inv.dispatch (h.net src dst msg (by rw [hnet]; exact mem_cons_self)) (hsettled dst)
      hroom ?_)
    simpa [hnet] using hev
  | lose src dst => exact ⟨_, rfl, ⟨h.lose src dst, fun _ _ => rfl, le_rfl⟩, hsettled dst⟩
  | expire i =>
    simp only [Elector.step]
    split_ifs
    · exact h.expire (hroom i) hev
    · exact h.unchanged (hsettled i)
  | startElection i => exact h.start_done le_rfl (hroom i) hev
  | bootstrap i => exact h.bootstrap (hroom i)
  | join i =>
    refine ⟨_, rfl, h.set { h.mons i with } le_rfl (h.voted i), ?_⟩
    rw [Event.at, mons_set_self]
    exact hsettled i
  | restart i =>
    refine ⟨_, rfl, h.set ⟨.inl rfl, by simp, by simp, nodup_nil, by simp, by simp⟩ le_rfl ?_, ?_⟩
    · exact fun _ _ => ⟨rfl, .inl rfl⟩
    · rw [Event.at, mons_set_self]
      exact fun _ hp => absurd rfl hp

private theorem Done.all (h : Done w me r) (hsettled : ∀ i, Settled (w.mons i)) :
    ∃ w', r = some w' ∧ w'.Inv ∧ (∀ i, Settled (w'.mons i)) ∧ ∀ i, (w.mons i).stored ≤ (w'.mons i).stored := by
  obtain ⟨w', hw', hturn, hme⟩ := h
  refine ⟨w', hw', hturn.inv, fun i => ?_, fun i => ?_⟩
  all_goals by_cases hi : i = me
  · rw [hi]
    exact hme
  · rw [hturn.others i hi]
    exact hsettled i
  · rw [hi]
    exact hturn.stored
  · rw [hturn.others i hi]

private theorem run_ok {evs : List (Event n)} (h : w.Inv) (hsettled : ∀ i, Settled (w.mons i))
    (hevs : AllSteps step Careful w evs) :
    ∃ w', exec step w evs = some w' ∧ w'.Inv ∧ (∀ i, Settled (w'.mons i)) ∧
      ∀ i, (w.mons i).stored ≤ (w'.mons i).stored := by
  refine exec_total (fun u ev hu hev => ?_) ⟨h, hsettled, fun _ => le_rfl⟩ hevs
  obtain ⟨w1, hw1, hinv, hset, hle⟩ := (hu.1.step hu.2.1 hev).all hu.2.1
  exact ⟨w1, hw1, hinv, hset, fun i => (hu.2.2 i).trans (hle i)⟩

private theorem inv_init (store : Fin n → ℕ × Bool) : (World.init store).Inv := by
  refine ⟨fun i => ⟨.inl rfl, fun hp => absurd rfl hp, ?_, nodup_nil, ?_, ?_⟩, ?_, ?_, ?_, ?_, ?_, ?_⟩ <;>
    simp [World.init]

private theorem settled_init (store : Fin n → ℕ × Bool) (i : Fin n) : Settled ((World.init store).mons i) :=
  fun _ hp => absurd rfl hp

private theorem exists_common (hp : p.Nodup) (hq : q.Nodup) (hlp : n / 2 < p.length) (hlq : n / 2 < q.length) :
    ∃ k, k ∈ p ∧ k ∈ q := by
  have hcard : (Finset.univ : Finset (Fin n)).card < p.toFinset.card + q.toFinset.card := by
    rw [Finset.card_univ, Fintype.card_fin, toFinset_card_of_nodup hp, toFinset_card_of_nodup hq]
    omega
  obtain ⟨k, hk⟩ := Finset.inter_nonempty_of_card_lt_card_add_card (Finset.subset_univ _) (Finset.subset_univ _) hcard
  rw [Finset.mem_inter, List.mem_toFinset, List.mem_toFinset] at hk
  exact ⟨k, hk⟩

private theorem World.Inv.one_winner (h : w.Inv) {j : Fin n} (hi : (i, e, p) ∈ w.wins)
    (hj : (j, e, q) ∈ w.wins) : i = j := by
  have hwi := (h.wins i e p hi).1
  have hwj := (h.wins j e q hj).1
  obtain ⟨k, hkp, hkq⟩ := exists_common hwi.nodup hwj.nodup hwi.majority hwj.majority
  by_cases hki : k = i
  · by_contra hne
    subst hki
    exact h.won k e p j hi (hwj.acked k hkq hne)
  · by_cases hkj : k = j
    · subst hkj
      exact absurd (hwi.acked k hkp hki) (h.won k e q i hj)
    · exact h.once k i j (e - 1) (hwi.acked k hkp hki) (hwj.acked k hkq hkj)

/-- In a careful run no assertion fails, an epoch has at most one winner, a winner's quorum is a majority around it, and the
epochs a monitor sees never decrease (epoch 0 is that of a monitor that has not started since it was restarted). -/
theorem elections_one_winner (store : Fin n → ℕ × Bool) (evs : List (Event n))
    (hevs : AllSteps step Careful (World.init store) evs) :
    ∃ w, exec step (World.init store) evs = some w ∧
      (∀ i j e p q, (i, e, p) ∈ w.wins → (j, e, q) ∈ w.wins → i = j) ∧
      (∀ i e p, (i, e, p) ∈ w.wins → e % 2 = 0 ∧ i ∈ p ∧ p.Nodup ∧ n / 2 < p.length) ∧
      ∀ before after, evs = before ++ after → ∃ w₀, exec step (World.init store) before = some w₀ ∧ ∀ i,
        (w₀.mons i).stored ≤ (w.mons i).stored ∧ ((w.mons i).epoch = 0 ∨ (w₀.mons i).epoch ≤ (w.mons i).epoch) := by
  obtain ⟨w, hw, hinv, -, -⟩ := run_ok (inv_init store) (settled_init store) hevs
  refine ⟨w, hw, fun i j e p q hi hj => hinv.one_winner hi hj, fun i e p hi => ?_, fun before after heq => ?_⟩
  · have hwon := (hinv.wins i e p hi).1
    exact ⟨hwon.even, hwon.self, hwon.nodup, hwon.majority⟩
  subst heq
  obtain ⟨w₀, hw0, hinv0, hset0, -⟩ := run_ok (inv_init store) (settled_init store) hevs.of_append
  obtain ⟨w', hw', -, -, hle⟩ := run_ok hinv0 hset0 (hevs.append_right hw0)
  obtain rfl : w = w' := some.inj (hw.symm.trans (exec_append_eq_some.2 ⟨w₀, hw0, hw'⟩))
  refine ⟨w₀, hw0, fun i => ⟨hle i, ?_⟩⟩
  have hlast := last_le (hle i)
  have h₀ := (hinv0.mons i).epoch
  have h₁ := (hinv.mons i).epoch
  omega

scoped instance neZeroThree : NeZero 3 := inferInstance

def fresh : World 3 := World.init fun _ => (0, false)

/-- All of them start, the others acknowledge monitor 0, and it wins. -/
def election : List (Event 3) :=
  [.startElection 0, .startElection 1, .startElection 2, .deliver 0 1, .deliver 0 2, .deliver 1 2, .deliver 1 0, .deliver 1 0,
    .deliver 2 0, .deliver 2 0, .deliver 0 1, .deliver 0 2]

theorem elections_one_winner_election : ∃ w, exec step fresh election = some w ∧ w.wins = [(0, 2, [2, 1, 0])] ∧
      ∀ i j e p q, (i, e, p) ∈ w.wins → (j, e, q) ∈ w.wins → i = j := by
  have hcareful : AllSteps step Careful fresh election := by decide +kernel
  obtain ⟨w, hw, hone, -⟩ := elections_one_winner (fun _ => (0, false)) election hcareful
  have hwins : (exec step fresh election).map World.wins = some [(0, 2, [2, 1, 0])] := by decide +kernel
  rw [show exec step fresh election = some w from hw, map_some, some.injEq] at hwins
  exact ⟨w, hw, hwins, hone⟩

/-- Monitor 2 acknowledges 1 and then 0, whose proposal is slow to reach 1; the timers of both run out. -/
def split : List (Event 3) :=
  [.startElection 0, .startElection 1, .startElection 2, .deliver 1 2, .deliver 0 2, .deliver 2 1, .deliver 2 1,
    .deliver 2 0, .deliver 2 0, .expire 1, .expire 0]

theorem split_two_winners :
    (exec step fresh split).map World.wins = some [(0, 2, [2, 0]), (1, 2, [2, 1])] := by decide +kernel

end Lunule.Elector
