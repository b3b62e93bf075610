import Lunule.Balancer.Answers

/-!
# One evaluation of the imbalance factor per epoch

The same balancers over channels that keep the order of the messages of one sender. Rank 0 evaluates the imbalance
factor whenever an imbalance-factor beat of its epoch finds a load of every rank in `mdsLoad`; the loads arrive already
with the heartbeats, so every beat that comes after the last heartbeat triggers the evaluation again. `owed` counts
what rank 0 can still get from a rank in an epoch: the reports on their way and the heartbeats the rank has not
answered yet. An evaluation made when no other rank owes a report is the last one of its epoch, which is always the
case in a cluster of two ranks.
-/

namespace Lunule.Balancer
open Exec List Function Message
variable {n : Nat} {Load K : Type} {src dst : Fin n}

/-- The ranks with one channel for every ordered pair. `evals` is the history of the evaluations: the epoch of each. -/
structure FifoCluster (n : Nat) (Load K : Type) where
  bal : Fin n → MDBalancer n Load K := fun _ => {}
  chan : Fin n → Fin n → List (Message n Load K) := fun _ _ => []
  evals : List Int := []

/-- Rank 0 opens an epoch, or the first message of a channel is delivered. -/
inductive FifoEvent (n : Nat) (Load K : Type)
  | tick (env : Env n Load K)
  | deliver (src dst : Fin n) (env : Env n Load K)

variable (chan : Fin n → Fin n → List (Message n Load K))

def post (src : Fin n) (out : List (Effect n Load K)) : Fin n → Fin n → List (Message n Load K) :=
  update chan src fun t => chan src t ++ posted out t

def popChan (src dst : Fin n) : Fin n → Fin n → List (Message n Load K) :=
  update chan src (update (chan src) dst (chan src dst).tail)

namespace FifoCluster

/-- What rank 0 can still get from `r` in epoch `e`: reports in flight and heartbeats that `r` has not seen. -/
def owed [NeZero n] (c : FifoCluster n Load K) (r : Fin n) (e : Int) : Nat :=
  (c.chan r 0).countP (isIfbeatOf e) + (c.chan 0 r).countP (isHeartbeatOf e)

private theorem countP_popChan (src dst a b : Fin n)
    (p : Message n Load K → Bool) : (popChan chan src dst a b).countP p ≤ (chan a b).countP p := by
  unfold popChan
  by_cases ha : a = src
  · subst ha
    by_cases hb : b = dst
    · subst hb
      simpa using (tail_sublist _).countP_le
    · simp [update_of_ne hb]
  · simp [update_of_ne ha]

variable {rest : List (Message n Load K)} {m : Message n Load K}

private theorem popChan_self {chan : Fin n → Fin n → List (Message n Load K)} (h : chan src dst = m :: rest) :
    popChan chan src dst src dst = rest := by
  simp [popChan, h]

variable [NeZero n]

/-- The evaluation that the step triggers, if any, is the last one of its epoch: no other rank owes a report. -/
def LastReport (c : FifoCluster n Load K) : FifoEvent n Load K → Prop
  | .tick _ => True
  | .deliver src dst env =>
    match c.chan src dst with
    | .ifbeat m :: _ => dst = 0 → env.accepts → m.beat = (c.bal 0).beatEpoch →
        ((c.bal 0).insertLoad src m.load).numLoads = n → ∀ r, r ≠ 0 → r ≠ src → c.owed r m.beat = 0
    | _ => True

instance (c : FifoCluster n Load K) (e : FifoEvent n Load K) : Decidable (c.LastReport e) := by
  unfold LastReport
  split
  · infer_instance
  · split <;> infer_instance

private theorem ne_zero_of_chan {c : FifoCluster n Load K}
    (hself : c.chan 0 0 = []) (hm : c.chan src 0 = m :: rest) : src ≠ 0 := by
  rintro rfl
  rw [hself] at hm
  cases hm

private theorem lastReport_of_two (h2 : n = 2) (c : FifoCluster n Load K) (hself : c.chan 0 0 = [])
    (ev : FifoEvent n Load K) : c.LastReport ev := by
  unfold LastReport
  split
  · trivial
  split
  · rename_i src dst env _ m rest hm
    rintro rfl - - - r hr hrs
    have hsrc := ne_zero_of_chan hself hm
    omega
  · trivial

/-- What holds of the reports along a run: a rank owes at most one report per epoch and none for an epoch that is not
open yet, and once an epoch has been evaluated nobody owes a report for it. -/
structure Inv (c : FifoCluster n Load K) : Prop where
  noSelf : c.chan 0 0 = []
  owedOnce : ∀ r ≠ 0, ∀ e, c.owed r e ≤ 1
  owedOpen : ∀ r ≠ 0, ∀ e, (c.bal 0).beatEpoch < e → c.owed r e = 0
  evalsOpen : ∀ e ∈ c.evals, e ≤ (c.bal 0).beatEpoch
  evalsOwed : ∀ e ∈ c.evals, ∀ r ≠ 0, c.owed r e = 0
  evalsOnce : c.evals.Nodup

variable [Sub K] [Div K] [Zero K] [LE K] [DecidableLE K] {c c' : FifoCluster n Load K} {cfg : Config n Load K}
  {env : Env n Load K}

def step (cfg : Config n Load K) (c : FifoCluster n Load K) : FifoEvent n Load K → Option (FifoCluster n Load K)
  | .tick env =>
    let r := sendHeartbeat 0 env (c.bal 0)
    some { c with bal := update c.bal 0 r.1, chan := post c.chan 0 r.2 }
  | .deliver src dst env =>
    match c.chan src dst with
    | [] => none
    | m :: _ =>
      let r := procMessage cfg dst env src m (c.bal dst)
      -- a message kept for a retry stays the first of its channel
      let chan := if keeps r.2 then c.chan else popChan c.chan src dst
      some {
        bal := update c.bal dst r.1
        chan := post chan dst r.2
        evals := if evaluates r.2 then (c.bal dst).beatEpoch :: c.evals else c.evals }

private theorem step_deliver (hs : c.step cfg (.deliver src dst env) = some c') :
    ∃ m rest, c.chan src dst = m :: rest ∧ c' =
      let out := (procMessage cfg dst env src m (c.bal dst)).2
      { bal := update c.bal dst (procMessage cfg dst env src m (c.bal dst)).1
        chan := post (if keeps out then c.chan else popChan c.chan src dst) dst out
        evals := if evaluates out then (c.bal dst).beatEpoch :: c.evals else c.evals } := by
  unfold step at hs
  dsimp only at hs
  split at hs
  · cases hs
  · rename_i m rest hm
    exact ⟨m, rest, hm, (Option.some.inj hs).symm⟩

private theorem owed_tick {c : FifoCluster n Load K} {c' : FifoCluster n Load K}
    (hs : c.step cfg (.tick env) = some c') {r : Fin n} (hr : r ≠ 0) (e : Int) :
    c'.owed r e = c.owed r e ∨
    (e = (c.bal 0).beatEpoch + 1 ∧ (c'.bal 0).beatEpoch = e ∧ c'.owed r e = c.owed r e + 1) := by
  cases hs
  have h1 : post c.chan 0 (sendHeartbeat 0 env (c.bal 0)).2 r 0 = c.chan r 0 := by
    rw [post, update_of_ne hr]
  have h2 : post c.chan 0 (sendHeartbeat 0 env (c.bal 0)).2 0 r
      = c.chan 0 r ++ posted (sendHeartbeat 0 env (c.bal 0)).2 r := by rw [post, update_self]
  simp only [owed, h1, h2]
  rcases posted_sendHeartbeat 0 r env (c.bal 0) with h | ⟨-, he, load, im, h⟩
  · left; simp [h]
  by_cases hb : (sendHeartbeat 0 env (c.bal 0)).1.beatEpoch = e
  · right
    simp [h, isHeartbeatOf, hb]
    omega
  · left
    simp [h, isHeartbeatOf, hb]

section
variable (hself : c.chan 0 0 = [])
include hself

private theorem owed_deliver (hs : c.step cfg (.deliver src dst env) = some c')
    {r : Fin n} (hr : r ≠ 0) (e : Int) : c'.owed r e ≤ c.owed r e := by
  obtain ⟨m, rest, hm, rfl⟩ := step_deliver hs
  set out := (procMessage cfg dst env src m (c.bal dst)).2 with hout
  set chan := if keeps out then c.chan else popChan c.chan src dst with hchan
  have hle : ∀ a b p, (chan a b).countP p ≤ (c.chan a b).countP p := by
    intro a b p
    rw [hchan]
    split
    · exact Nat.le_refl _
    · exact countP_popChan _ _ _ _ _ _
  unfold owed
  dsimp only
  by_cases hd : dst = 0
  · -- rank 0 is the receiver: its own messages are not heartbeats
    subst hd
    have hsrc := ne_zero_of_chan hself hm
    have h0 : (posted out r).countP (isHeartbeatOf e) = 0 := by
      rw [hout]
      cases m with
      | heartbeat m => simp [procMessage, posted_handleHeartbeat hsrc]
      | ifbeat m => exact (posted_handleIfbeat r).1 e
    have e1 : post chan 0 out r 0 = chan r 0 := by rw [post, update_of_ne hr]
    have e2 : post chan 0 out 0 r = chan 0 r ++ posted out r := by rw [post, update_self]
    rw [e1, e2, countP_append, h0, Nat.add_zero]
    exact Nat.add_le_add (hle _ _ _) (hle _ _ _)
  · have e2 : post chan dst out 0 r = chan 0 r := by rw [post, update_of_ne (Ne.symm hd)]
    rw [e2]
    by_cases hrd : r = dst
    · subst hrd
      have e1 : post chan r out r 0 = chan r 0 ++ posted out 0 := by rw [post, update_self]
      rw [e1, countP_append]
      have hnone : posted out 0 = [] →
          List.countP (isIfbeatOf e) (chan r 0) + List.countP (isIfbeatOf e) (posted out 0) +
            List.countP (isHeartbeatOf e) (chan 0 r) ≤
          List.countP (isIfbeatOf e) (c.chan r 0) + List.countP (isHeartbeatOf e) (c.chan 0 r) := by
        intro h
        rw [h, countP_nil, Nat.add_zero]
        exact Nat.add_le_add (hle _ _ _) (hle _ _ _)
      cases m with
      | ifbeat m => exact hnone (posted_handleIfbeat 0).2
      | heartbeat m =>
        by_cases hsrc : src = 0
        · subst hsrc
          by_cases hk : keeps out
          · exact hnone (handleHeartbeat_keeps hk 0)
          -- the heartbeat leaves the channel, the report enters it
          have hpop : chan 0 r = rest := by
            rw [hchan, ite_cond_eq_false _ _ (eq_false hk)]
            exact popChan_self hm
          have h1 : (posted (handleHeartbeat cfg r env 0 m (c.bal r)).2 0).countP (isIfbeatOf e) ≤
              if m.beat = e then 1 else 0 := posted_handleHeartbeat_zero hr e
          have h2 := hle r 0 (isIfbeatOf e)
          rw [hpop, hm, countP_cons]
          simp only [isHeartbeatOf, beq_iff_eq]
          rw [hout, procMessage]
          omega
        · exact hnone (posted_handleHeartbeat hsrc 0)
    · have e1 : post chan dst out r 0 = chan r 0 := by rw [post, update_of_ne hrd]
      rw [e1]
      exact Nat.add_le_add (hle _ _ _) (hle _ _ _)

private theorem owed_evaluate (hm : c.chan src dst = m :: rest) (hs : c.step cfg (.deliver src dst env) = some c')
    (he : evaluates (procMessage cfg dst env src m (c.bal dst)).2 = true) :
    src ≠ 0 ∧ dst = 0 ∧ ∃ m', m = .ifbeat m' ∧ env.accepts ∧ m'.beat = (c.bal 0).beatEpoch ∧
      ((c.bal 0).insertLoad src m'.load).numLoads = n ∧ c'.owed src m'.beat + 1 ≤ c.owed src m'.beat := by
  obtain ⟨m', rfl, rfl, hacc, hbeat, hfull, hk⟩ := evaluates_procMessage he
  have hsrc := ne_zero_of_chan hself hm
  refine ⟨hsrc, rfl, m', rfl, hacc, hbeat, hfull, ?_⟩
  simp only [step, hm, hk] at hs
  cases hs
  unfold owed
  dsimp only
  rw [post, update_of_ne hsrc, update_self]
  simp only [Bool.false_eq_true, ↓reduceIte]
  rw [popChan_self hm, hm, countP_append, procMessage, (posted_handleIfbeat src).1]
  have := countP_popChan c.chan src 0 0 src (isHeartbeatOf m'.beat)
  simp [isIfbeatOf]
  omega

private theorem beatEpoch_deliver (hs : c.step cfg (.deliver src dst env) = some c') :
    (c'.bal 0).beatEpoch = (c.bal 0).beatEpoch := by
  obtain ⟨m, rest, hm, rfl⟩ := step_deliver hs
  dsimp only
  by_cases hd : dst = 0
  · subst hd
    cases m with
    | heartbeat m => exact handleHeartbeat_beatEpoch (ne_zero_of_chan hself hm)
    | ifbeat m => exact handleIfbeat_beatEpoch cfg 0 env src m (c.bal 0)
  · rw [update_of_ne (Ne.symm hd)]

private theorem noSelf_step {e : FifoEvent n Load K} (hs : c.step cfg e = some c') : c'.chan 0 0 = [] := by
  cases e with
  | tick env =>
    cases hs
    rcases posted_sendHeartbeat 0 0 env (c.bal 0) with h | ⟨h, -⟩
    · simp [post, hself, h]
    · exact absurd rfl h
  | deliver src dst env =>
    obtain ⟨m, rest, hm, rfl⟩ := step_deliver hs
    have hpop : (if keeps (procMessage cfg dst env src m (c.bal dst)).2 then c.chan else popChan c.chan src dst) 0 0 = [] := by
      split
      · exact hself
      · have := countP_popChan c.chan src dst 0 0 fun _ => true
        simpa [hself] using this
    dsimp only
    by_cases hd : dst = 0
    · subst hd
      rw [post, update_self, hpop, nil_append]
      cases m with
      | heartbeat m => exact posted_handleHeartbeat (ne_zero_of_chan hself hm) 0
      | ifbeat m => exact (posted_handleIfbeat 0).2
    · rw [post, update_of_ne (Ne.symm hd), hpop]

end

/-- The invariant is kept by opening an epoch, and by every delivery whose evaluation is the last of its epoch. -/
theorem inv_step {ev : FifoEvent n Load K} (h : c.Inv) (hok : c.LastReport ev)
    (hs : c.step cfg ev = some c') : c'.Inv := by
  have hself := noSelf_step h.noSelf hs
  cases ev with
  | tick env =>
    have hmono : (c.bal 0).beatEpoch ≤ (c'.bal 0).beatEpoch := by
      cases hs
      simp only [update_self, sendHeartbeat]
      repeat' split
      all_goals simp only [MDBalancer.insertLoad]
      all_goals omega
    have hev : c'.evals = c.evals := by cases hs; rfl
    refine ⟨hself, ?_, ?_, ?_, ?_, hev ▸ h.evalsOnce⟩
    · intro r hr e
      rcases owed_tick hs hr e with he | ⟨he, -, ho⟩
      · rw [he]; exact h.owedOnce r hr e
      · rw [ho, h.owedOpen r hr e (by omega)]
    · intro r hr e hlt
      rcases owed_tick hs hr e with he | ⟨-, he, -⟩
      · rw [he]; exact h.owedOpen r hr e (by omega)
      · omega
    · intro e he
      exact (h.evalsOpen e (hev ▸ he)).trans hmono
    · intro e he r hr
      have hle := h.evalsOpen e (hev ▸ he)
      rcases owed_tick hs hr e with h' | ⟨h', -⟩
      · rw [h']; exact h.evalsOwed e (hev ▸ he) r hr
      · omega
  | deliver src dst env =>
    have hep := beatEpoch_deliver h.noSelf hs
    have hle : ∀ r ≠ 0, ∀ e, c'.owed r e ≤ c.owed r e := fun r hr e => owed_deliver h.noSelf hs hr e
    have howed : ∀ r ≠ 0, ∀ e, (c'.bal 0).beatEpoch < e → c'.owed r e = 0 := by
      intro r hr e he
      have := hle r hr e
      rw [h.owedOpen r hr e (by omega)] at this
      omega
    have hold : ∀ e ∈ c.evals, ∀ r ≠ 0, c'.owed r e = 0 := by
      intro e he r hr
      have := hle r hr e
      rw [h.evalsOwed e he r hr] at this
      omega
    obtain ⟨m, rest, hm, hc'⟩ := step_deliver hs
    by_cases hev : evaluates (procMessage cfg dst env src m (c.bal dst)).2 = true
    · obtain ⟨hsrc, rfl, m', rfl, hacc, hbeat, hfull, hpaid⟩ := owed_evaluate h.noSelf hm hs hev
      have hnew : c'.evals = m'.beat :: c.evals := by
        rw [hc', hbeat]
        exact if_pos hev
      have hzero : ∀ r ≠ 0, c'.owed r m'.beat = 0 := by
        intro r hr
        by_cases hrs : r = src
        · subst hrs
          have := h.owedOnce r hr m'.beat
          omega
        · simp only [LastReport, hm] at hok
          have := hle r hr m'.beat
          rw [hok trivial hacc hbeat hfull r hr hrs] at this
          omega
      have hfresh : m'.beat ∉ c.evals := by
        intro hmem
        have := h.evalsOwed _ hmem src hsrc
        omega
      refine ⟨hself, fun r hr e => (hle r hr e).trans (h.owedOnce r hr e), howed, ?_, ?_, ?_⟩
      · intro e he
        rw [hnew, mem_cons] at he
        rcases he with rfl | he
        · omega
        · exact (h.evalsOpen e he).trans hep.ge
      · intro e he
        rw [hnew, mem_cons] at he
        rcases he with rfl | he
        · exact hzero
        · exact hold e he
      · rw [hnew]
        exact nodup_cons.2 ⟨hfresh, h.evalsOnce⟩
    · have hnew : c'.evals = c.evals := by
        rw [hc']
        exact if_neg hev
      refine ⟨hself, fun r hr e => (hle r hr e).trans (h.owedOnce r hr e), howed, ?_, ?_, hnew ▸ h.evalsOnce⟩
      · intro e he
        exact (h.evalsOpen e (hnew ▸ he)).trans hep.ge
      · intro e he
        exact hold e (hnew ▸ he)

end FifoCluster

variable [NeZero n] [Sub K] [Div K] [Zero K] [LE K] [DecidableLE K]

/-- The imbalance factor is evaluated at most once per epoch in every run of two ranks, and in every run of a larger
cluster in which no evaluation happens while another rank owes a report of the epoch. -/
theorem evaluated_at_most_once (cfg : Config n Load K) (es : List (FifoEvent n Load K))
    (hok : n = 2 ∨ AllSteps (FifoCluster.step cfg) FifoCluster.LastReport {} es) :
    ∀ pre, pre <+: es → ∀ c, exec (FifoCluster.step cfg) {} pre = some c → c.evals.Nodup := by
  rintro pre ⟨suf, rfl⟩ c hc
  have hinit : ({} : FifoCluster n Load K).Inv := by
    refine ⟨rfl, ?_, ?_, ?_, ?_, nodup_nil⟩ <;> simp [FifoCluster.owed]
  rcases hok with h2 | hok
  · have : c.Inv := exec_invariant_all (I := FifoCluster.Inv)
      (fun s e t hs ht => FifoCluster.inv_step hs (FifoCluster.lastReport_of_two h2 s hs.noSelf e) ht) hinit hc
    exact this.evalsOnce
  · have : c.Inv := exec_invariant (I := FifoCluster.Inv)
      (fun s e t hs hl ht => FifoCluster.inv_step hs hl ht) hinit hok.of_append hc
    exact this.evalsOnce

def threeRanks : Config 3 Nat Int where
  mdsBalIfenable := true
  mdsBalInterval := 10
  simpleIfThreshold := 1
  noIf := -1
  reqRate := Int.ofNat
  calcMdsLoad := Int.ofNat
  decisionPhase := fun _ _ => ⟨[], none⟩

theorem evaluated_at_most_once_in_turn : let es : List (FifoEvent 3 Nat Int) :=
      [.tick (healthy 3 3), .deliver 0 1 (healthy 3 5), .deliver 1 0 (healthy 3 3), .deliver 1 0 (healthy 3 3),
        .deliver 0 2 (healthy 3 4), .deliver 2 0 (healthy 3 3), .deliver 2 0 (healthy 3 3)]
    AllSteps (FifoCluster.step threeRanks) FifoCluster.LastReport {} es ∧
    (exec (FifoCluster.step threeRanks) {} es).map (·.evals) = some [1] ∧
    ∀ c, exec (FifoCluster.step threeRanks) {} es = some c → c.evals.Nodup := by
  intro es
  have h : AllSteps (FifoCluster.step threeRanks) FifoCluster.LastReport {} es := by decide
  exact ⟨h, by decide, evaluated_at_most_once threeRanks es (.inr h) es (prefix_refl _)⟩

/-- Both heartbeats are delivered before the first report: each of the two reports triggers the evaluation. -/
theorem evaluated_twice :
    ¬ ∀ (es : List (FifoEvent 3 Nat Int)) c, exec (FifoCluster.step threeRanks) {} es = some c → c.evals.Nodup := by
  intro h
  have h2 := h [.tick (healthy 3 3), .deliver 0 1 (healthy 3 5), .deliver 0 2 (healthy 3 4),
    .deliver 1 0 (healthy 3 3), .deliver 2 0 (healthy 3 3), .deliver 1 0 (healthy 3 3), .deliver 2 0 (healthy 3 3)] _ rfl
  revert h2
  decide

end Lunule.Balancer
