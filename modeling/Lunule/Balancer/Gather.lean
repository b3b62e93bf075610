import Lunule.Lib.Exec
import Lunule.Balancer.Basic

/-!
# Load gathering over an arbitrary network

Every rank runs `MDBalancer`; the messages in flight form a bag from which any one may be delivered next, so a beat can
be delayed across epochs. A rank's loads *agree* when every load it holds of another rank was reported by that rank in
a beat of the epoch the rank is in. `handleIfbeat` checks the epoch of a beat before it inserts the load,
`handleHeartbeat` does not: a heartbeat of a past epoch is inserted all the same. Runs without such a delivery keep
the loads of one epoch together.
-/

namespace Lunule.Balancer
open Exec Function MDBalancer
variable {n : Nat} {Load K : Type} {b : MDBalancer n Load K}

/-! ### What a handler does to the loads -/

private theorem MDBalancer.numLoads_eq_iff : b.numLoads = n ↔ ∀ r, (b.mdsLoad r).isSome := by
  unfold numLoads
  conv_lhs => rhs; rw [← Fintype.card_fin n]
  rw [Finset.card_eq_iff_eq_univ, Finset.filter_eq_self]
  simp

private theorem MDBalancer.fillLoads_of_full (h : b.numLoads = n) (fresh : Load) : b.fillLoads fresh = b := by
  have hfull := numLoads_eq_iff.1 h
  have : (fun r => some ((b.mdsLoad r).getD fresh)) = b.mdsLoad := by
    funext r
    obtain ⟨l, hl⟩ := Option.isSome_iff_exists.1 (hfull r)
    simp [hl]
  simp [fillLoads, this]

private theorem MDBalancer.insertLoad_mdsLoad {who r : Fin n} {load l : Load}
    (h : (b.insertLoad who load).mdsLoad r = some l) : b.mdsLoad r = some l ∨ (r = who ∧ l = load) := by
  simp only [insertLoad, update_apply] at h
  split at h
  · rename_i hr
    subst hr
    cases hb : b.mdsLoad r with
    | some l' => left; simpa [hb] using h
    | none => right; exact ⟨rfl, by simpa [hb] using h.symm⟩
  · exact .inl h

variable [NeZero n] {m : MHeartbeat n Load K} {cfg : Config n Load K} {env : Env n Load K} {whoami r : Fin n}
  {l : Load}

theorem fileHeartbeat_fst (cfg : Config n Load K) (env : Env n Load K) (who : Fin n) (m : MHeartbeat n Load K)
    (b : MDBalancer n Load K) :
    (fileHeartbeat cfg env who m b).1.beatEpoch = b.beatEpoch ∧
    (fileHeartbeat cfg env who m b).1.mdsLoad = update b.mdsLoad who (some m.load) := by
  unfold fileHeartbeat
  dsimp only
  split
  · rename_i hfull
    rw [fillLoads_of_full hfull.2]
    exact ⟨rfl, rfl⟩
  · exact ⟨rfl, rfl⟩

theorem sendHeartbeat_beatEpoch {whoami : Fin n} (h0 : whoami ≠ 0) (env : Env n Load K) (b : MDBalancer n Load K) :
    (sendHeartbeat whoami env b).1.beatEpoch = b.beatEpoch := by
  unfold sendHeartbeat
  split
  · rfl
  · split
    · rfl
    · simp only [insertLoad]

private theorem sendHeartbeat_mdsLoad (hr : r ≠ whoami) (h : (sendHeartbeat whoami env b).1.mdsLoad r = some l) :
    b.mdsLoad r = some l ∧ (sendHeartbeat whoami env b).1.beatEpoch = b.beatEpoch := by
  by_cases h0 : whoami = 0
  · unfold sendHeartbeat at h ⊢
    by_cases hd : env.isClusterDegraded
    · simpa [hd] using h
    · by_cases ho : env.isOpen
      · simp [hd, ho, h0, insertLoad, update_of_ne (h0 ▸ hr)] at h
      · simpa [hd, ho] using h
  · refine ⟨?_, sendHeartbeat_beatEpoch h0 env b⟩
    unfold sendHeartbeat at h
    split at h
    · exact h
    · split at h
      · exact h
      · simpa [insertLoad, update_of_ne hr] using h

private theorem answerHeartbeat_mdsLoad (hr : r ≠ whoami)
    (h : (answerHeartbeat cfg whoami env m b).1.mdsLoad r = some l) :
    b.mdsLoad r = some l ∧ (answerHeartbeat cfg whoami env m b).1.beatEpoch = b.beatEpoch := by
  obtain ⟨h1, h2⟩ := sendHeartbeat_mdsLoad hr h
  by_cases hb : b.beatEpoch = m.beat
  · exact ⟨by simpa [hb] using h1, h2.trans hb.symm⟩
  · simp [hb, clearLoad] at h1

/-- A heartbeat that reaches `whoami` in a state in which `handleHeartbeat` files it under its own epoch: at rank 0 a
beat of the current epoch, elsewhere a beat of rank 0 or one that is not older than the current epoch. -/
def MDBalancer.Timely (b : MDBalancer n Load K) (whoami who : Fin n) (m : MHeartbeat n Load K) : Prop :=
  if whoami = 0 then m.beat = b.beatEpoch else who = 0 ∨ b.beatEpoch ≤ m.beat

instance (b : MDBalancer n Load K) (whoami who : Fin n) (m : MHeartbeat n Load K) : Decidable (b.Timely whoami who m) :=
  inferInstanceAs (Decidable (if whoami = 0 then m.beat = b.beatEpoch else who = 0 ∨ b.beatEpoch ≤ m.beat))

private theorem noteEpoch_mdsLoad (h : (noteEpoch whoami m b).mdsLoad r = some l) :
    b.mdsLoad r = some l ∧ (noteEpoch whoami m b).beatEpoch = b.beatEpoch := by
  unfold noteEpoch at h ⊢
  split at h
  · simp [clearLoad] at h
  · rename_i hc
    rw [ite_cond_eq_false _ _ (eq_false hc)]
    exact ⟨h, rfl⟩

private theorem noteEpoch_beatEpoch {whoami who : Fin n} (ht : b.Timely whoami who m) (hw : who ≠ 0) :
    (noteEpoch whoami m b).beatEpoch = m.beat := by
  unfold MDBalancer.Timely at ht
  unfold noteEpoch
  by_cases h0 : whoami = 0
  · simp only [h0, ↓reduceIte] at ht
    simp [ht]
  simp only [h0, ↓reduceIte] at ht
  split
  · rfl
  · rename_i hc
    omega

private theorem handleHeartbeat_mdsLoad {whoami who r : Fin n} (hr : r ≠ whoami)
    (h : (handleHeartbeat cfg whoami env who m b).1.mdsLoad r = some l) :
    (b.mdsLoad r = some l ∧ (handleHeartbeat cfg whoami env who m b).1.beatEpoch = b.beatEpoch) ∨
    (env.accepts ∧ r = who ∧ l = m.load ∧
      (b.Timely whoami who m → (handleHeartbeat cfg whoami env who m b).1.beatEpoch = m.beat)) := by
  unfold handleHeartbeat at h ⊢
  split at h
  · left; simp_all
  split at h
  · left; simp_all
  split at h
  · left; simp_all
  rename_i h1 h2 h3
  have hacc : env.accepts := by simp_all [Env.accepts]
  simp only [h1, h2, h3, ↓reduceIte, Bool.false_eq_true] at h ⊢
  obtain ⟨he, hl⟩ := fileHeartbeat_fst cfg env who m
    (if who = 0 then answerHeartbeat cfg whoami env m (noteEpoch whoami m b) else (noteEpoch whoami m b, [])).1
  rw [hl, update_apply] at h
  rw [he]
  by_cases hrw : r = who
  · right
    subst hrw
    refine ⟨hacc, rfl, by simpa using h.symm, fun ht => ?_⟩
    by_cases hw : r = 0
    · -- rank 0 does not report to itself, so the receiver takes over its epoch
      simp only [hw, ↓reduceIte, answerHeartbeat]
      rw [sendHeartbeat_beatEpoch (fun h0 => hr (hw.trans h0.symm))]
    · simp only [hw]
      exact noteEpoch_beatEpoch ht hw
  · left
    rw [ite_cond_eq_false _ _ (eq_false hrw)] at h
    by_cases hw : who = 0
    · simp only [hw] at h ⊢
      obtain ⟨ha, hb⟩ := answerHeartbeat_mdsLoad hr h
      obtain ⟨hc, hd⟩ := noteEpoch_mdsLoad ha
      exact ⟨hc, hb.trans hd⟩
    · simp only [hw] at h ⊢
      exact noteEpoch_mdsLoad h

variable [Sub K] [Div K] [Zero K]

private theorem evaluateIf_fst (cfg : Config n Load K) (env : Env n Load K) (b : MDBalancer n Load K) :
    (evaluateIf cfg env b).1 = { b with oldReq := fun i => (b.mdsLoad i).map cfg.reqRate } := rfl

variable [LE K] [DecidableLE K] (cfg)

private theorem handleIfbeat_cases (whoami : Fin n) (env : Env n Load K) (who : Fin n)
    (m : MIFBeat n Load K) (b : MDBalancer n Load K) :
    (handleIfbeat cfg whoami env who m b).1 = b ∨
    (env.accepts ∧ whoami = 0 ∧ m.beat = b.beatEpoch ∧
      (handleIfbeat cfg whoami env who m b).1.beatEpoch = b.beatEpoch ∧
      (handleIfbeat cfg whoami env who m b).1.mdsLoad = (b.insertLoad who m.load).mdsLoad) := by
  unfold handleIfbeat
  by_cases hacc : env.accepts
  · have hacc' := hacc
    simp only [Env.accepts, Bool.and_eq_true, Bool.not_eq_true'] at hacc'
    obtain ⟨⟨h1, h2⟩, h3⟩ := hacc'
    simp only [h1, h2, h3, Bool.not_true, Bool.false_eq_true]
    by_cases h0 : whoami = 0
    · by_cases hb : m.beat = b.beatEpoch
      · right
        simp only [h0, hb, ne_eq, not_true_eq_false, ↓reduceIte]
        refine ⟨hacc, trivial, trivial, ?_⟩
        split
        · rw [evaluateIf_fst]
          exact ⟨rfl, rfl⟩
        · exact ⟨rfl, rfl⟩
      · left; simp [h0, hb]
    · left; simp only [h0, ↓reduceIte]; split <;> rfl
  · left
    simp only [Env.accepts, Bool.and_eq_true, Bool.not_eq_true', not_and] at hacc
    split
    · rfl
    split
    · rfl
    · rename_i h1 h2
      simp at h1 h2
      simp [hacc ⟨h1, h2⟩]

theorem handleIfbeat_beatEpoch (whoami : Fin n) (env : Env n Load K) (who : Fin n)
    (m : MIFBeat n Load K) (b : MDBalancer n Load K) :
    (handleIfbeat cfg whoami env who m b).1.beatEpoch = b.beatEpoch := by
  rcases handleIfbeat_cases cfg whoami env who m b with h | ⟨-, -, -, h, -⟩
  · rw [h]
  · exact h

/-! ### The cluster -/

structure Packet (n : Nat) (Load K : Type) where
  src : Fin n
  dst : Fin n
  msg : Message n Load K

def packets (src : Fin n) (out : List (Effect n Load K)) : List (Packet n Load K) :=
  out.filterMap fun
    | .send target m => some ⟨src, target, m⟩
    | _ => none

def retries (p : Packet n Load K) (out : List (Effect n Load K)) : List (Packet n Load K) :=
  out.filterMap fun
    | .retryMessage => some p
    | _ => none

/-- All ranks with the messages in flight. `handled` is the history of the beats each rank accepted. -/
structure Cluster (n : Nat) (Load K : Type) where
  bal : Fin n → MDBalancer n Load K := fun _ => {}
  net : List (Packet n Load K) := []
  handled : Fin n → List (Packet n Load K) := fun _ => []

/-- The cluster moves when rank 0 opens an epoch in `tick`, or when some message in flight is delivered. -/
inductive Event (n : Nat) (Load K : Type)
  | tick (env : Env n Load K)
  | deliver (i : Nat) (env : Env n Load K)

variable (c : Cluster n Load K)

/-- Delivery of a packet, which has been taken from the network. -/
def Cluster.dispatch (p : Packet n Load K) (env : Env n Load K)
    (net : List (Packet n Load K)) : Cluster n Load K :=
  let r := procMessage cfg p.dst env p.src p.msg (c.bal p.dst)
  { bal := update c.bal p.dst r.1
    net := net ++ packets p.dst r.2 ++ retries p r.2
    handled := if env.accepts then update c.handled p.dst (p :: c.handled p.dst) else c.handled }

def Cluster.step : Event n Load K → Option (Cluster n Load K)
  | .tick env =>
    let r := sendHeartbeat 0 env (c.bal 0)
    some { c with bal := update c.bal 0 r.1, net := c.net ++ packets 0 r.2 }
  | .deliver i env => (c.net[i]?).map fun p => c.dispatch cfg p env (c.net.eraseIdx i)

variable {cfg}

/-- Every load rank `i` holds of another rank `r` was reported by `r` in a beat of the epoch rank `i` is in. -/
def Cluster.Agree : Prop :=
  ∀ i r, r ≠ i → ∀ l, (c.bal i).mdsLoad r = some l →
    ∃ p ∈ c.handled i, p.src = r ∧ p.msg.load = l ∧ p.msg.beat = (c.bal i).beatEpoch

/-- The step does not deliver a heartbeat outside the epoch it is filed under. -/
def Cluster.Timely (c : Cluster n Load K) : Event n Load K → Prop
  | .tick _ => True
  | .deliver i env =>
    match c.net[i]? with
    | some ⟨src, dst, .heartbeat m⟩ => env.accepts → (c.bal dst).Timely dst src m
    | _ => True

instance (c : Cluster n Load K) (e : Event n Load K) : Decidable (c.Timely e) := by
  unfold Cluster.Timely
  split
  · infer_instance
  · split <;> infer_instance

namespace Cluster

private theorem dispatch_agree {c : Cluster n Load K} {p : Packet n Load K} {net : List (Packet n Load K)}
    (h : c.Agree) (ht : ∀ m, p.msg = .heartbeat m → env.accepts → (c.bal p.dst).Timely p.dst p.src m) :
    (c.dispatch cfg p env net).Agree := by
  intro i r hr l hl
  have hmono : ∀ j, ∀ q ∈ c.handled j, q ∈ (c.dispatch cfg p env net).handled j := by
    intro j q hq
    unfold dispatch
    split
    · by_cases hj : j = p.dst
      · subst hj; simp [hq]
      · simpa [update_of_ne hj] using hq
    · exact hq
  have hnew : env.accepts → p ∈ (c.dispatch cfg p env net).handled p.dst := by
    intro ha
    simp [dispatch, ha]
  by_cases hi : i = p.dst
  · subst hi
    have hbal : (c.dispatch cfg p env net).bal p.dst
        = (procMessage cfg p.dst env p.src p.msg (c.bal p.dst)).1 := by simp [dispatch]
    rw [hbal] at hl ⊢
    -- a load that was there keeps its report as long as the epoch stays
    have hold : (c.bal p.dst).mdsLoad r = some l →
        (procMessage cfg p.dst env p.src p.msg (c.bal p.dst)).1.beatEpoch = (c.bal p.dst).beatEpoch →
        ∃ q ∈ (c.dispatch cfg p env net).handled p.dst, q.src = r ∧ q.msg.load = l ∧
          q.msg.beat = (procMessage cfg p.dst env p.src p.msg (c.bal p.dst)).1.beatEpoch := by
      intro h1 h2
      obtain ⟨q, hq, ha, hb, hc⟩ := h p.dst r hr l h1
      exact ⟨q, hmono _ q hq, ha, hb, hc.trans h2.symm⟩
    cases hm : p.msg with
    | heartbeat m =>
      simp only [procMessage, hm] at hl hold ⊢
      rcases handleHeartbeat_mdsLoad hr hl with ⟨h1, h2⟩ | ⟨hacc, hw, hload, hep⟩
      · exact hold h1 h2
      · refine ⟨p, hnew hacc, hw.symm, ?_, ?_⟩
        · rw [hm]; exact hload.symm
        · rw [hm, hep (ht m hm hacc)]; rfl
    | ifbeat m =>
      simp only [procMessage, hm] at hl hold ⊢
      have he := handleIfbeat_beatEpoch cfg p.dst env p.src m (c.bal p.dst)
      rcases handleIfbeat_cases cfg p.dst env p.src m (c.bal p.dst) with h1 | ⟨hacc, -, hbeat, -, h2⟩
      · rw [h1] at hl
        exact hold hl he
      rw [h2] at hl
      rcases insertLoad_mdsLoad hl with h1 | ⟨hw, hload⟩
      · exact hold h1 he
      · refine ⟨p, hnew hacc, hw.symm, ?_, ?_⟩
        · rw [hm]; exact hload.symm
        · rw [hm, he]; exact hbeat
  · have hbal : (c.dispatch cfg p env net).bal i = c.bal i := by
      simp [dispatch, update_of_ne hi]
    rw [hbal] at hl ⊢
    obtain ⟨q, hq, ha⟩ := h i r hr l hl
    exact ⟨q, hmono i q hq, ha⟩

private theorem step_agree {c c' : Cluster n Load K} {e : Event n Load K} (h : c.Agree) (ht : c.Timely e)
    (hs : c.step cfg e = some c') : c'.Agree := by
  cases e with
  | tick env =>
    cases hs
    intro i r hr l hl
    by_cases hi : i = 0
    · subst hi
      obtain ⟨h1, h2⟩ := sendHeartbeat_mdsLoad hr hl
      obtain ⟨q, hq, ha, hb, hc⟩ := h 0 r hr l h1
      exact ⟨q, hq, ha, hb, hc.trans h2.symm⟩
    · simp only [update_of_ne hi] at hl ⊢
      exact h i r hr l hl
  | deliver k env =>
    simp only [step, Option.map_eq_some_iff] at hs
    obtain ⟨⟨src, dst, msg⟩, hp, rfl⟩ := hs
    refine dispatch_agree h fun m hm hacc => ?_
    obtain rfl : msg = .heartbeat m := hm
    simp only [Cluster.Timely, hp] at ht
    exact ht hacc

end Cluster

/-- In every run in which each heartbeat is delivered in the epoch it is filed under, the loads agree in every state
that is reached. -/
theorem loads_agree_of_timely (cfg : Config n Load K) (es : List (Event n Load K))
    (ht : AllSteps (Cluster.step cfg) Cluster.Timely {} es) :
    ∀ pre, pre <+: es → ∀ c, exec (Cluster.step cfg) {} pre = some c → c.Agree := by
  rintro pre ⟨suf, rfl⟩ c hc
  refine exec_invariant (I := Cluster.Agree) (fun s e t hs hok hst => Cluster.step_agree hs hok hst) ?_
    ht.of_append hc
  intro i r _ l hl
  simp at hl

def twoRanks : Config 2 Nat Int where
  mdsBalIfenable := true
  mdsBalInterval := 10
  simpleIfThreshold := 1
  noIf := -1
  reqRate := Int.ofNat
  calcMdsLoad := Int.ofNat
  decisionPhase := fun _ _ => ⟨[], none⟩

def healthy (n load : Nat) : Env n Nat Int := ⟨true, true, false, fun _ => true, load, fun _ => none⟩

theorem loads_agree_of_timely_epoch : AllSteps (Cluster.step twoRanks) Cluster.Timely {}
      [.tick (healthy 2 3), .deliver 0 (healthy 2 5), .deliver 0 (healthy 2 3)] ∧
    ∀ c, exec (Cluster.step twoRanks) {} [.tick (healthy 2 3), .deliver 0 (healthy 2 5), .deliver 0 (healthy 2 3)] = some c →
      c.Agree :=
  have h : AllSteps (Cluster.step twoRanks) Cluster.Timely {}
      [.tick (healthy 2 3), .deliver 0 (healthy 2 5), .deliver 0 (healthy 2 3)] := by decide
  ⟨h, loads_agree_of_timely twoRanks _ h _ (List.prefix_refl _)⟩

/-- The heartbeat of rank 1 for the first epoch reaches rank 0 after it has opened the second one. -/
theorem late_heartbeat_disagrees :
    ¬ ∀ (es : List (Event 2 Nat Int)) c, exec (Cluster.step twoRanks) {} es = some c → c.Agree := by
  intro h
  have hlate := h [.tick (healthy 2 3), .deliver 0 (healthy 2 5), .tick (healthy 2 4), .deliver 0 (healthy 2 4)] _ rfl
  obtain ⟨p, hp, -, -, hbeat⟩ := hlate 0 1 (by decide) 5 rfl
  revert hbeat
  revert p
  decide

end Lunule.Balancer
