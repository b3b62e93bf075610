import Lunule.Balancer.Gather

/-!
# What the handlers send

The effects of `handleHeartbeat` and `handleIfbeat` seen from the network: a heartbeat of rank 0 is answered with at
most one report in the epoch of the heartbeat, no other heartbeat is answered, and rank 0 answers an imbalance-factor
beat with beats for other ranks only. The imbalance factor is evaluated for an accepted beat of the current epoch that
finds a load of every rank.
-/

namespace Lunule.Balancer
open List Message
variable {n : Nat} {Load K : Type}

def Message.isIfbeatOf (e : Int) : Message n Load K → Bool
  | .ifbeat m => m.beat == e
  | .heartbeat _ => false

def Message.isHeartbeatOf (e : Int) : Message n Load K → Bool
  | .heartbeat m => m.beat == e
  | .ifbeat _ => false

variable (out : List (Effect n Load K))

def posted (target : Fin n) : List (Message n Load K) :=
  out.filterMap fun
    | .send t m => if t = target then some m else none
    | _ => none

def keeps : Bool :=
  out.any fun
    | .retryMessage => true
    | _ => false

def evaluates : Bool :=
  out.any fun
    | .evaluate _ => true
    | _ => false

@[simp] theorem posted_nil (t : Fin n) : posted ([] : List (Effect n Load K)) t = [] := rfl

private theorem posted_append (out out' : List (Effect n Load K)) (t : Fin n) :
    posted (out ++ out') t = posted out t ++ posted out' t := filterMap_append

private theorem posted_upOthers (env : Env n Load K) (whoami t : Fin n) (m : Message n Load K) :
    posted ((env.upOthers whoami).map fun p => .send p m) t = [] ∨
    (t ≠ whoami ∧ posted ((env.upOthers whoami).map fun p => .send p m) t = [m]) := by
  have hnd : (env.upOthers whoami).Nodup := (nodup_finRange n).filter _
  have hp : posted ((env.upOthers whoami).map fun p => Effect.send p m) t
      = List.replicate ((env.upOthers whoami).count t) m := by
    induction env.upOthers whoami with
    | nil => rfl
    | cons a l ih =>
      rw [map_cons, ← singleton_append, posted_append, ih, count_cons]
      by_cases ha : a = t <;> simp [posted, ha, replicate_succ]
  rw [hp]
  by_cases ht : t ∈ env.upOthers whoami
  · right
    rw [count_eq_one_of_mem hnd ht]
    refine ⟨?_, rfl⟩
    rintro rfl
    simp [Env.upOthers] at ht
  · left
    rw [count_eq_zero_of_not_mem ht]
    rfl

private theorem posted_sendIfbeat (target t : Fin n) (ifValue : K) (decision : List (MigrationDecision n K))
    (env : Env n Load K) (b : MDBalancer n Load K) :
    posted (sendIfbeat target ifValue decision env b) t = [] ∨
    (t = target ∧ ∃ load, posted (sendIfbeat target ifValue decision env b) t =
      [.ifbeat ⟨load, b.beatEpoch, ifValue, decision⟩]) := by
  unfold sendIfbeat
  split
  · left; rfl
  split
  · left; rfl
  split
  · by_cases ht : target = t
    · right; exact ⟨ht.symm, env.load, by simp [posted, ht]⟩
    · left; simp [posted, ht]
  · left; rfl

variable [NeZero n] {b : MDBalancer n Load K} {cfg : Config n Load K} {env : Env n Load K}
  {m : MHeartbeat n Load K} {whoami who : Fin n}

theorem posted_sendHeartbeat (whoami t : Fin n) (env : Env n Load K) (b : MDBalancer n Load K) :
    posted (sendHeartbeat whoami env b).2 t = [] ∨
    (t ≠ whoami ∧ (whoami = 0 → (sendHeartbeat whoami env b).1.beatEpoch = b.beatEpoch + 1) ∧
      ∃ load im, posted (sendHeartbeat whoami env b).2 t =
        [.heartbeat ⟨load, (sendHeartbeat whoami env b).1.beatEpoch, im⟩]) := by
  by_cases hd : env.isClusterDegraded
  · left; simp [sendHeartbeat, hd]
  by_cases ho : env.isOpen
  · rcases posted_upOthers env whoami t
      (.heartbeat ⟨env.load, (sendHeartbeat whoami env b).1.beatEpoch, env.importMap⟩) with h | ⟨h1, h2⟩
    · left
      simpa [sendHeartbeat, hd, ho] using h
    · right
      refine ⟨h1, fun h0 => by simp [sendHeartbeat, hd, ho, h0, MDBalancer.insertLoad], env.load, env.importMap, ?_⟩
      simpa [sendHeartbeat, hd, ho] using h2
  · left; simp [sendHeartbeat, hd, ho, posted]


private theorem posted_plan (plan : List ({r : Fin n // r ≠ 0} × K × List (MigrationDecision n K))) (env : Env n Load K)
    (b : MDBalancer n Load K) (t : Fin n) :
    (∀ e, (posted (plan.flatMap fun s => sendIfbeat s.1.1 s.2.1 s.2.2 env b) t).countP (isHeartbeatOf e) = 0) ∧
    posted (plan.flatMap fun s => sendIfbeat s.1.1 s.2.1 s.2.2 env b) 0 = [] := by
  induction plan with
  | nil => simp
  | cons s plan ih =>
    simp only [flatMap_cons, posted_append, countP_append, ih.1, ih.2, append_nil]
    constructor
    · intro e
      rcases posted_sendIfbeat s.1.1 t s.2.1 s.2.2 env b with h | ⟨-, load, h⟩
      · simp [h]
      · simp [h, isHeartbeatOf]
    · rcases posted_sendIfbeat s.1.1 0 s.2.1 s.2.2 env b with h | ⟨h0, -⟩
      · exact h
      · exact absurd h0.symm s.1.2

theorem posted_handleHeartbeat (hw : who ≠ 0) (t : Fin n) :
    posted (handleHeartbeat cfg whoami env who m b).2 t = [] := by
  unfold handleHeartbeat fileHeartbeat
  dsimp only
  repeat' split
  all_goals simp [posted]

private theorem posted_answerHeartbeat {whoami : Fin n} (h0 : whoami ≠ 0) (e : Int) :
    (posted (answerHeartbeat cfg whoami env m b).2 0).countP (isIfbeatOf e) ≤ if m.beat = e then 1 else 0 := by
  have hhb : ∀ b', (posted (sendHeartbeat whoami env b').2 0).countP (isIfbeatOf e) = 0 := by
    intro b'
    rcases posted_sendHeartbeat whoami 0 env b' with h | ⟨-, -, load, im, h⟩
    · simp [h]
    · simp [h, isIfbeatOf]
  have hif : ∀ b' : MDBalancer n Load K, b'.beatEpoch = m.beat →
      (posted (sendIfbeat 0 cfg.noIf [] env b') 0).countP (isIfbeatOf e) ≤ if m.beat = e then 1 else 0 := by
    intro b' hb'
    rcases posted_sendIfbeat (0 : Fin n) 0 cfg.noIf [] env b' with h | ⟨-, load, h⟩
    · simp [h]
    · by_cases he : m.beat = e <;> simp [h, hb', isIfbeatOf]
  unfold answerHeartbeat
  rw [posted_append, countP_append, hhb, Nat.zero_add]
  exact hif _ (sendHeartbeat_beatEpoch h0 env _)

private theorem mem_handleHeartbeat {x : Effect n Load K} (h : x ∈ (handleHeartbeat cfg whoami env who m b).2) :
    (handleHeartbeat cfg whoami env who m b).2 = [.retryMessage] ∨ (∃ t m', x = .send t m') ∨ x = .retryHeartbeat ∨
    (∃ t v d, x = .retryIfbeat t v d) ∨ x = .prepRebalance m.beat := by
  have hfile : ∀ b', x ∈ (fileHeartbeat cfg env who m b').2 → x = .prepRebalance m.beat := by
    intro b' hx
    unfold fileHeartbeat at hx
    dsimp only at hx
    split at hx <;> simp_all
  have hif : ∀ (t : Fin n) (b' : MDBalancer n Load K), x ∈ sendIfbeat t cfg.noIf [] env b' →
      (∃ t m', x = .send t m') ∨ ∃ t v d, x = .retryIfbeat t v d := by
    intro t b' hx
    unfold sendIfbeat at hx
    repeat' split at hx
    all_goals simp_all
  have hhb : ∀ b', x ∈ (sendHeartbeat whoami env b').2 → (∃ t m', x = .send t m') ∨ x = .retryHeartbeat := by
    intro b' hx
    unfold sendHeartbeat at hx
    split at hx
    · simp at hx
    split at hx
    · right; simpa using hx
    · left
      obtain ⟨t, -, ht⟩ := mem_map.1 hx
      exact ⟨t, _, ht.symm⟩
  unfold handleHeartbeat at h ⊢
  split at h
  · simp at h
  split at h
  · left; simp_all
  split at h
  · simp at h
  right
  rcases mem_append.1 h with h | h
  · split at h
    · unfold answerHeartbeat at h
      rcases mem_append.1 h with h | h
      · rcases hhb _ h with h | h
        · exact .inl h
        · exact .inr (.inl h)
      · rcases hif _ _ h with h | h
        · exact .inl h
        · exact .inr (.inr (.inl h))
    · simp at h
  · exact .inr (.inr (.inr (hfile _ h)))

theorem handleHeartbeat_keeps (h : keeps (handleHeartbeat cfg whoami env who m b).2 = true) (t : Fin n) :
    posted (handleHeartbeat cfg whoami env who m b).2 t = [] := by
  obtain ⟨x, hx, hk⟩ := any_eq_true.1 h
  rcases mem_handleHeartbeat hx with h | ⟨t, m', rfl⟩ | rfl | ⟨t, v, d, rfl⟩ | rfl
  · rw [h]; rfl
  all_goals simp at hk

theorem handleHeartbeat_beatEpoch {who : Fin n} (hw : who ≠ 0) :
    (handleHeartbeat cfg 0 env who m b).1.beatEpoch = b.beatEpoch := by
  unfold handleHeartbeat
  repeat' split
  all_goals try rfl
  rw [(fileHeartbeat_fst cfg env who m _).1]
  simp [noteEpoch]

theorem posted_handleHeartbeat_zero {whoami : Fin n} (h0 : whoami ≠ 0) (e : Int) :
    (posted (handleHeartbeat cfg whoami env 0 m b).2 0).countP (isIfbeatOf e) ≤ if m.beat = e then 1 else 0 := by
  unfold handleHeartbeat
  split
  · simp
  split
  · simp [posted]
  split
  · simp
  have hfile : ∀ b', posted (fileHeartbeat cfg env 0 m b').2 0 = [] := by
    intro b'
    unfold fileHeartbeat
    dsimp only
    split <;> simp [posted]
  simp only [posted_append, hfile, append_nil]
  exact posted_answerHeartbeat h0 e

variable [Sub K] [Div K] [Zero K]

private theorem posted_evaluateIf (cfg : Config n Load K) (env : Env n Load K) (b : MDBalancer n Load K) (t : Fin n) :
    (∀ e, (posted (evaluateIf cfg env b).2 t).countP (isHeartbeatOf e) = 0) ∧
    posted (evaluateIf cfg env b).2 0 = [] := by
  have hown : ∀ (own : Option (List (MigrationDecision n K))) (t : Fin n),
      posted ((own.map (Effect.simpleDetermineRebalance : _ → Effect n Load K)).toList) t = [] := by
    intro own t
    cases own <;> rfl
  have hcons : ∀ (iops : Fin n → K) (l : List (Effect n Load K)) (t : Fin n),
      posted (.evaluate iops :: l) t = posted l t := fun _ _ _ => rfl
  unfold evaluateIf
  simp only [hcons, posted_append, hown, append_nil]
  exact posted_plan _ env _ t

private theorem keeps_evaluateIf (cfg : Config n Load K) (env : Env n Load K) (b : MDBalancer n Load K) :
    keeps (evaluateIf cfg env b).2 = false := by
  have hsend : ∀ (t : Fin n) (v : K) (d : List (MigrationDecision n K)) (b' : MDBalancer n Load K),
      keeps (sendIfbeat t v d env b') = false := by
    intro t v d b'
    unfold sendIfbeat
    repeat' split
    all_goals rfl
  unfold evaluateIf
  simp only [keeps, any_append, any_cons, any_flatMap, Bool.false_or, Bool.or_eq_false_iff]
  constructor
  · rw [any_eq_false]
    intro s _
    simpa [keeps] using hsend s.1.1 s.2.1 s.2.2 _
  · cases (cfg.decisionPhase (iopsOf cfg b) fun i => ((b.mdsLoad i).map cfg.calcMdsLoad).getD 0).own <;> rfl

variable [LE K] [DecidableLE K]

theorem posted_handleIfbeat {m : MIFBeat n Load K} (t : Fin n) :
    (∀ e, (posted (handleIfbeat cfg whoami env who m b).2 t).countP (isHeartbeatOf e) = 0) ∧
    posted (handleIfbeat cfg whoami env who m b).2 0 = [] := by
  unfold handleIfbeat
  dsimp only
  split
  · simp
  split
  · simp [posted]
  split
  · simp
  split
  · split
    · simp
    · split
      · exact posted_evaluateIf cfg env _ t
      · simp
  · split <;> simp [posted]

/-- Only an accepted beat of the current epoch that completes the loads of rank 0 triggers the evaluation. -/
theorem evaluates_procMessage {m : Message n Load K} (h : evaluates (procMessage cfg whoami env who m b).2 = true) :
    ∃ m', m = .ifbeat m' ∧ whoami = 0 ∧ env.accepts ∧ m'.beat = b.beatEpoch ∧
      (b.insertLoad who m'.load).numLoads = n ∧ keeps (procMessage cfg whoami env who m b).2 = false := by
  cases m with
  | heartbeat m =>
    obtain ⟨x, hx, he⟩ := any_eq_true.1 h
    rcases mem_handleHeartbeat hx with h | ⟨t, m', rfl⟩ | rfl | ⟨t, v, d, rfl⟩ | rfl
    · rw [procMessage, h] at hx
      rw [mem_singleton.1 hx] at he
      simp at he
    all_goals simp at he
  | ifbeat m =>
    refine ⟨m, rfl, ?_⟩
    unfold procMessage handleIfbeat at h ⊢
    dsimp only at h ⊢
    split at h
    · simp [evaluates] at h
    split at h
    · simp [evaluates] at h
    split at h
    · simp [evaluates] at h
    split at h
    · split at h
      · simp [evaluates] at h
      split at h
      · rename_i h1 h2 h3 h4 h5 h6
        simp only [h1, h2, h3, h4, h5, h6]
        refine ⟨trivial, by simp_all [Env.accepts], by simpa using h5, trivial, keeps_evaluateIf cfg env _⟩
      · simp [evaluates] at h
    · split at h <;> simp [evaluates] at h

end Lunule.Balancer
