import Mathlib

/-!
# The balancer of one rank

The per-epoch load gathering of `MDBalancer`: rank 0 opens an epoch with `sendHeartbeat`, every other rank answers with
its own heartbeat and an imbalance-factor beat, and `handleHeartbeat` and `handleIfbeat` collect the loads in `mdsLoad`.
The handlers are pure functions: they take the balancer, what the rank sees of its surroundings at the call (`Env`) and
the message, and return the new balancer with the list of effects.

The cluster has `n` ranks, all in the map, so `get_num_in_mds()` is `n` and a rank is a `Fin n`. Loads and their
numbers are left abstract (`Load`, `K`); the part of the imbalance-factor block that turns the IOPS and load vectors
into migration decisions is the field `decisionPhase` of the configuration.
-/

namespace Lunule.Balancer

/-- `migration_decision_t`. -/
structure MigrationDecision (n : Nat) (K : Type) where
  targetImportMds : Fin n
  targetExportLoad : K
  targetExportPercent : K
  deriving DecidableEq

structure MHeartbeat (n : Nat) (Load K : Type) where
  load : Load
  beat : Int
  importMap : Fin n → Option K
  deriving DecidableEq

structure MIFBeat (n : Nat) (Load K : Type) where
  load : Load
  beat : Int
  ifValue : K
  decision : List (MigrationDecision n K)
  deriving DecidableEq

inductive Message (n : Nat) (Load K : Type)
  | heartbeat (m : MHeartbeat n Load K)
  | ifbeat (m : MIFBeat n Load K)
  deriving DecidableEq

def Message.load {n : Nat} {Load K : Type} : Message n Load K → Load
  | .heartbeat m => m.load
  | .ifbeat m => m.load

def Message.beat {n : Nat} {Load K : Type} : Message n Load K → Int
  | .heartbeat m => m.beat
  | .ifbeat m => m.beat

/-- The per-epoch state of `MDBalancer`. -/
structure MDBalancer (n : Nat) (Load K : Type) where
  beatEpoch : Int := 0
  mdsLoad : Fin n → Option Load := fun _ => none
  mdsImportMap : Fin n → Option (Fin n → Option K) := fun _ => none
  oldReq : Fin n → Option K := fun _ => none

/-- What a handler reads from its `MDSRank` and `MDCache` at the time of the call. -/
structure Env (n : Nat) (Load K : Type) where
  isActive : Bool
  isOpen : Bool
  isClusterDegraded : Bool
  up : Fin n → Bool
  load : Load
  importMap : Fin n → Option K

/-- Beats are handled: the rank is active, its cache is open and the cluster is not degraded. -/
def Env.accepts {n : Nat} {Load K : Type} (env : Env n Load K) : Bool :=
  env.isActive && env.isOpen && !env.isClusterDegraded

/-- What the decision phase of `handle_ifbeat` does with the vectors: the imbalance-factor beats it sends, and the
decisions rank 0 runs itself. The first entry of `my_imbalance_vector` stays in place when the rest is sorted, so rank
0 never sends a beat to itself. -/
structure DecisionPlan (n : Nat) [NeZero n] (K : Type) where
  sends : List ({r : Fin n // r ≠ 0} × K × List (MigrationDecision n K))
  own : Option (List (MigrationDecision n K))

/-- The configuration and the cache queries the handlers use. -/
structure Config (n : Nat) [NeZero n] (Load K : Type) where
  mdsBalIfenable : Bool
  mdsBalInterval : K
  simpleIfThreshold : K
  /-- The value `-1` that marks an imbalance-factor beat as a report. -/
  noIf : K
  reqRate : Load → K
  calcMdsLoad : Load → K
  decisionPhase : (Fin n → K) → (Fin n → K) → DecisionPlan n K

/-- The effects of a handler. -/
inductive Effect (n : Nat) (Load K : Type)
  /-- `messenger->send_message`. -/
  | send (target : Fin n) (m : Message n Load K)
  /-- `wait_for_open(new C_MDS_RetryMessage)`: the message is dispatched again later. -/
  | retryMessage
  /-- `wait_for_open(new C_Bal_SendHeartbeat)`. -/
  | retryHeartbeat
  /-- `wait_for_open(new C_Bal_SendIFbeat)`. -/
  | retryIfbeat (target : Fin n) (ifValue : K) (decision : List (MigrationDecision n K))
  /-- `mantle_prep_rebalance` or `prep_rebalance` on the gathered loads. -/
  | prepRebalance (beat : Int)
  /-- The imbalance-factor block of `handle_ifbeat` ran on these IOPS. -/
  | evaluate (iops : Fin n → K)
  /-- `simple_determine_rebalance`. -/
  | simpleDetermineRebalance (decision : List (MigrationDecision n K))

section
variable {n : Nat} [NeZero n] {Load K : Type} [Sub K] [Div K] [Zero K] [LE K] [DecidableLE K]
  (b : MDBalancer n Load K)

/-- `mds_load.insert(val)`: an entry that is already there stays. -/
def MDBalancer.insertLoad (who : Fin n) (load : Load) : MDBalancer n Load K :=
  { b with mdsLoad := Function.update b.mdsLoad who (some ((b.mdsLoad who).getD load)) }

def MDBalancer.setLoad (who : Fin n) (load : Load) : MDBalancer n Load K :=
  { b with mdsLoad := Function.update b.mdsLoad who (some load) }

def MDBalancer.clearLoad : MDBalancer n Load K := { b with mdsLoad := fun _ => none }

def MDBalancer.numLoads : Nat := (Finset.univ.filter fun r => (b.mdsLoad r).isSome).card

def Env.upOthers (env : Env n Load K) (whoami : Fin n) : List (Fin n) :=
  (List.finRange n).filter fun p => env.up p && p != whoami

def sendHeartbeat (whoami : Fin n) (env : Env n Load K) (b : MDBalancer n Load K) :
    MDBalancer n Load K × List (Effect n Load K) :=
  if env.isClusterDegraded then (b, [])
  else if !env.isOpen then (b, [.retryHeartbeat])
  else
    -- only rank 0 opens a new epoch
    let b := if whoami = 0 then { b with beatEpoch := b.beatEpoch + 1, mdsLoad := fun _ => none } else b
    let b := b.insertLoad whoami env.load
    let b := { b with mdsImportMap := Function.update b.mdsImportMap whoami (some env.importMap) }
    (b, (env.upOthers whoami).map fun p => .send p (.heartbeat ⟨env.load, b.beatEpoch, env.importMap⟩))

def sendIfbeat (target : Fin n) (ifValue : K) (decision : List (MigrationDecision n K)) (env : Env n Load K)
    (b : MDBalancer n Load K) : List (Effect n Load K) :=
  if env.isClusterDegraded then []
  else if !env.isOpen then [.retryIfbeat target ifValue decision]
  else if env.up target then [.send target (.ifbeat ⟨env.load, b.beatEpoch, ifValue, decision⟩)]
  else []

/-- The insertions of `prep_rebalance` and `mantle_prep_rebalance`: a default load for every rank without one. -/
def MDBalancer.fillLoads (fresh : Load) : MDBalancer n Load K :=
  { b with mdsLoad := fun r => some ((b.mdsLoad r).getD fresh) }

/-- The first branch of `handle_heartbeat`: another rank announces the next epoch before rank 0 does. -/
def noteEpoch (whoami : Fin n) (m : MHeartbeat n Load K) (b : MDBalancer n Load K) : MDBalancer n Load K :=
  if whoami ≠ 0 ∧ b.beatEpoch < m.beat then { b.clearLoad with beatEpoch := m.beat } else b

variable (cfg : Config n Load K)

/-- The `who == 0` branch of `handle_heartbeat`: enter the epoch of rank 0, then send a heartbeat and a report. -/
def answerHeartbeat (whoami : Fin n) (env : Env n Load K) (m : MHeartbeat n Load K)
    (b : MDBalancer n Load K) : MDBalancer n Load K × List (Effect n Load K) :=
  let b := { (if b.beatEpoch ≠ m.beat then b.clearLoad else b) with beatEpoch := m.beat }
  let r := sendHeartbeat whoami env b
  (r.1, r.2 ++ sendIfbeat 0 cfg.noIf [] env r.1)

/-- The end of `handle_heartbeat`: set `mds_load[who]`, and run the old balancer on a full set of loads. -/
def fileHeartbeat (env : Env n Load K) (who : Fin n) (m : MHeartbeat n Load K)
    (b : MDBalancer n Load K) : MDBalancer n Load K × List (Effect n Load K) :=
  let b := { b.setLoad who m.load with mdsImportMap := Function.update b.mdsImportMap who (some m.importMap) }
  if !cfg.mdsBalIfenable ∧ b.numLoads = n then (b.fillLoads env.load, [.prepRebalance m.beat]) else (b, [])

def handleHeartbeat (whoami : Fin n) (env : Env n Load K) (who : Fin n)
    (m : MHeartbeat n Load K) (b : MDBalancer n Load K) : MDBalancer n Load K × List (Effect n Load K) :=
  if !env.isActive then (b, [])
  else if !env.isOpen then (b, [.retryMessage])
  else if env.isClusterDegraded then (b, [])
  else
    let b := noteEpoch whoami m b
    let r := if who = 0 then answerHeartbeat cfg whoami env m b else (b, [])
    let s := fileHeartbeat cfg env who m r.1
    (s.1, r.2 ++ s.2)

/-- The IOPS of rank `i`: the requests since the last evaluation over the interval, 0 for a rank seen first. -/
def iopsOf (b : MDBalancer n Load K) (i : Fin n) : K :=
  match b.mdsLoad i, b.oldReq i with
  | some load, some old => (cfg.reqRate load - old) / cfg.mdsBalInterval
  | _, _ => 0

/-- The imbalance-factor block of `handle_ifbeat`, reached with a load of every rank. -/
def evaluateIf (env : Env n Load K) (b : MDBalancer n Load K) : MDBalancer n Load K × List (Effect n Load K) :=
  let iops := iopsOf cfg b
  let loads := fun i => ((b.mdsLoad i).map cfg.calcMdsLoad).getD 0
  let b := { b with oldReq := fun i => (b.mdsLoad i).map cfg.reqRate }
  let plan := cfg.decisionPhase iops loads
  (b, .evaluate iops :: plan.sends.flatMap (fun s => sendIfbeat s.1.1 s.2.1 s.2.2 env b)
    ++ (plan.own.map Effect.simpleDetermineRebalance).toList)

def handleIfbeat (whoami : Fin n) (env : Env n Load K) (who : Fin n)
    (m : MIFBeat n Load K) (b : MDBalancer n Load K) : MDBalancer n Load K × List (Effect n Load K) :=
  if !env.isActive then (b, [])
  else if !env.isOpen then (b, [.retryMessage])
  else if env.isClusterDegraded then (b, [])
  else if whoami = 0 then
    if m.beat ≠ b.beatEpoch then (b, [])
    else
      let b := b.insertLoad who m.load
      if b.numLoads = n then evaluateIf cfg env b else (b, [])
  else if cfg.simpleIfThreshold ≤ m.ifValue then (b, [.simpleDetermineRebalance m.decision])
  else (b, [])

def procMessage (whoami : Fin n) (env : Env n Load K) (who : Fin n)
    (m : Message n Load K) (b : MDBalancer n Load K) : MDBalancer n Load K × List (Effect n Load K) :=
  match m with
  | .heartbeat m => handleHeartbeat cfg whoami env who m b
  | .ifbeat m => handleIfbeat cfg whoami env who m b

end
end Lunule.Balancer
