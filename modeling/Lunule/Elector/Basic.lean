import Lunule.Lib.Exec
import Lunule.Lib.Network

/-!
# Electing a leader among the monitors

The monitors of a monitor map are known by their ranks. A monitor that starts an election takes an odd epoch, proposes
itself to all others and collects their acknowledgements; one that hears the proposal of a lower rank drops its own
candidacy and acknowledges it (`defer`). A candidate wins when everybody has acknowledged it, or when its timer runs out
and a majority has; it moves on to the next even epoch and tells its quorum (`victory`).

A handler acts on one monitor of the `World`, and `none` is a failed assertion. Channels keep order (`Network`); a
message may be lost, and a delivery on an empty channel does nothing. `acks` and `wins` are the history of the run: every
acknowledgement ever sent, and every call of `victory` with its epoch and quorum. Epochs are 32 bits wide. All monitors
have the features they require of each other, so nothing is refused by a `NAK`.
-/

namespace Lunule.Elector
open Network Exec
variable {n : ℕ}

/-- `MMonElection`. -/
inductive Msg (n : ℕ) where
  | propose (epoch : ℕ)
  | ack (epoch : ℕ)
  | victory (epoch : ℕ) (quorum : List (Fin n))
deriving DecidableEq

/-- The state of the monitor; `probing` stands for `STATE_SYNCHRONIZING` too. -/
inductive Phase where
  | probing | electing | leader | peon
deriving DecidableEq

/-- A monitor: what its store keeps (`election_epoch` and whether it ever joined a quorum), and the `Elector`. -/
structure Mon (n : ℕ) where
  stored : ℕ
  joined : Bool
  epoch : ℕ := 0
  electing_me : Bool := false
  acked_me : List (Fin n) := []
  leader_acked : Option (Fin n) := none
  timer : Bool := false
  phase : Phase := .probing
  quorum : List (Fin n) := []

structure World (n : ℕ) where
  mons : Fin n → Mon n
  net : Net (Fin n) (Msg n)
  acks : List (Fin n × Fin n × ℕ)
  wins : List (Fin n × ℕ × List (Fin n))

variable (w : World n)

def World.set (i : Fin n) (m : Mon n) : World n := { w with mons := Function.update w.mons i m }

def World.send (i : Fin n) (msgs : Fin n → List (Msg n)) : World n := { w with net := post w.net i msgs }

/-- `epoch + 1` as an `epoch_t`. -/
def next (e : ℕ) : ℕ := (e + 1) % 2 ^ 32

/-- `Elector::init`. The epoch of a first boot is not written to the store. -/
def Mon.init (m : Mon n) : Mon n :=
  if m.stored = 0 then { m with epoch := 1 }
  else if m.stored % 2 = 1 then { m with epoch := next m.stored, stored := next m.stored }
  else { m with epoch := m.stored }

/-- `Elector::bump_epoch`, with `Monitor::join_election`. It leaves `leader_acked` as it is. -/
def Mon.bumpEpoch (m : Mon n) (e : ℕ) : Option (Mon n) :=
  if m.epoch ≤ e then
    some { m with epoch := e, stored := e, phase := .electing, quorum := [], electing_me := false, acked_me := [] }
  else none

/-- `Elector::start` up to its messages. -/
def Mon.start (m : Mon n) (me : Fin n) : Option (Mon n) :=
  let m := { m with acked_me := [] }.init
  (if m.epoch % 2 = 0 then m.bumpEpoch (next m.epoch) else some m).map fun m =>
    { m with electing_me := true, acked_me := [me], leader_acked := none, timer := true }

def start (w : World n) (me : Fin n) : Option (World n) :=
  ((w.mons me).start me).map fun m => (w.set me m).send me fun j => if j = me then [] else [.propose m.epoch]

def startElection (me : Fin n) : Option (World n) :=
  start (w.set me { w.mons me with phase := .electing, quorum := [] }) me

def defer (me who : Fin n) : World n :=
  let m := w.mons me
  let m := if m.electing_me then { m with acked_me := [], electing_me := false } else m
  { (w.set me { m with leader_acked := some who, timer := true }).send me
      (fun j => if j = who then [.ack m.epoch] else []) with
    acks := (me, who, m.epoch) :: w.acks }

/-- `Elector::victory`, with `Monitor::win_election`. -/
def victory (w : World n) (me : Fin n) : Option (World n) :=
  let m := { w.mons me with leader_acked := none, electing_me := false, timer := false }
  let quorum := m.acked_me
  if m.epoch % 2 = 1 then
    (m.bumpEpoch (next m.epoch)).map fun m =>
      { (w.set me { m with phase := .leader, quorum := quorum }).send me
          (fun j => if j ∈ quorum ∧ j ≠ me then [.victory m.epoch quorum] else []) with
        wins := (me, m.epoch, quorum) :: w.wins }
  else none

/-- `Monitor::bootstrap`. A monitor alone in its map leads without an election (`win_standalone_election`). -/
def bootstrap (me : Fin n) : Option (World n) :=
  let m := { w.mons me with phase := .probing, quorum := [] }
  if n = 1 then
    (m.init.bumpEpoch (next m.init.epoch)).map fun m => w.set me { m with phase := .leader, quorum := [me] }
  else some (w.set me m)

def expire (me : Fin n) : Option (World n) :=
  let m := { w.mons me with timer := false }
  let w := w.set me m
  if m.electing_me = true ∧ n / 2 < m.acked_me.length then victory w me
  else if m.joined then start w me
  else bootstrap w me

variable (src me : Fin n)

/-- `handle_propose` from the comparison of the ranks on. -/
def rankProposal : Option (World n) :=
  if me < src then
    match (w.mons me).leader_acked with
    | some l => if l < src then some w else none
    | none => if (w.mons me).electing_me then some w else startElection w me
  else
    match (w.mons me).leader_acked with
    | none => some (defer w me src)
    | some l => some (if src ≤ l then defer w me src else w)

def handlePropose (e : ℕ) : Option (World n) :=
  let m := w.mons me
  if e % 2 = 1 then
    if m.epoch < e then (m.bumpEpoch e).bind fun m => rankProposal (w.set me m) src me
    else if e < m.epoch then
      -- somebody outside the quorum just started
      if m.epoch % 2 = 0 ∧ src ∉ m.quorum then (startElection w me).bind fun w => rankProposal w src me
      else some w
    else rankProposal w src me
  else none

def Mon.addAck (m : Mon n) (src : Fin n) : Mon n :=
  { m with acked_me := if src ∈ m.acked_me then m.acked_me else src :: m.acked_me }

def handleAck (e : ℕ) : Option (World n) :=
  let m := w.mons me
  if e % 2 = 1 then
    if m.epoch < e then (m.bumpEpoch e).bind fun m => start (w.set me m) me
    else if e = m.epoch then
      if m.electing_me then
        let w := w.set me (m.addAck src)
        if (m.addAck src).acked_me.length = n then victory w me else some w
      else if m.leader_acked.isSome then some w
      else none
    else none
  else none

/-- `Elector::handle_victory`, with `Monitor::lose_election`. -/
def handleVictory (e : ℕ) (quorum : List (Fin n)) : Option (World n) :=
  let m := { w.mons me with leader_acked := none }
  if src < me ∧ e % 2 = 0 then
    (m.bumpEpoch e).bind fun m' =>
      if e ≠ next m.epoch then start (w.set me m') me
      else some (w.set me { m' with phase := .peon, quorum := quorum, timer := false })
  else none

/-- `Elector::dispatch`, called when the monitor is not probing; all but proposals are dropped when they are old. -/
def dispatch (msg : Msg n) : Option (World n) :=
  if (w.mons me).phase = .probing then some w
  else
    match msg with
    | .propose e => handlePropose w src me e
    | .ack e => if e < (w.mons me).epoch then some w else handleAck w src me e
    | .victory e quorum => if e < (w.mons me).epoch then some w else handleVictory w src me e quorum

inductive Event (n : ℕ) where
  | deliver (src dst : Fin n)
  | lose (src dst : Fin n)
  | expire (i : Fin n)
  /-- Any other cause of an election: probing is done, a lease or a collect timed out. -/
  | startElection (i : Fin n)
  | bootstrap (i : Fin n)
  /-- The first quorum is recorded in the store. -/
  | join (i : Fin n)
  | restart (i : Fin n)
deriving DecidableEq

def step : Event n → Option (World n)
  | .deliver src dst =>
    match w.net src dst with
    | [] => some w
    | msg :: _ => dispatch { w with net := pop w.net src dst } src dst msg
  | .lose src dst => some { w with net := pop w.net src dst }
  | .expire i => if (w.mons i).timer then expire w i else some w
  | .startElection i => startElection w i
  | .bootstrap i => bootstrap w i
  | .join i => some (w.set i { w.mons i with joined := true })
  | .restart i => some (w.set i { stored := (w.mons i).stored, joined := (w.mons i).joined })

/-- The monitors before they run, with what their stores hold. -/
def World.init (store : Fin n → ℕ × Bool) : World n where
  mons i := { stored := (store i).1, joined := (store i).2 }
  net _ _ := []
  acks := []
  wins := []

end Lunule.Elector
