import Lunule.Lib.Exec

/-!
# The export queue

How a rank turns the requests of its balancer (`export_dir_nicely`) into calls of `export_dir`. A request waits in
`export_queue`; an export that is under way keeps its target in `export_state`; an export that finds the file lock busy
when its tree is frozen may be tried again from a waiter on that lock; and the dirs that an export leaves behind are
queued when it finishes. Every item carries the target of the request it stems from (`origin`), which the code does not
have, and `calls` is the history of the calls of `export_dir`.

The waiter that tries again is built with the transaction id of the export in the place of its target. `dest_eq_origin`
says that nothing else changes a target.
-/

namespace Lunule.ExportQueue
open Exec List Option
variable {δ : Type}

/-- `mds_rank_t`, a signed 32-bit integer. -/
abbrev Rank := Int

/-- The rank that a 64-bit transaction id becomes when it is passed as one. -/
def rankOfTid (tid : Nat) : Rank := Int.bmod tid (2 ^ 32)

/-- The stages of an export that is under way. -/
inductive ExportStage
  | cancelling | locking | discovering | freezing | prepping | warning | exporting | loggingFinish | notifying
deriving DecidableEq

structure QueuedExport (δ : Type) where
  dir : δ
  dest : Rank
  origin : Rank
deriving DecidableEq

structure ExportState (δ : Type) where
  dir : δ
  state : ExportStage
  peer : Rank
  tid : Nat
  residualDirs : List δ := []
  origin : Rank
deriving DecidableEq

/-- `C_MDC_Retry_Export`, a waiter on the file lock of the dir's inode. -/
structure RetryExport (δ : Type) where
  dir : δ
  tid : Nat
  origin : Rank
deriving DecidableEq

structure ExportCall (δ : Type) where
  dir : δ
  dest : Rank
  origin : Rank
deriving DecidableEq

structure Config where
  whoami : Rank
  migmode : Int

/-- What the rank sees when it looks at a dir or at the cluster. -/
structure Env (δ : Type) where
  /-- `get_dirfrag(df)` finds the dir -/
  cached : δ → Bool := fun _ => true
  isAuth : δ → Bool := fun _ => true
  isActive : Bool := true
  isStopping : Bool := false
  isReadonly : Bool := false
  isDegraded : Bool := false
  destActive : Rank → Bool := fun _ => true
  isSystem : δ → Bool := fun _ => false
  /-- the dir lies in the stray directory of this rank -/
  strayOf : δ → Option Rank := fun _ => none
  isExportable : δ → Rank → Bool := fun _ _ => true
  isFrozenOrFreezing : δ → Bool := fun _ => false
  /-- the tid of the request that `export_dir` starts -/
  tid : δ → Nat
  /-- the request is cancelled when it is first dispatched -/
  cancels : δ → Bool := fun _ => false

/-- The part of a migrator that decides where exports go; `aborted` after a failed assertion. -/
structure Migrator (δ : Type) where
  exportQueue : List (QueuedExport δ) := []
  exportState : List (ExportState δ) := []
  retries : List (RetryExport δ) := []
  calls : List (ExportCall δ) := []
  aborted : Bool := false

namespace Migrator
variable [DecidableEq δ]

def findExport (m : Migrator δ) (dir : δ) : Option (ExportState δ) := m.exportState.find? (·.dir = dir)

def eraseExport (m : Migrator δ) (dir : δ) : Migrator δ := { m with exportState := m.exportState.filter (·.dir ≠ dir) }

def setExport (m : Migrator δ) (st : ExportState δ) : Migrator δ :=
  { m with exportState := m.exportState.map fun s => if s.dir = st.dir then st else s }

/-- The checks of `export_dir` after its assertions. -/
def mayExport (env : Env δ) (m : Migrator δ) (dir : δ) (dest : Rank) : Bool :=
  (env.isActive || env.isStopping) && !env.isReadonly && env.destActive dest && !env.isDegraded &&
    !env.isSystem dir &&
    (match env.strayOf dir with
      | some r => r == dest
      | none => env.isStopping || env.isExportable dir dest) &&
    !env.isFrozenOrFreezing dir && (m.findExport dir).isNone

variable (cfg : Config)

def exportDir (env : Env δ) (m : Migrator δ) (q : QueuedExport δ) : Migrator δ :=
  let m := { m with calls := m.calls ++ [⟨q.dir, q.dest, q.origin⟩] }
  if env.isAuth q.dir = false ∨ q.dest = cfg.whoami then { m with aborted := true }
  else if m.mayExport env q.dir q.dest ∧ env.cancels q.dir = false then
    { m with exportState := m.exportState ++
      [{ dir := q.dir, state := .locking, peer := q.dest, tid := env.tid q.dir, origin := q.origin }] }
  else m

/-- The loop of `maybe_do_queued_export`, over the queue it finds. -/
def doQueued (cfg : Config) (env : Env δ) : List (QueuedExport δ) → Migrator δ → Migrator δ
  | [], m => { m with exportQueue := [] }
  | q :: qs, m =>
    if m.exportState.length ≤ 4 ∧ m.aborted = false then
      if env.cached q.dir && env.isAuth q.dir then doQueued cfg env qs (m.exportDir cfg env q)
      else doQueued cfg env qs m
    else { m with exportQueue := q :: qs }

def maybeDoQueuedExport (env : Env δ) (m : Migrator δ) : Migrator δ := doQueued cfg env m.exportQueue m

def exportDirNicely (env : Env δ) (m : Migrator δ) (dir : δ) (dest origin : Rank) : Migrator δ :=
  maybeDoQueuedExport cfg env { m with exportQueue := m.exportQueue ++ [⟨dir, dest, origin⟩] }

/-- `export_try_cancel`; `notifies` says that bystanders have to be told. -/
def exportTryCancel (env : Env δ) (m : Migrator δ) (st : ExportState δ) (notifies : Bool) : Migrator δ :=
  match st.state with
  | .loggingFinish | .notifying => m
  | .cancelling => maybeDoQueuedExport cfg env m
  | .warning | .exporting =>
    maybeDoQueuedExport cfg env
      (if notifies then m.setExport { st with state := .cancelling } else m.eraseExport st.dir)
  | .locking | .discovering | .freezing | .prepping => maybeDoQueuedExport cfg env (m.eraseExport st.dir)

/-- The locks that `export_frozen` finds. -/
structure Locks where
  /-- the inode is not frozen, and all locks but the file lock can be taken -/
  others : Bool
  filelock : Bool

/-- `export_frozen`; `residual` are the dirs for which `check_export_size` makes bounds. -/
def exportFrozen (m : Migrator δ) (st : ExportState δ) (locks : Locks) (residual : List δ) : Migrator δ :=
  if locks.others = false then m.eraseExport st.dir
  else if locks.filelock = false then
    if cfg.migmode = 2 then m
    else if cfg.migmode = 1 then
      { m.eraseExport st.dir with retries := m.retries ++ [⟨st.dir, st.tid, st.origin⟩] }
    else m.eraseExport st.dir
  else m.setExport { st with state := .prepping, residualDirs := residual }

/-- `export_finish`: the residual dirs go to the front of the queue, with the same target. -/
def exportFinish (env : Env δ) (m : Migrator δ) (st : ExportState δ) : Migrator δ :=
  let residual := st.residualDirs.map fun d => (⟨d, st.peer, st.origin⟩ : QueuedExport δ)
  maybeDoQueuedExport cfg env
    { m.eraseExport st.dir with exportQueue := residual.reverse ++ m.exportQueue }

end Migrator

def ExportStage.next : ExportStage → Option ExportStage
  | .locking => some .discovering
  | .discovering => some .freezing
  | .prepping => some .warning
  | .warning => some .exporting
  | .exporting => some .loggingFinish
  | .loggingFinish => some .notifying
  | _ => none

inductive Event (δ : Type)
  /-- the balancer asks for an export -/
  | request (dir : δ) (dest : Rank) (env : Env δ)
  | advance (dir : δ)
  /-- the export is given up, for any reason -/
  | cancel (dir : δ) (notifies : Bool) (env : Env δ)
  /-- the last bystander has heard of the cancellation -/
  | cancelFinish (dir : δ)
  /-- the tree is frozen, or the wait for the file lock in mode 2 is over -/
  | frozen (dir : δ) (locks : Migrator.Locks) (residual : List δ)
  /-- a waiter on the file lock is woken -/
  | retry (index : Nat) (env : Env δ)
  | finish (dir : δ) (env : Env δ)

variable [DecidableEq δ]

def step (cfg : Config) (m : Migrator δ) (ev : Event δ) : Option (Migrator δ) :=
  if m.aborted then none
  else
    match ev with
    | .request dir dest env => some (m.exportDirNicely cfg env dir dest dest)
    | .advance dir =>
      (m.findExport dir).bind fun st => st.state.next.map fun stage => m.setExport { st with state := stage }
    | .cancel dir notifies env => (m.findExport dir).map fun st => m.exportTryCancel cfg env st notifies
    | .cancelFinish dir =>
      (m.findExport dir).bind fun st => if st.state = .cancelling then some (m.eraseExport dir) else none
    | .frozen dir locks residual =>
      (m.findExport dir).bind fun st =>
        if st.state = .freezing then some (m.exportFrozen cfg st locks residual) else none
    | .retry index env =>
      (m.retries[index]?).map fun w =>
        Migrator.exportDirNicely cfg env { m with retries := m.retries.eraseIdx index } w.dir (rankOfTid w.tid) w.origin
    | .finish dir env =>
      (m.findExport dir).bind fun st =>
        if st.state = .notifying then some (m.exportFinish cfg env st) else none

def Event.requested : Event δ → Option Rank
  | .request _ dest _ => some dest
  | _ => none

/-! ### Targets -/

/-- Every target is the one of the request it stems from, and that one was requested. -/
structure Kept (asked : List Rank) (m : Migrator δ) : Prop where
  queue : ∀ q ∈ m.exportQueue, q.dest = q.origin ∧ q.origin ∈ asked
  exports : ∀ st ∈ m.exportState, st.peer = st.origin ∧ st.origin ∈ asked
  retries : ∀ w ∈ m.retries, rankOfTid w.tid = w.origin ∧ w.origin ∈ asked
  calls : ∀ x ∈ m.calls, x.dest = x.origin ∧ x.origin ∈ asked

namespace Kept
variable {asked : List Rank} {m : Migrator δ} {cfg : Config} {env : Env δ} {st : ExportState δ}

variable (h : Kept asked m)
include h

private theorem eraseExport (dir : δ) : Kept asked (m.eraseExport dir) :=
  { h with exports := fun st hst => h.exports st (mem_filter.1 hst).1 }

private theorem setExport (hst : st.peer = st.origin ∧ st.origin ∈ asked) : Kept asked (m.setExport st) := by
  refine { h with exports := ?_ }
  intro s hs
  obtain ⟨s', hs', rfl⟩ := List.mem_map.1 hs
  by_cases hd : s'.dir = st.dir
  · simpa [hd] using hst
  · simpa [hd] using h.exports s' hs'

private theorem find {dir : δ} (hst : m.findExport dir = some st) : st.peer = st.origin ∧ st.origin ∈ asked :=
  h.exports st (List.mem_of_find?_eq_some hst)

private theorem exportDir {q : QueuedExport δ} (hq : q.dest = q.origin ∧ q.origin ∈ asked) :
    Kept asked (m.exportDir cfg env q) := by
  have hcalls : ∀ x ∈ m.calls ++ [(⟨q.dir, q.dest, q.origin⟩ : ExportCall δ)], x.dest = x.origin ∧ x.origin ∈ asked :=
    forall_mem_append.2 ⟨h.calls, forall_mem_singleton.2 hq⟩
  unfold Migrator.exportDir
  dsimp only
  split
  · exact { h with calls := hcalls }
  split
  · refine { h with calls := hcalls, exports := forall_mem_append.2 ⟨h.exports, forall_mem_singleton.2 hq⟩ }
  · exact { h with calls := hcalls }

private theorem doQueued {qs : List (QueuedExport δ)}
    (hqs : ∀ q ∈ qs, q.dest = q.origin ∧ q.origin ∈ asked) : Kept asked (Migrator.doQueued cfg env qs m) := by
  induction qs generalizing m with
  | nil => exact { h with queue := nofun }
  | cons q qs ih =>
    have hq := hqs q mem_cons_self
    have hrest : ∀ q ∈ qs, q.dest = q.origin ∧ q.origin ∈ asked := fun q' hq' => hqs q' (mem_cons_of_mem _ hq')
    unfold Migrator.doQueued
    split
    · split
      · exact ih (h.exportDir hq) hrest
      · exact ih h hrest
    · exact { h with queue := hqs }

private theorem maybeDoQueuedExport : Kept asked (m.maybeDoQueuedExport cfg env) := h.doQueued h.queue

private theorem exportDirNicely {dir : δ} {dest origin : Rank} (hd : dest = origin ∧ origin ∈ asked) :
    Kept asked (m.exportDirNicely cfg env dir dest origin) := by
  exact maybeDoQueuedExport { h with queue := forall_mem_append.2 ⟨h.queue, forall_mem_singleton.2 hd⟩ }

section
variable (hst : st.peer = st.origin ∧ st.origin ∈ asked)
include hst

private theorem exportFinish : Kept asked (m.exportFinish cfg env st) := by
  refine maybeDoQueuedExport { h.eraseExport st.dir with queue := ?_ }
  intro q hq
  rcases mem_append.1 hq with hq | hq
  · obtain ⟨d, -, rfl⟩ := List.mem_map.1 (mem_reverse.1 hq)
    exact hst
  · exact h.queue q hq

private theorem exportTryCancel {notifies : Bool} : Kept asked (m.exportTryCancel cfg env st notifies) := by
  have herase : Kept asked ((m.eraseExport st.dir).maybeDoQueuedExport cfg env) :=
    (h.eraseExport st.dir).maybeDoQueuedExport
  have hset : Kept asked (m.setExport { st with state := .cancelling }) := h.setExport hst
  unfold Migrator.exportTryCancel
  split
  · exact h
  · exact h
  · exact h.maybeDoQueuedExport
  · cases notifies with
    | false => exact herase
    | true => exact hset.maybeDoQueuedExport
  · cases notifies with
    | false => exact herase
    | true => exact hset.maybeDoQueuedExport
  · exact herase
  · exact herase
  · exact herase
  · exact herase

private theorem exportFrozen {locks : Migrator.Locks} {residual : List δ}
    (htid : locks.others = true → locks.filelock = false → cfg.migmode = 1 → rankOfTid st.tid = st.peer) :
    Kept asked (m.exportFrozen cfg st locks residual) := by
  unfold Migrator.exportFrozen
  split
  · exact h.eraseExport st.dir
  rename_i hothers
  split
  · rename_i hfile
    split
    · exact h
    split
    · rename_i hmode
      refine { h.eraseExport st.dir with retries := ?_ }
      exact forall_mem_append.2 ⟨h.retries,
        forall_mem_singleton.2 ⟨(htid (by simpa using hothers) hfile hmode).trans hst.1, hst.2⟩⟩
    · exact h.eraseExport st.dir
  · exact h.setExport hst

end
end Kept

/-- An export that finds only the file lock busy in mode 1 has, as its tid, the number of its target. -/
def TidIsPeer (cfg : Config) (m : Migrator δ) : Event δ → Prop
  | .frozen dir locks _ => locks.others = true → locks.filelock = false → cfg.migmode = 1 →
      ∀ st ∈ m.exportState, st.dir = dir → rankOfTid st.tid = st.peer
  | _ => True

instance (cfg : Config) (m : Migrator δ) (ev : Event δ) : Decidable (TidIsPeer cfg m ev) :=
  match ev with
  | .frozen _ _ _ => inferInstanceAs (Decidable (_ = _ → _ = _ → _ = _ → ∀ _ ∈ _, _ = _ → _ = _))
  | .request _ _ _ | .advance _ | .cancel _ _ _ | .cancelFinish _ | .retry _ _ | .finish _ _ => isTrue trivial

private theorem Kept.step {asked : List Rank} {cfg : Config} {m m' : Migrator δ} {ev : Event δ} (h : Kept asked m)
    (hok : TidIsPeer cfg m ev) (hask : ∀ r, ev.requested = some r → r ∈ asked) (hs : step cfg m ev = some m') :
    Kept asked m' := by
  obtain ⟨-, hs⟩ := ite_none_left_eq_some.1 hs
  cases ev with
  | request dir dest env =>
    cases hs
    exact h.exportDirNicely ⟨rfl, hask dest rfl⟩
  | advance dir =>
    obtain ⟨st, hst, hs⟩ := bind_eq_some_iff.1 hs
    obtain ⟨stage, -, rfl⟩ := map_eq_some_iff.1 hs
    have hkept := h.find hst
    exact h.setExport hkept
  | cancel dir notifies env =>
    obtain ⟨st, hst, rfl⟩ := map_eq_some_iff.1 hs
    exact h.exportTryCancel (h.find hst)
  | cancelFinish dir =>
    obtain ⟨st, -, hs⟩ := bind_eq_some_iff.1 hs
    obtain ⟨-, hs⟩ := ite_none_right_eq_some.1 hs
    cases hs
    exact h.eraseExport dir
  | frozen dir locks residual =>
    obtain ⟨st, hst, hs⟩ := bind_eq_some_iff.1 hs
    obtain ⟨-, hs⟩ := ite_none_right_eq_some.1 hs
    cases hs
    have hdir : st.dir = dir := by simpa using List.find?_some hst
    exact h.exportFrozen (h.find hst) fun ho hf hm =>
      hok ho hf hm st (List.mem_of_find?_eq_some hst) hdir
  | retry index env =>
    obtain ⟨w, hw, rfl⟩ := map_eq_some_iff.1 hs
    have hmem : w ∈ m.retries := mem_of_getElem? hw
    refine Kept.exportDirNicely ?_ (h.retries w hmem)
    exact { h with retries := fun w' hw' => h.retries w' (mem_of_mem_eraseIdx hw') }
  | finish dir env =>
    obtain ⟨st, hst, hs⟩ := bind_eq_some_iff.1 hs
    obtain ⟨-, hs⟩ := ite_none_right_eq_some.1 hs
    cases hs
    exact h.exportFinish (h.find hst)

/-- For every mode and every history in which an export that finds only the file lock busy in mode 1 has its target as
its tid, each call of `export_dir` has the target of the request it stems from; so it is a requested rank, and this
rank only if the balancer asked for that. -/
theorem dest_eq_origin (cfg : Config) (es : List (Event δ)) (m : Migrator δ)
    (hok : AllSteps (step cfg) (TidIsPeer cfg) {} es) (h : exec (step cfg) {} es = some m) :
    ∀ x ∈ m.calls, x.dest = x.origin ∧ x.origin ∈ es.filterMap Event.requested ∧
      (cfg.whoami ∉ es.filterMap Event.requested → x.dest ≠ cfg.whoami) := by
  -- the requests of the whole run are known from the start
  have hask : AllSteps (step cfg) (fun _ e => ∀ r, e.requested = some r → r ∈ es.filterMap Event.requested) {} es :=
    allSteps_of_mem _ fun e he r hr => mem_filterMap.2 ⟨e, he, hr⟩
  have hinit : Kept (es.filterMap Event.requested) ({} : Migrator δ) := by
    constructor <;> simp
  have hm := exec_invariant (fun s e t hs hq ht => hs.step hq.1 hq.2 ht) hinit (hok.and hask) h
  intro x hx
  obtain ⟨hd, ho⟩ := hm.calls x hx
  exact ⟨hd, ho, fun hw heq => hw (heq ▸ hd ▸ ho)⟩

/-- A rank that finds every dir ready, and gives its requests the tid 7. -/
def ready : Env Nat where
  tid := fun _ => 7

/-- Rank 0 in mode 1 exports dir 3 to rank 2, leaves dir 4 behind, and exports it to rank 2 too. -/
def residualRun : List (Event Nat) :=
  [.request 3 2 ready, .advance 3, .advance 3, .frozen 3 ⟨true, true⟩ [4], .advance 3, .advance 3, .advance 3,
    .advance 3, .finish 3 ready]

theorem dest_eq_origin_residual : ∃ m, exec (step ⟨0, 1⟩) {} residualRun = some m ∧ m.calls = [⟨3, 2, 2⟩, ⟨4, 2, 2⟩] ∧
      ∀ x ∈ m.calls, x.dest = x.origin ∧ x.origin ∈ residualRun.filterMap Event.requested ∧
        ((0 : Rank) ∉ residualRun.filterMap Event.requested → x.dest ≠ 0) := by
  have hok : AllSteps (step ⟨0, 1⟩) (TidIsPeer ⟨0, 1⟩) {} residualRun := by decide
  have hrun : (exec (step ⟨0, 1⟩) {} residualRun).map (·.calls) = some [⟨3, 2, 2⟩, ⟨4, 2, 2⟩] := by decide
  obtain ⟨m, hm, hcalls⟩ := map_eq_some_iff.1 hrun
  exact ⟨m, hm, hcalls, dest_eq_origin ⟨0, 1⟩ residualRun m hok hm⟩

/-- In mode 1 the file lock of dir 3 is busy when its tree is frozen; the waiter exports it to rank 7, its tid. -/
theorem retry_exports_to_tid :
    (exec (step ⟨0, 1⟩) {} [.request 3 2 ready, .advance 3, .advance 3, .frozen 3 ⟨true, false⟩ [],
      .retry 0 ready]).map (·.calls) = some [⟨3, 2, 2⟩, ⟨3, 7, 2⟩] := by
  decide

end Lunule.ExportQueue
