import Lunule.Lib.Writeback
import Lunule.Pg.Partition

/-!
# The log of a placement group

`PGLog` holds the log with its missing set and the marks of what has to be written out. Logs of two replicas that
overlap are brought together by `mergeLog`: history the other log has and ours has not is put in front, entries of ours
past the head of the other are rewound, its newer entries are appended, and the entries taken off are merged object by
object, each into the missing set or back out of the store. The store is reached through the calls of a handler only.
A failed assertion is `none`.

The recovery pointers `complete_to` and `last_requested` and the indices by request are left out: nothing here reads them.
The reverse iterator `rollback_info_trimmed_to_riter` stands at the newest entry at or below `rollback_info_trimmed_to`.
-/

namespace Lunule.Pg
open Std (ExtTreeMap)
open Writeback (Marks)

/-- A call of the `LogEntryHandler`. -/
inductive Act (ο : Type)
  | rollback (entry : LogEntry ο)
  | rollforward (entry : LogEntry ο)
  | trim (entry : LogEntry ο)
  | remove (hoid : ο)
  | tryStash (hoid : ο) (v : ℕ)
deriving DecidableEq

namespace PgLog
variable {ο : Type} (l : PgLog ο)

def empty : PgLog ο := ⟨.zero, .zero, .zero, .zero, [], []⟩

def isNull : Bool := l.head = .zero

/-- `objects.find(hoid)`: the index points at the last entry of an object that is not an error. -/
def objects [DecidableEq ο] (hoid : ο) : Option (LogEntry ο) :=
  (l.log.filter fun e => e.soid = hoid ∧ e.objectIsIndexed).getLast?

/-- `advance_can_rollback_to`, and the entries it hands to its callback. -/
def advanceCanRollbackTo (v : Eversion) : PgLog ο × List (LogEntry ο) :=
  let trimmed_to := max l.rollback_info_trimmed_to v
  ({ l with can_rollback_to := max l.can_rollback_to v, rollback_info_trimmed_to := trimmed_to },
    (l.log.rtakeWhile (l.rollback_info_trimmed_to < ·.version)).takeWhile (·.version ≤ trimmed_to))

def skipCanRollbackToToHead : PgLog ο := (l.advanceCanRollbackTo l.head).1

/-- `rewind_from_head`: what is left, and the divergent entries. They are found by their number alone. -/
def rewindFromHead (newhead : Eversion) : Option (PgLog ο × List (LogEntry ο)) :=
  let divergent := l.log.rtakeWhile (newhead.version < ·.version.version)
  if l.tail ≤ newhead ∧ ∀ e ∈ divergent, newhead < e.version then
    some ({ l with
        log := l.log.rdropWhile (newhead.version < ·.version.version)
        head := newhead
        can_rollback_to := min l.can_rollback_to newhead
        rollback_info_trimmed_to := min l.rollback_info_trimmed_to newhead },
      divergent)
  else none

def divergent (newhead : Eversion) : List (LogEntry ο) := l.log.rtakeWhile (newhead.version < ·.version.version)

variable {divergent : List (LogEntry ο)} {newhead : Eversion}

theorem rewindFromHead_eq_some {l l' : PgLog ο} : l.rewindFromHead newhead = some (l', divergent) ↔
      l.tail ≤ newhead ∧ (∀ e ∈ l.divergent newhead, newhead < e.version) ∧ divergent = l.divergent newhead ∧
        l' = { l with
          log := l.log.rdropWhile (newhead.version < ·.version.version)
          head := newhead
          can_rollback_to := min l.can_rollback_to newhead
          rollback_info_trimmed_to := min l.rollback_info_trimmed_to newhead } := by
  unfold rewindFromHead PgLog.divergent
  dsimp only
  split
  · rename_i h
    rw [Option.some_inj, Prod.mk.injEq]
    constructor
    · rintro ⟨rfl, rfl⟩
      exact ⟨h.1, h.2, rfl, rfl⟩
    · rintro ⟨-, -, rfl, rfl⟩
      exact ⟨rfl, rfl⟩
  · rename_i h
    constructor
    · intro hno
      cases hno
    · rintro ⟨h1, h2, -, -⟩
      exact absurd ⟨h1, h2⟩ h

theorem rewindFromHead_head {l l' : PgLog ο}
    (h : l.rewindFromHead newhead = some (l', divergent)) : l'.head = newhead := by
  obtain ⟨-, -, -, rfl⟩ := rewindFromHead_eq_some.1 h
  rfl

def add (e : LogEntry ο) (applied : Bool) : Option (PgLog ο) :=
  if (applied ∨ l.can_rollback_to = l.head) ∧ l.head < e.version ∧
      (l.head.version = 0 ∨ l.head.version < e.version.version) then
    let l' := { l with log := l.log ++ [e], head := e.version }
    some (if applied then l' else l'.skipCanRollbackToToHead)
  else none

end PgLog

/-- `pg_log_dup_t(e)`, followed by the entries for the extra request ids, which share its version. -/
def LogEntry.toDups {ο : Type} (e : LogEntry ο) : List DupEntry :=
  ⟨e.reqid, e.version, e.user_version, e.return_code⟩ ::
    e.extra_reqids.map fun extra => ⟨extra.1, e.version, extra.2, e.return_code⟩

/-- The oldest number that `trim` keeps as a dup, if the log has an entry at all. -/
def PgLog.earliestDupVersion {ο : Type} (l : PgLog ο) (dups_tracked : ℕ) : Option ℕ :=
  l.log.getLast?.map fun e => if e.version.version < dups_tracked then 0 else e.version.version - dups_tracked

/-!
### Divergent entries
-/

section
variable {ο : Type} [LinearOrder ο]

def splitByObject (entries : List (LogEntry ο)) : ExtTreeMap ο (List (LogEntry ο)) :=
  entries.foldl (fun out e => out.insert e.soid (out.getD e.soid [] ++ [e])) ∅

/-- The loop that strips the errors off the entries of one object, with its assertions; `atBegin` before the first
iteration, `seen` once there was an entry that is not an error, whose version is `last`. -/
def stripErrors (hoid : ο) : List (LogEntry ο) → (atBegin seen : Bool) → (last : Eversion) → Option (List (LogEntry ο))
  | [], _, _, _ => some []
  | i :: is, atBegin, seen, last =>
    let first_non_error := !seen && !i.isError
    let checked := !atBegin && i.prior_version ≠ .zero && !first_non_error
    if i.soid = hoid ∧ (checked → last < i.version ∧ (i.prior_version = last ∨ i.isError)) then
      if i.isError then stripErrors hoid is false seen last
      else (stripErrors hoid is false true i.version).map (i :: ·)
    else none

/-- `_merge_object_divergent_entries`, with the calls of the handler. -/
def mergeObjectDivergentEntries (log : PgLog ο) (hoid : ο) (orig_entries : List (LogEntry ο))
    (last_backfill : WithTop ο) (olog_can_rollback_to : Eversion) (missing : MissingSet ο) :
    Option (MissingSet ο × List (Act ο)) :=
  if last_backfill < hoid then some (missing, [])
  else if orig_entries = [] then none
  else
    match stripErrors hoid orig_entries true false .zero with
    | none => none
    | some [] => some (missing, [])
    | some (first :: rest) =>
      let entries := first :: rest
      let last := entries.getLast (by simp [entries])
      let object_not_in_store := (missing.isMissing hoid).isNone && last.isDelete
      let removal : List (Act ο) := if object_not_in_store then [] else [.remove hoid]
      let trims := entries.map Act.trim
      match (log.objects hoid).filter fun newer => first.version ≤ newer.version with
      | some newer =>
        -- case 1: the object was modified again, and `missing` knows already
        let needed := newer.isUpdate || (missing.may_include_deletes && newer.isDelete)
        if last.version < newer.version ∧
            (missing.isMissing hoid).map MissingItem.need = (if needed then some newer.version else none) then
          some (missing.reviseHave hoid .zero, removal ++ trims)
        else none
      | none =>
        if first.prior_version = .zero ∨ first.isClone then
          -- case 2: the object was created by these entries
          match missing.isMissing hoid with
          | some item => some (missing.rmAt hoid item, removal ++ trims)
          | none => some (missing, removal ++ trims)
        else
          match missing.isMissing hoid with
          | some item =>
            -- case 3: the object is missing
            if item.have' = first.prior_version then some (missing.rmAt hoid item, trims)
            else some (missing.reviseNeed hoid first.prior_version false, trims)
          | none =>
            if ∀ i ∈ entries, i.canRollback ∧ olog_can_rollback_to < i.version then
              -- case 4: undo the entries, newest first
              some (missing, entries.reverse.map Act.rollback)
            else
              -- case 5
              some (missing.add hoid first.prior_version .zero false, removal ++ trims)

def mergeDivergentEntries (log : PgLog ο) (entries : List (LogEntry ο)) (last_backfill : WithTop ο)
    (olog_can_rollback_to : Eversion) (missing : MissingSet ο) : Option (MissingSet ο × List (Act ο)) :=
  (splitByObject entries).toList.foldlM (fun (s : MissingSet ο × List (Act ο)) (i : ο × List (LogEntry ο)) =>
    (mergeObjectDivergentEntries log i.1 i.2 last_backfill olog_can_rollback_to s.1).map fun r => (r.1, s.2 ++ r.2))
    (missing, [])

/-- One turn of the loop of `append_log_entries_update_missing`, after the entry was added to the log. -/
def updateMissing (last_backfill : WithTop ο) (maintain_rollback : Bool) (p : LogEntry ο) (missing : MissingSet ο) :
    Option (MissingSet ο × List (Act ο)) :=
  if p.soid ≤ last_backfill ∧ ¬p.isError then
    if missing.may_include_deletes then (missing.addNextEvent p).map fun m => (m, [])
    else
      let acts : List (Act ο) :=
        if maintain_rollback ∧ p.isLostDelete ∧ p.canRollback then [.tryStash p.soid p.version.version]
        else if p.isDelete then [.remove p.soid]
        else []
      if p.isDelete then some (missing.rm p.soid p.version, acts)
      else (missing.addNextEvent p).map fun m => (m, acts)
  else some (missing, [])

def appendLogEntries (last_backfill : WithTop ο) (maintain_rollback : Bool) :
    List (LogEntry ο) → PgLog ο → MissingSet ο → Option (PgLog ο × MissingSet ο × List (Act ο))
  | [], log, missing => some (log, missing, [])
  | p :: ps, log, missing =>
    match log.add p true with
    | none => none
    | some log =>
      match updateMissing last_backfill maintain_rollback p missing with
      | none => none
      | some (missing, acts) =>
        (appendLogEntries last_backfill maintain_rollback ps log missing).map fun r => (r.1, r.2.1, acts ++ r.2.2)

def appendLogEntriesUpdateMissing (last_backfill : WithTop ο) (entries : List (LogEntry ο)) (maintain_rollback : Bool)
    (log : PgLog ο) (missing : MissingSet ο) : Option (PgLog ο × MissingSet ο × List (Act ο)) :=
  if ∀ e ∈ entries.head?, log.head < e.version then
    appendLogEntries last_backfill maintain_rollback entries log missing
  else none

end

/-!
### The log with its missing set and its marks
-/

structure PGLog (ο : Type) [LinearOrder ο] where
  log : PgLog ο
  missing : MissingSet ο
  /-- `dirty_to`, `dirty_from`, `writeout_from` and `trimmed`. -/
  marks : Marks Eversion
  /-- The same four for the dups. -/
  marks_dups : Marks Eversion
  touched_log : Bool
  rebuilt_missing_with_deletes : Bool

namespace PGLog
variable {ο : Type} [LinearOrder ο] (p : PGLog ο)

def new (may_include_deletes : Bool) : PGLog ο where
  log := .empty
  missing := { MissingSet.empty with may_include_deletes }
  marks := .clean .zero .max
  marks_dups := .clean .zero .max
  touched_log := false
  rebuilt_missing_with_deletes := false

def markDirtyTo (v : Eversion) : PGLog ο := { p with marks := p.marks.markDirtyTo v }

def markDirtyFrom (v : Eversion) : PGLog ο := { p with marks := p.marks.markDirtyFrom v }

def markWriteoutFrom (v : Eversion) : PGLog ο := { p with marks := p.marks.markWriteoutFrom v }

def markDirtyToDups (v : Eversion) : PGLog ο := { p with marks_dups := p.marks_dups.markDirtyTo v }

def markDirtyFromDups (v : Eversion) : PGLog ο := { p with marks_dups := p.marks_dups.markDirtyFrom v }

def add (e : LogEntry ο) (applied : Bool) : Option (PGLog ο) :=
  (p.log.add e applied).map fun log => { p.markWriteoutFrom e.version with log }

def appendNewLogEntries (last_backfill : WithTop ο) (entries : List (LogEntry ο)) : Option (PGLog ο × List (Act ο)) :=
  (appendLogEntriesUpdateMissing last_backfill entries true p.log p.missing).map fun r =>
    let p' := { p with log := r.1, missing := r.2.1 }
    (match entries.head? with
      | none => p'
      | some e => p'.markWriteoutFrom e.version,
      r.2.2)

/-- The first loop of `IndexedLog::trim`: entries leave the front of the log, some for the dups. -/
def trimLog (s : Eversion) (earliest_dup_version : ℕ) : PGLog ο :=
  let gone := p.log.log.takeWhile (·.version ≤ s)
  let dupped := gone.filter (earliest_dup_version ≤ ·.version.version)
  { p with
    log := { p.log with
      log := p.log.log.dropWhile (·.version ≤ s)
      dups := p.log.dups ++ dupped.flatMap LogEntry.toDups }
    marks := gone.foldl (fun m e => m.markTrimmed e.version) p.marks
    marks_dups := dupped.foldl (fun m e => m.markWriteoutFrom e.version) p.marks_dups }

/-- The second loop: dups that are too old leave the front. -/
def trimDups (earliest_dup_version : ℕ) : PGLog ο :=
  let gone := p.log.dups.takeWhile (·.version.version < earliest_dup_version)
  { p with
    log := { p.log with dups := p.log.dups.dropWhile (·.version.version < earliest_dup_version) }
    marks_dups := gone.foldl (fun m e => m.markTrimmed e.version) p.marks_dups }

/-- `trim`. A log without entries has no last entry to count the dups from. -/
def trim (dups_tracked : ℕ) (trim_to last_complete : Eversion) : Option (PGLog ο) :=
  if p.log.tail < trim_to then
    if trim_to ≤ last_complete ∧ trim_to ≤ p.log.can_rollback_to then
      (p.log.earliestDupVersion dups_tracked).map fun earliest_dup_version =>
        let p' := (p.trimLog trim_to earliest_dup_version).trimDups earliest_dup_version
        { p' with log := { p'.log with tail := trim_to } }
    else none
  else some p

def rewindDivergentLog (newhead : Eversion) (last_backfill : WithTop ο) : Option (PGLog ο × List (Act ο)) :=
  match p.log.rewindFromHead newhead with
  | none => none
  | some (log, divergent) =>
    let p' := match divergent.head? with
      | none => p
      | some e => p.markDirtyFrom e.version
    (mergeDivergentEntries log divergent last_backfill log.can_rollback_to p.missing).map fun r =>
      ({ p' with log, missing := r.1 }, r.2)

/-- Extend on tail: the entries of the other log up to our tail are put in front of ours. -/
def extendTail (olog : PgLog ο) : PGLog ο × PgLog ο :=
  if olog.tail < p.log.tail then
    let front := olog.log.takeWhile (·.version ≤ p.log.tail)
    let last := match front.getLast? with
      | none => .zero
      | some e => e.version
    ({ p.markDirtyTo last with log := { p.log with log := front ++ p.log.log, tail := olog.tail } },
      { olog with log := olog.log.dropWhile (·.version ≤ p.log.tail) })
  else (p, olog)

variable (orig_tail : Eversion)

/-- The cut point of `merge_log`: entries of ours past it are divergent. -/
def lowerBound (olog : PgLog ο) : Eversion :=
  match (olog.log.rdropWhile (p.log.head < ·.version)).getLast? with
  | none => max olog.tail orig_tail
  | some e => max (max olog.tail orig_tail) e.version

/-- Extend on head. -/
def extendHead (olog : PgLog ο) (last_backfill : WithTop ο) : Option (PGLog ο × List (Act ο)) :=
  let lower_bound := p.lowerBound orig_tail olog
  match p.log.rewindFromHead lower_bound with
  | none => none
  | some (log, divergent) =>
    let (log, rolled) := log.advanceCanRollbackTo log.head
    let new_entries := olog.log.rtakeWhile (p.log.head < ·.version)
    match appendLogEntriesUpdateMissing last_backfill new_entries false log p.missing with
    | none => none
    | some (log, missing, acts) =>
      (mergeDivergentEntries log divergent last_backfill log.can_rollback_to missing).map fun r =>
        ({ p.markDirtyFrom lower_bound with
            log := { log with head := olog.head }.skipCanRollbackToToHead
            missing := r.1 },
          rolled.map Act.rollforward ++ acts ++ r.2)

/-- The newer dups of the other log go behind ours. -/
def extendDupsBack (last : DupEntry) (odups : List DupEntry) : PGLog ο :=
  let newer := odups.rtakeWhile (last.version < ·.version)
  match newer.head? with
  | none => p
  | some e => { p.markDirtyFromDups e.version with log := { p.log with dups := p.log.dups ++ newer } }

/-- Its older dups go in front of ours. -/
def extendDupsFront (first : DupEntry) (odups : List DupEntry) : PGLog ο :=
  let older := odups.takeWhile (·.version < first.version)
  match older.getLast? with
  | none => p
  | some e => { p.markDirtyToDups e.version with log := { p.log with dups := older ++ p.log.dups } }

/-- Dups that overlap the log leave the back. -/
def dropOverlap : PGLog ο :=
  let gone := p.log.dups.rtakeWhile (p.log.tail ≤ ·.version)
  { p with
    log := { p.log with dups := p.log.dups.rdropWhile (p.log.tail ≤ ·.version) }
    marks_dups := gone.foldr (fun e m => m.markDirtyFrom e.version) p.marks_dups }

def mergeLogDups (olog : PgLog ο) : PGLog ο :=
  let p' := match olog.dups, p.log.dups.head?, p.log.dups.getLast? with
    | [], _, _ => p
    | odups, some first, some last => (p.extendDupsBack last odups).extendDupsFront first odups
    | odups, _, _ =>
      { p with
        log := { p.log with dups := odups }
        marks_dups := { p.marks_dups with dirty_from := .zero, dirty_to := .max } }
  p'.dropOverlap

/-- The middle of `merge_log`: divergent entries to throw out, then the head to extend. -/
def mergeHeads (olog : PgLog ο) (last_backfill : WithTop ο) : Option (PGLog ο × List (Act ο)) :=
  match (if olog.head < p.log.head then p.rewindDivergentLog olog.head last_backfill else some (p, [])) with
  | none => none
  | some (p, acts) =>
    if p.log.head < olog.head then
      (p.extendHead orig_tail olog last_backfill).map fun r => (r.1, acts ++ r.2)
    else some (p, acts)

def mergeLog (olog : PgLog ο) (last_backfill : WithTop ο) : Option (PGLog ο × List (Act ο)) :=
  if (p.log.isNull → olog.tail = .zero) ∧ olog.tail ≤ p.log.head ∧ p.log.tail ≤ olog.head then
    let extended := p.extendTail olog
    (extended.1.mergeHeads p.log.tail extended.2 last_backfill).map fun r => (r.1.mergeLogDups extended.2, r.2)
  else none

/-- `reset_backfill_claim_log`, with `claim_log_and_clear_rollback_info`. -/
def resetBackfillClaimLog (o : PgLog ο) : Option (PGLog ο × List (Act ο)) :=
  let (log, trimmed) := p.log.advanceCanRollbackTo p.log.head
  if log.rollback_info_trimmed_to = log.head ∧ log.log.rtakeWhile (log.rollback_info_trimmed_to < ·.version) = [] then
    some (({ p with log := o.skipCanRollbackToToHead, missing := p.missing.clear }.markDirtyTo .max).markDirtyToDups .max,
      trimmed.map Act.trim)
  else none

/-- `split_into`: this log, and that of a new child. -/
def splitInto (hash : ο → BitVec 32) (child_pgid : PgT) (split_bits : ℕ) : PGLog ο × PGLog ο :=
  let logs := p.log.splitOutChild hash child_pgid split_bits
  let missings := p.missing.splitInto hash child_pgid split_bits .empty
  let parent := { p with log := logs.1, missing := missings.1 }
  let child : PGLog ο :=
    { (new false : PGLog ο) with
      log := logs.2
      missing := missings.2
      rebuilt_missing_with_deletes := p.missing.may_include_deletes }
  ((parent.markDirtyTo .max).markDirtyToDups .max, (child.markDirtyTo .max).markDirtyToDups .max)

def recoverGot (oid : ο) (v : Eversion) : Option (PGLog ο) :=
  let recovered := if p.missing.isMissingAt oid v then p.missing.got oid v else some p.missing
  if v ≤ p.log.can_rollback_to then recovered.map fun missing => { p with missing } else none

end PGLog

/-- What the log reads of its surroundings: the hash of an object and `osd_pg_log_dups_tracked`. -/
structure Conf (ο : Type) where
  hash : ο → BitVec 32
  dups_tracked : ℕ

/-- A call of the log, with what it reads of the group's info. -/
inductive Call (ο : Type)
  | add (e : LogEntry ο) (applied : Bool)
  | appendNewLogEntries (last_backfill : WithTop ο) (entries : List (LogEntry ο))
  | trim (trim_to last_complete : Eversion)
  | mergeLog (olog : PgLog ο) (last_backfill : WithTop ο)
  | rewindDivergentLog (newhead : Eversion) (last_backfill : WithTop ο)
  /-- Go on with the parent. -/
  | splitInto (child_pgid : PgT) (split_bits : ℕ)
  /-- Go on with the new child. -/
  | splitOff (child_pgid : PgT) (split_bits : ℕ)
  | resetBackfillClaimLog (o : PgLog ο)
  | recoverGot (oid : ο) (v : Eversion)
  | missingAdd (oid : ο) (need have' : Eversion)
  | reviseNeed (oid : ο) (need : Eversion) (is_delete : Bool)
  | reviseHave (oid : ο) (have' : Eversion)
  | rm (oid : ο) (v : Eversion)

/-- The log after a call, if no assertion fails. -/
def PGLog.step {ο : Type} [LinearOrder ο] (conf : Conf ο) (p : PGLog ο) : Call ο → Option (PGLog ο)
  | .add e applied => p.add e applied
  | .appendNewLogEntries last_backfill entries => (p.appendNewLogEntries last_backfill entries).map Prod.fst
  | .trim trim_to last_complete => p.trim conf.dups_tracked trim_to last_complete
  | .mergeLog olog last_backfill => (p.mergeLog olog last_backfill).map Prod.fst
  | .rewindDivergentLog newhead last_backfill => (p.rewindDivergentLog newhead last_backfill).map Prod.fst
  | .splitInto child_pgid split_bits => some (p.splitInto conf.hash child_pgid split_bits).1
  | .splitOff child_pgid split_bits => some (p.splitInto conf.hash child_pgid split_bits).2
  | .resetBackfillClaimLog o => (p.resetBackfillClaimLog o).map Prod.fst
  | .recoverGot oid v => p.recoverGot oid v
  | .missingAdd oid need have' => some { p with missing := p.missing.add oid need have' false }
  | .reviseNeed oid need is_delete => some { p with missing := p.missing.reviseNeed oid need is_delete }
  | .reviseHave oid have' => some { p with missing := p.missing.reviseHave oid have' }
  | .rm oid v => some { p with missing := p.missing.rm oid v }

end Lunule.Pg
