import Lunule.Pg.Updates

/-!
# Writing out the log

`write_log_and_missing` brings the stored keys up to date from the marks alone. The keys of the log, of the dups and of
the missing items are three key spaces; within the first two a key names a version and keys are ordered like versions, so
each is a map from versions. Removals of a write are applied before its insertions.

The invariant is that of the library for log and dups, and for the missing set that an object that is not marked as changed
is stored as it is. It needs the lists to be in the strict order of their versions. For the log that follows from the
order of the logs that come in, as long as rewinding, which looks at numbers only, cuts where the versions are cut. For
the dups it fails: `trim` makes a dup of each extra request id of an entry and gives them all the version of the entry, so
they share a key.
-/

namespace Lunule.Pg
open Writeback List LogEntry Marks PGLog Option

/-- The encoding of a missing item; its flags are left out if deletes are not tracked. -/
structure StoredItem where
  need : Eversion
  have' : Eversion
  flags : Option Bool
deriving DecidableEq

def encodeItem (may_include_deletes : Bool) (item : MissingItem) : StoredItem :=
  ⟨item.need, item.have', if may_include_deletes then some item.delete else none⟩

/-- The stored keys: of log entries and dups by the version they name, and of missing items by object. -/
structure Disk (ο : Type) where
  log : Eversion → Option (LogEntry ο)
  dups : Eversion → Option DupEntry
  missing : ο → Option StoredItem

def Disk.empty {ο : Type} : Disk ο := ⟨fun _ => none, fun _ => none, fun _ => none⟩

section
variable {ο : Type} [LinearOrder ο]

namespace PGLog
variable (p : PGLog ο)

def isDirty : Bool :=
  !p.touched_log || p.marks ≠ .clean .zero .max || p.missing.changed ≠ ∅ || p.marks_dups ≠ .clean .zero .max ||
    p.rebuilt_missing_with_deletes

def undirty : PGLog ο :=
  { p with
    marks := .clean .zero .max
    marks_dups := .clean .zero .max
    touched_log := true
    missing := { p.missing with changed := ∅ }
    rebuilt_missing_with_deletes := false }

/-- `_write_log_and_missing`. -/
def writeOut (d : Disk ο) : Disk ο where
  log := flush .zero .max version p.marks p.log.log d.log
  dups := flush .zero .max DupEntry.version p.marks_dups p.log.dups d.dups
  missing := fun o =>
    if o ∈ p.missing.changed then (p.missing.isMissing o).map (encodeItem p.missing.may_include_deletes)
    else d.missing o

def writeLogAndMissing (d : Disk ο) : PGLog ο × Disk ο := if p.isDirty then (p.undirty, p.writeOut d) else (p, d)

end PGLog

inductive Event (ο : Type)
  | call (c : Call ο)
  | write

/-- The keys that the log after a call is stored under: a new child starts with none. -/
def Disk.after {ο : Type} (d : Disk ο) : Call ο → Disk ο
  | .splitOff _ _ => .empty
  | _ => d

structure Stored (ο : Type) [LinearOrder ο] where
  pg : PGLog ο
  disk : Disk ο

def Stored.new (may_include_deletes : Bool) : Stored ο := ⟨.new may_include_deletes, .empty⟩

def Stored.step (conf : Conf ο) (s : Stored ο) : Event ο → Option (Stored ο)
  | .call c => (s.pg.step conf c).map fun pg => ⟨pg, s.disk.after c⟩
  | .write => some ⟨(s.pg.writeLogAndMissing s.disk).1, (s.pg.writeLogAndMissing s.disk).2⟩

end

/-!
### Logs in order
-/

section
variable {ο : Type}

/-- A log in the order of its versions, between its tail and its head, and dups in order. -/
@[mk_iff]
structure PgLog.Ordered (l : PgLog ο) : Prop where
  log_sorted : Sorted version l.log
  log_bound : ∀ e ∈ l.log, l.tail < e.version ∧ e.version ≤ l.head ∧ e.version < .max
  dups_sorted : Sorted DupEntry.version l.dups
  dups_bound : ∀ d ∈ l.dups, .zero < d.version ∧ d.version < .max
  tail_le : l.tail ≤ l.head
  can_rollback_to_le : l.can_rollback_to ≤ l.head

instance {κ β : Type} [LinearOrder κ] (key : β → κ) (mem : List β) : Decidable (Sorted key mem) :=
  inferInstanceAs (Decidable (mem.Pairwise fun a b => key a < key b))

instance (l : PgLog ο) : Decidable l.Ordered := decidable_of_iff _ l.ordered_iff.symm

def PgLog.DupsBelow (l : PgLog ο) : Prop := ∀ d ∈ l.dups, d.version ≤ l.tail

instance (l : PgLog ο) : Decidable l.DupsBelow := inferInstanceAs (Decidable (∀ d ∈ l.dups, d.version ≤ l.tail))

/-- The entries numbered up to `newhead` are those up to `newhead`. -/
def PgLog.Cuts (l : PgLog ο) (newhead : Eversion) : Prop :=
  ∀ e ∈ l.log, e.version.version ≤ newhead.version → e.version ≤ newhead

instance (l : PgLog ο) (newhead : Eversion) : Decidable (l.Cuts newhead) :=
  inferInstanceAs (Decidable (∀ e ∈ l.log, e.version.version ≤ newhead.version → e.version ≤ newhead))

variable {l l' : PgLog ο} {v : Eversion} {e : LogEntry ο} {applied : Bool}

theorem PgLog.Ordered.advance (h : l.Ordered) (hv : v ≤ l.head) : (l.advanceCanRollbackTo v).1.Ordered :=
  { h with can_rollback_to_le := max_le h.can_rollback_to_le hv }

private theorem sorted_concat {l : List (LogEntry ο)} (h : Sorted version l) (hlt : ∀ a ∈ l, a.version < e.version) :
    Sorted version (l ++ [e]) := by
  refine pairwise_append.2 ⟨h, pairwise_singleton _ _, fun a ha b hb => ?_⟩
  rw [mem_singleton.1 hb]
  exact hlt a ha

theorem PgLog.add_eq_some (h : l.add e applied = some l') :
    l.head < e.version ∧ l'.log = l.log ++ [e] ∧ l'.head = e.version ∧ l'.tail = l.tail ∧ l'.dups = l.dups ∧
      (l.can_rollback_to ≤ l.head → l'.can_rollback_to ≤ l'.head) := by
  obtain ⟨hok, h⟩ := ite_none_right_eq_some.1 h
  cases h
  cases applied with
  | true => exact ⟨hok.2.1, rfl, rfl, rfl, rfl, fun hle => hle.trans hok.2.1.le⟩
  | false => exact ⟨hok.2.1, rfl, rfl, rfl, rfl, fun hle => max_le (hle.trans hok.2.1.le) (le_refl _)⟩

private theorem PgLog.Ordered.add (ho : l.Ordered) (hv : e.version < .max) (h : l.add e applied = some l') :
    l'.Ordered := by
  obtain ⟨hlt, hlog, hhead, htail, hdups, hcrt⟩ := PgLog.add_eq_some h
  refine ⟨?_, ?_, hdups ▸ ho.dups_sorted, ?_, ?_, hcrt ho.can_rollback_to_le⟩
  · rw [hlog]
    exact sorted_concat ho.log_sorted fun a ha => (ho.log_bound a ha).2.1.trans_lt hlt
  · intro a ha
    rw [hlog, mem_append] at ha
    rw [htail, hhead]
    rcases ha with ha | ha
    · obtain ⟨h1, h2, h3⟩ := ho.log_bound a ha
      exact ⟨h1, h2.trans hlt.le, h3⟩
    · rw [mem_singleton.1 ha]
      exact ⟨ho.tail_le.trans_lt hlt, le_refl _, hv⟩
  · rw [hdups]
    exact ho.dups_bound
  · rw [htail, hhead]
    exact ho.tail_le.trans hlt.le

private theorem flatMap_toDups {l : List (LogEntry ο)} (h : ∀ e ∈ l, e.extra_reqids = []) :
    l.flatMap toDups = l.map fun e => ⟨e.reqid, e.version, e.user_version, e.return_code⟩ := by
  induction l with
  | nil => rfl
  | cons e l ih =>
    rw [flatMap_cons, ih (forall_mem_cons.1 h).2, toDups, h e (by simp)]
    rfl

private theorem version_of_mem_toDups {x : DupEntry} (h : x ∈ e.toDups) : x.version = e.version := by
  rcases mem_cons.1 h with rfl | h
  · rfl
  · obtain ⟨extra, -, rfl⟩ := mem_map.1 h
    rfl

private theorem PgLog.Ordered.trim {gone kept : List (LogEntry ο)} {new : List DupEntry} (h : l.Ordered)
    (hbelow : l.DupsBelow) (hsplit : gone ++ kept = l.log) (hkept : ∀ e ∈ kept, v < e.version)
    (hnew : ∀ x ∈ new, ∃ e ∈ gone, x.version = e.version) (hsorted : Sorted DupEntry.version new)
    (hle : v ≤ l.can_rollback_to) : ({ l with log := kept, dups := l.dups ++ new, tail := v } : PgLog ο).Ordered := by
  have hlog := hsplit ▸ h.log_sorted
  have hbound :=
    fun e he => h.log_bound e (hsplit ▸ he)
  refine ⟨(pairwise_append.1 hlog).2.1, ?_, ?_, ?_, hle.trans h.can_rollback_to_le, h.can_rollback_to_le⟩
  · intro e he
    exact ⟨hkept e he, (hbound e (mem_append_right _ he)).2⟩
  · refine pairwise_append.2 ⟨h.dups_sorted, hsorted, fun a ha b hb => ?_⟩
    obtain ⟨e, he, hb⟩ := hnew b hb
    rw [hb]
    exact (hbelow a ha).trans_lt (hbound e (mem_append_left _ he)).1
  · intro x hx
    rcases mem_append.1 hx with hx | hx
    · exact h.dups_bound x hx
    · obtain ⟨e, he, hxe⟩ := hnew x hx
      rw [hxe]
      obtain ⟨h1, -, h3⟩ := hbound e (mem_append_left _ he)
      exact ⟨(Eversion.zero_le _).trans_lt h1, h3⟩

theorem PgLog.Ordered.rewind {newhead : Eversion} {divergent : List (LogEntry ο)} (h : l.Ordered)
    (hcut : l.Cuts newhead) (hrew : l.rewindFromHead newhead = some (l', divergent)) :
    l'.Ordered ∧ l'.log ++ divergent = l.log ∧ l'.dups = l.dups ∧ l'.head = newhead ∧ l'.tail = l.tail ∧
      ∀ e ∈ divergent, newhead < e.version := by
  obtain ⟨htail, hgt, rfl, rfl⟩ := PgLog.rewindFromHead_eq_some.1 hrew
  obtain ⟨kept, hkept⟩ : ∃ kept, l.log.rdropWhile (newhead.version < ·.version.version) = kept := ⟨_, rfl⟩
  have hsplit : kept ++ l.divergent newhead = l.log := by
    rw [← hkept]
    exact rdropWhile_append_rtakeWhile
  have hsorted : Sorted version kept := by
    have hs := h.log_sorted
    rw [← hsplit] at hs
    exact (pairwise_append.1 hs).1
  have hmem : ∀ e ∈ kept, e ∈ l.log := fun e he => hsplit ▸ mem_append_left _ he
  -- the last entry kept has a number up to that of the new head, so it is not past it, nor is any before it
  have hle : ∀ e ∈ kept, e.version ≤ newhead := by
    intro e he
    have hne : kept ≠ [] := ne_nil_of_mem he
    have hlast : ¬newhead.version < (kept.getLast hne).version.version := by
      subst hkept
      have := rdropWhile_last_not _ _ hne
      simpa using this
    have hcut := hcut _ (hmem _ (getLast_mem hne)) (Nat.le_of_not_lt hlast)
    exact (hsorted.le_getLast (List.getLast?_eq_some_getLast hne) he).trans hcut
  rw [hkept]
  refine ⟨⟨hsorted, ?_, h.dups_sorted, h.dups_bound, htail, min_le_right _ _⟩, hsplit, rfl, rfl, rfl, hgt⟩
  intro e he
  obtain ⟨h1, -, h3⟩ := h.log_bound e (hmem e he)
  exact ⟨h1, hle e he, h3⟩

theorem PgLog.Ordered.splitOutChild {hash : ο → BitVec 32} {child : PgT} {bits : ℕ} (h : l.Ordered) :
    (l.splitOutChild hash child bits).1.Ordered ∧ (l.splitOutChild hash child bits).2.Ordered := by
  have hfst : ∀ part : List (LogEntry ο), part.Sublist l.log → ({ l with log := part } : PgLog ο).Ordered :=
    fun part hsub => ⟨h.log_sorted.sublist hsub, fun e he => h.log_bound e (hsub.mem he), h.dups_sorted, h.dups_bound,
      h.tail_le, h.can_rollback_to_le⟩
  obtain ⟨h1, h2⟩ := splitsBy_log hash child bits l
  constructor
  · have hpart := hfst (l.splitOutChild hash child bits).1.log (by rw [h1]; exact filter_sublist)
    exact hpart
  · have hpart := hfst (l.splitOutChild hash child bits).2.log (by rw [h2]; exact filter_sublist)
    exact hpart

theorem PgLog.Ordered.bound (h : l.Ordered) (he : e ∈ l.log) : .zero < e.version ∧ e.version < .max :=
  ⟨(Eversion.zero_le _).trans_lt (h.log_bound e he).1, (h.log_bound e he).2.2⟩

end

section
variable {ο : Type} [LinearOrder ο]

/-- `merge_log` rewinds to a version that cuts the log. -/
def PGLog.MergeCuts (p : PGLog ο) (orig_tail : Eversion) (olog : PgLog ο) : Prop :=
  (olog.head < p.log.head → p.log.Cuts olog.head) ∧ (p.log.head < olog.head → p.log.Cuts (p.lowerBound orig_tail olog))

instance (p : PGLog ο) (orig_tail : Eversion) (olog : PgLog ο) : Decidable (p.MergeCuts orig_tail olog) :=
  inferInstanceAs (Decidable (_ ∧ _))

/-- The condition on a call: logs that come in are in order, versions are below the greatest one, rewinding cuts at a
version, and no entry that `trim` makes a dup of has extra request ids. -/
def PGLog.Admissible (conf : Conf ο) (p : PGLog ο) : Call ο → Prop
  | .add e _ => e.version < .max
  | .appendNewLogEntries _ entries => ∀ e ∈ entries, e.version < .max
  | .trim trim_to _ => ∀ earliest ∈ p.log.earliestDupVersion conf.dups_tracked, ∀ e ∈ p.log.log,
      e.version ≤ trim_to → earliest ≤ e.version.version → e.extra_reqids = []
  | .mergeLog olog _ => olog.Ordered ∧ (p.extendTail olog).1.MergeCuts p.log.tail (p.extendTail olog).2
  | .rewindDivergentLog newhead _ => p.log.Cuts newhead
  | .resetBackfillClaimLog o => o.Ordered ∧ o.DupsBelow
  | _ => True

instance (conf : Conf ο) (p : PGLog ο) (c : Call ο) : Decidable (p.Admissible conf c) :=
  match c with
  | .add _ _ => inferInstanceAs (Decidable (_ < _))
  | .appendNewLogEntries _ _ => inferInstanceAs (Decidable (∀ _ ∈ _, _ < _))
  | .trim _ _ => inferInstanceAs (Decidable (∀ _ ∈ _, ∀ _ ∈ _, _ ≤ _ → _ ≤ _ → _ = _))
  | .mergeLog _ _ => inferInstanceAs (Decidable (_ ∧ _))
  | .rewindDivergentLog newhead _ => inferInstanceAs (Decidable (p.log.Cuts newhead))
  | .resetBackfillClaimLog _ => inferInstanceAs (Decidable (_ ∧ _))
  | .splitInto .. | .splitOff .. | .recoverGot .. | .missingAdd .. | .reviseNeed .. | .reviseHave .. | .rm .. =>
    isTrue trivial

def Stored.Admissible (conf : Conf ο) (s : Stored ο) : Event ο → Prop
  | .call c => s.pg.Admissible conf c
  | .write => True

instance (conf : Conf ο) (s : Stored ο) (e : Event ο) : Decidable (s.Admissible conf e) :=
  match e with
  | .call c => inferInstanceAs (Decidable (s.pg.Admissible conf c))
  | .write => isTrue trivial

end

/-!
### The log
-/

section
variable {ο : Type} [LinearOrder ο]

/-- The lists are in order, and the marks cover what is not stored. -/
structure Logged (p : PGLog ο) (d : Disk ο) : Prop where
  ordered : p.log.Ordered
  log : Tracks .zero .max version p.marks d.log p.log.log
  dups : Tracks .zero .max DupEntry.version p.marks_dups d.dups p.log.dups

variable {p p' : PGLog ο} {d : Disk ο} {l l' olog : PgLog ο} {acts : List (Act ο)} {last_backfill : WithTop ο}
  {v : Eversion} {e : LogEntry ο} {entries : List (LogEntry ο)} {orig_tail : Eversion}

private theorem Logged.of_log (h : Logged p d) (ho : p'.log.Ordered) (hdups : p'.log.dups = p.log.dups)
    (hmarks : p'.marks_dups = p.marks_dups) (ht : Tracks .zero .max version p'.marks d.log p'.log.log) :
    Logged p' d :=
  ⟨ho, ht, by rw [hdups, hmarks]; exact h.dups⟩

theorem Logged.add {applied : Bool} (h : Logged p d) (hv : e.version < .max) (hstep : p.add e applied = some p') :
    Logged p' d := by
  obtain ⟨log, hadd, rfl⟩ := map_eq_some_iff.1 hstep
  obtain ⟨-, hlog, -, -, hdups, -⟩ := PgLog.add_eq_some hadd
  refine h.of_log (h.ordered.add hv hadd) hdups rfl ?_
  rw [hlog]
  refine h.log.grow le_markWriteoutFrom rfl (fun _ => mem_append) fun b hb => ?_
  rw [mem_singleton.1 hb]
  exact covers_markWriteoutFrom (le_refl _)

theorem appendLogEntries_spec {maintain : Bool} {m m' : MissingSet ο} (ho : l.Ordered)
    (hv : ∀ e ∈ entries, e.version < .max)
    (h : appendLogEntries last_backfill maintain entries l m = some (l', m', acts)) :
    l'.Ordered ∧ l'.log = l.log ++ entries ∧ l'.tail = l.tail ∧ l'.dups = l.dups ∧
      (l'.head = l.head ∨ ∃ e ∈ entries, l'.head = e.version) ∧ ∀ e ∈ entries, l.head < e.version := by
  induction entries generalizing l m acts with
  | nil =>
    cases h
    exact ⟨ho, by simp, rfl, rfl, .inl rfl, by simp⟩
  | cons e es ih =>
    obtain ⟨l1, m1, acts1, r1, hadd, -, hrest, heq⟩ := appendLogEntries_cons.1 h
    cases heq
    obtain ⟨hlt, hlog, hhead, htail, hdups, -⟩ := PgLog.add_eq_some hadd
    obtain ⟨ho', hlog', htail', hdups', hhead', hlt'⟩ :=
      ih (ho.add (hv e (by simp)) hadd) (forall_mem_cons.1 hv).2 hrest
    refine ⟨ho', ?_, htail'.trans htail, hdups'.trans hdups, .inr ?_, ?_⟩
    · rw [hlog', hlog, append_assoc, singleton_append]
    · rcases hhead' with heq | ⟨a, ha, heq⟩
      · exact ⟨e, by simp, heq.trans hhead⟩
      · exact ⟨a, mem_cons_of_mem _ ha, heq⟩
    · intro a ha
      rcases mem_cons.1 ha with rfl | ha
      · exact hlt
      · rw [hhead] at hlt'
        exact hlt.trans (hlt' a ha)

section
variable (h : Logged p d) {earliest : ℕ}
include h

theorem Logged.append (hv : ∀ e ∈ entries, e.version < .max)
    (hstep : p.appendNewLogEntries last_backfill entries = some (p', acts)) : Logged p' d := by
  obtain ⟨⟨log, m, acts'⟩, happ, heq⟩ := map_eq_some_iff.1 hstep
  obtain ⟨-, happ⟩ := ite_none_right_eq_some.1 happ
  obtain ⟨ho, hlog, -, hdups, -, -⟩ := appendLogEntries_spec h.ordered hv happ
  cases entries with
  | nil =>
    cases heq
    rw [append_nil] at hlog
    refine h.of_log ho hdups rfl ?_
    show Tracks _ _ _ p.marks d.log log.log
    rw [hlog]
    exact h.log
  | cons first rest =>
    cases heq
    have hsorted : Sorted version (first :: rest) := by
      have hs := ho.log_sorted
      rw [hlog] at hs
      exact (pairwise_append.1 hs).2.1
    refine h.of_log ho hdups rfl ?_
    show Tracks _ _ _ (p.marks.markWriteoutFrom first.version) d.log log.log
    rw [hlog]
    exact h.log.grow le_markWriteoutFrom rfl (fun _ => mem_append) fun b hb =>
      covers_markWriteoutFrom (hsorted.head_le rfl hb)

private theorem Logged.trimLog (hbelow : p.log.DupsBelow)
    (hextra : ∀ e ∈ p.log.log, e.version ≤ v → earliest ≤ e.version.version → e.extra_reqids = [])
    (htail : p.log.tail < v) (hle : v ≤ p.log.can_rollback_to) :
    Logged { p.trimLog v earliest with log := { (p.trimLog v earliest).log with tail := v } } d ∧
      { (p.trimLog v earliest).log with tail := v }.DupsBelow := by
  obtain ⟨gone, hgone⟩ : ∃ gone, p.log.log.takeWhile (fun e => e.version ≤ v) = gone := ⟨_, rfl⟩
  obtain ⟨kept, hkept⟩ : ∃ kept, p.log.log.dropWhile (fun e => e.version ≤ v) = kept := ⟨_, rfl⟩
  obtain ⟨dupped, hdupped⟩ : ∃ dupped, gone.filter (fun e => earliest ≤ e.version.version) = dupped := ⟨_, rfl⟩
  have hsplit : gone ++ kept = p.log.log := by
    rw [← hgone, ← hkept]
    exact takeWhile_append_dropWhile
  have hgone_le : ∀ e ∈ gone, e.version ≤ v := by
    intro e he
    rw [← hgone, takeWhile_eq_filter (h.ordered.log_sorted.pairwise_le v)] at he
    exact of_decide_eq_true (mem_filter.1 he).2
  have hkept_gt : ∀ e ∈ kept, v < e.version := by
    intro e he
    rw [← hkept, dropWhile_eq_filter (h.ordered.log_sorted.pairwise_le v)] at he
    have := (mem_filter.1 he).2
    simpa using this
  have hdupped_mem : ∀ e ∈ dupped, e ∈ gone ∧ e.extra_reqids = [] := by
    intro e he
    rw [← hdupped] at he
    obtain ⟨he, hnum⟩ := mem_filter.1 he
    exact ⟨he, hextra e (hsplit ▸ mem_append_left _ he) (hgone_le e he) (of_decide_eq_true hnum)⟩
  have hnew : ∀ x ∈ dupped.flatMap toDups, ∃ e ∈ dupped, x.version = e.version := by
    intro x hx
    obtain ⟨e, he, hxe⟩ := mem_flatMap.1 hx
    exact ⟨e, he, version_of_mem_toDups hxe⟩
  have hsorted : Sorted DupEntry.version (dupped.flatMap toDups) := by
    rw [flatMap_toDups fun e he => (hdupped_mem e he).2]
    have hlog := hsplit ▸ h.ordered.log_sorted
    refine pairwise_map.2 ?_
    rw [← hdupped]
    exact ((pairwise_append.1 hlog).1).filter _
  have heq : p.trimLog v earliest = { p with
      log := { p.log with log := kept, dups := p.log.dups ++ dupped.flatMap toDups }
      marks := gone.foldl (fun m e => m.markTrimmed e.version) p.marks
      marks_dups := dupped.foldl (fun m e => m.markWriteoutFrom e.version) p.marks_dups } := by
    unfold PGLog.trimLog
    dsimp only
    rw [hgone, hkept, hdupped]
  rw [heq]
  refine ⟨⟨?_, ?_, ?_⟩, ?_⟩
  · refine h.ordered.trim hbelow hsplit hkept_gt (fun x hx => ?_) hsorted hle
    obtain ⟨e, he, hxe⟩ := hnew x hx
    exact ⟨e, (hdupped_mem e he).1, hxe⟩
  · show Tracks _ _ _ (gone.foldl (fun m e => m.markTrimmed e.version) p.marks) d.log kept
    rw [← hgone, ← hkept]
    exact h.log.trimFront h.ordered.log_sorted _
  · obtain ⟨hmarks, htrim, hall⟩ := foldl_markWriteoutFrom version dupped p.marks_dups
    refine h.dups.grow hmarks htrim (fun _ => mem_append) fun b hb => ?_
    obtain ⟨e, he, hbe⟩ := hnew b hb
    exact .inr (.inr (by rw [hbe]; exact hall e he))
  · intro x hx
    rcases mem_append.1 hx with hx | hx
    · exact (hbelow x hx).trans htail.le
    · obtain ⟨e, he, hxe⟩ := hnew x hx
      rw [hxe]
      exact hgone_le e (hdupped_mem e he).1

private theorem Logged.trimDups : Logged (p.trimDups earliest) d := by
  have hsub := dropWhile_suffix (l := p.log.dups) (fun x => decide (x.version.version < earliest))
  refine ⟨{ h.ordered with dups_sorted := ?_, dups_bound := ?_ }, h.log, h.dups.trimFront h.ordered.dups_sorted _⟩
  · exact h.ordered.dups_sorted.sublist hsub.sublist
  · exact fun x hx => h.ordered.dups_bound x (hsub.mem hx)

theorem Logged.trim {n : ℕ} {trim_to last_complete : Eversion} (hbelow : p.log.DupsBelow)
    (hextra : ∀ earliest ∈ p.log.earliestDupVersion n, ∀ e ∈ p.log.log, e.version ≤ trim_to →
      earliest ≤ e.version.version → e.extra_reqids = [])
    (hstep : p.trim n trim_to last_complete = some p') : Logged p' d ∧ p'.log.DupsBelow := by
  unfold PGLog.trim at hstep
  split at hstep
  · rename_i htail
    obtain ⟨hle, hstep⟩ := ite_none_right_eq_some.1 hstep
    obtain ⟨earliest, hearliest, rfl⟩ := map_eq_some_iff.1 hstep
    obtain ⟨hlogged, hbelow'⟩ := h.trimLog hbelow (hextra earliest hearliest) htail hle.2
    exact ⟨hlogged.trimDups, fun x hx => hbelow' x ((dropWhile_suffix _).mem hx)⟩
  · cases hstep
    exact ⟨h, hbelow⟩

theorem Logged.rewindDivergentLog {newhead : Eversion} (hcut : p.log.Cuts newhead)
    (hstep : p.rewindDivergentLog newhead last_backfill = some (p', acts)) : Logged p' d := by
  obtain ⟨log, divergent, m', hlog, -, rfl⟩ := rewindDivergentLog_eq_some.1 hstep
  obtain ⟨ho, hsplit, hdups, -, -, -⟩ := h.ordered.rewind hcut hlog
  refine h.of_log ho hdups rfl ?_
  cases hdiv : divergent with
  | nil =>
    rw [hdiv, append_nil] at hsplit
    rw [hsplit]
    exact h.log
  | cons first rest =>
    have hsorted : Sorted version (first :: rest) := by
      have hs := h.ordered.log_sorted
      rw [← hsplit, hdiv] at hs
      exact (pairwise_append.1 hs).2.1
    refine h.log.shrink le_markDirtyFrom rfl (fun b => ?_) fun b hb =>
      clears_markDirtyFrom (hsorted.head_le rfl hb)
    rw [← hsplit, hdiv]
    exact mem_append

theorem Logged.extendTail (ho : olog.Ordered) : Logged (p.extendTail olog).1 d := by
  unfold PGLog.extendTail
  split
  · rename_i hlt
    obtain ⟨front, hfront⟩ : ∃ front, olog.log.takeWhile (fun e => e.version ≤ p.log.tail) = front := ⟨_, rfl⟩
    have hmem : ∀ e ∈ front, e ∈ olog.log ∧ e.version ≤ p.log.tail := by
      intro e he
      rw [← hfront, takeWhile_eq_filter (ho.log_sorted.pairwise_le _)] at he
      exact ⟨(mem_filter.1 he).1, of_decide_eq_true (mem_filter.1 he).2⟩
    have hsorted : Sorted version front := by
      rw [← hfront]
      exact ho.log_sorted.sublist (takeWhile_sublist _)
    rw [hfront]
    refine ⟨{ h.ordered with log_sorted := ?_, log_bound := ?_, tail_le := hlt.le.trans h.ordered.tail_le }, ?_, h.dups⟩
    · refine pairwise_append.2 ⟨hsorted, h.ordered.log_sorted, fun a ha b hb => ?_⟩
      exact (hmem a ha).2.trans_lt (h.ordered.log_bound b hb).1
    · intro e he
      rcases mem_append.1 he with he | he
      · obtain ⟨h1, -, h3⟩ := ho.log_bound e (hmem e he).1
        exact ⟨h1, (hmem e he).2.trans h.ordered.tail_le, h3⟩
      · obtain ⟨h1, h2, h3⟩ := h.ordered.log_bound e he
        exact ⟨hlt.trans h1, h2, h3⟩
    · refine h.log.grow le_markDirtyTo rfl (fun _ => mem_append.trans or_comm) fun b hb =>
        covers_markDirtyTo ?_
      have hlast := List.getLast?_eq_some_getLast (ne_nil_of_mem hb)
      rw [hlast]
      exact hsorted.le_getLast hlast hb
  · exact h

end

theorem PGLog.ordered_extendTail (ho : olog.Ordered) : (p.extendTail olog).2.Ordered := by
  unfold PGLog.extendTail
  split
  · have hsub := dropWhile_suffix (l := olog.log) (fun e => decide (e.version ≤ p.log.tail))
    exact { ho with
      log_sorted := ho.log_sorted.sublist hsub.sublist, log_bound := fun e he => ho.log_bound e (hsub.mem he) }
  · exact ho

private theorem PGLog.lowerBound_le (ho : olog.Ordered) (horig : orig_tail ≤ olog.head) :
    p.lowerBound orig_tail olog ≤ olog.head := by
  have hbase := max_le ho.tail_le horig
  unfold lowerBound
  split
  · exact hbase
  · rename_i e he
    have hmem : e ∈ olog.log := rdropWhile_prefix _ _ |>.mem <| List.mem_of_getLast? he
    exact max_le hbase (ho.log_bound e hmem).2.1

private theorem Logged.extendHead (h : Logged p d) (ho : olog.Ordered) (hhead : p.log.head < olog.head)
    (horig : orig_tail ≤ olog.head) (hcut : p.log.Cuts (p.lowerBound orig_tail olog))
    (hstep : p.extendHead orig_tail olog last_backfill = some (p', acts)) : Logged p' d := by
  obtain ⟨log, divergent, log', m1, acts1, m', acts2, hlog, happ, -, rfl, -⟩ := extendHead_eq_some.1 hstep
  obtain ⟨hol, hsplit, hdups, hnewhead, htail, hgt⟩ := h.ordered.rewind hcut hlog
  have hnew : ∀ e ∈ olog.log.rtakeWhile (p.log.head < ·.version), e ∈ olog.log :=
    fun e he => (rtakeWhile_suffix _ _).mem he
  obtain ⟨-, happ⟩ := ite_none_right_eq_some.1 happ
  obtain ⟨hol', hlog', htail', hdups', hhead', hlt⟩ := appendLogEntries_spec (hol.advance (le_refl _))
    (fun e he => (ho.log_bound e (hnew e he)).2.2) happ
  have hold : ∀ e ∈ log.log, e ∈ p.log.log := fun e he => hsplit ▸ mem_append_left _ he
  have hle : ∀ e ∈ log'.log, e.version ≤ olog.head := by
    intro e he
    rw [hlog', mem_append] at he
    rcases he with he | he
    · exact (h.ordered.log_bound e (hold e he)).2.1.trans hhead.le
    · exact (ho.log_bound e (hnew e he)).2.1
  have htl : log'.tail ≤ olog.head := by
    rw [htail']
    exact (htail.trans_le h.ordered.tail_le).trans hhead.le
  have hhl : log'.head ≤ olog.head := by
    rcases hhead' with heq | ⟨e, he, heq⟩
    · rw [heq]
      exact hnewhead.trans_le (lowerBound_le ho horig)
    · rw [heq]
      exact (ho.log_bound e (hnew e he)).2.1
  refine h.of_log ⟨hol'.log_sorted, fun e he => ⟨(hol'.log_bound e he).1, hle e he, (hol'.log_bound e he).2.2⟩, hol'.dups_sorted,
    hol'.dups_bound, htl, max_le (hol'.can_rollback_to_le.trans hhl) (le_refl _)⟩ (hdups'.trans hdups) rfl ?_
  rw [hlog']
  refine h.log.change le_markDirtyFrom (fun b hb => ?_) fun b hb => ?_
  · rcases mem_append.1 hb with hb | hb
    · exact .inl ⟨hold b hb, id⟩
    · exact .inr (covers_markDirtyFrom (hnewhead ▸ (hlt b hb).le))
  · rw [← hsplit, mem_append] at hb
    rcases hb with hb | hb
    · exact .inl ⟨b, mem_append_left _ hb, rfl⟩
    · exact .inr (clears_markDirtyFrom (hgt b hb).le)

theorem Logged.mergeHeads (h : Logged p d) (ho : olog.Ordered) (horig : orig_tail ≤ olog.head)
    (hcut : p.MergeCuts orig_tail olog) (hstep : p.mergeHeads orig_tail olog last_backfill = some (p', acts)) :
    Logged p' d := by
  rcases lt_trichotomy olog.head p.log.head with hlt | heq | hgt
  · rw [mergeHeads_of_lt hlt] at hstep
    exact h.rewindDivergentLog (hcut.1 hlt) hstep
  · rw [mergeHeads_of_eq heq.symm] at hstep
    cases hstep
    exact h
  · rw [mergeHeads_of_gt hgt] at hstep
    exact h.extendHead ho hgt horig (hcut.2 hgt) hstep

end

/-!
### The dups of another log
-/

section
variable {ο : Type} [LinearOrder ο] {p : PGLog ο} {d : Disk ο} {odups : List DupEntry}

variable (h : Logged p d)
include h

private theorem Logged.of_dups {dups : List DupEntry} {m : Marks Eversion}
    (hs : Sorted DupEntry.version dups) (hbound : ∀ x ∈ dups, .zero < x.version ∧ x.version < .max)
    (ht : Tracks .zero .max DupEntry.version m d.dups dups) :
    Logged { p with log := { p.log with dups }, marks_dups := m } d :=
  ⟨{ h.ordered with dups_sorted := hs, dups_bound := hbound }, h.log, ht⟩

private theorem Logged.extendDupsBack {last : DupEntry} (ho : Sorted DupEntry.version odups)
    (hbound : ∀ x ∈ odups, .zero < x.version ∧ x.version < .max) (hlast : p.log.dups.getLast? = some last) :
    Logged (p.extendDupsBack last odups) d ∧ ∃ more, (p.extendDupsBack last odups).log.dups = p.log.dups ++ more := by
  obtain ⟨newer, hnewer⟩ : ∃ newer, odups.rtakeWhile (fun x => last.version < x.version) = newer := ⟨_, rfl⟩
  have hsub : newer <:+ odups := hnewer ▸ rtakeWhile_suffix _ _
  have hgt : ∀ x ∈ newer, last.version < x.version := by
    intro x hx
    rw [← hnewer] at hx
    simpa using mem_rtakeWhile_imp hx
  have hsorted : Sorted DupEntry.version newer := ho.sublist hsub.sublist
  unfold PGLog.extendDupsBack
  dsimp only
  rw [hnewer]
  cases hhead : newer.head? with
  | none => exact ⟨h, [], by simp⟩
  | some e =>
    refine ⟨h.of_dups ?_ ?_ ?_, newer, rfl⟩
    · refine pairwise_append.2 ⟨h.ordered.dups_sorted, hsorted, fun a ha b hb => ?_⟩
      exact (h.ordered.dups_sorted.le_getLast hlast ha).trans_lt (hgt b hb)
    · intro x hx
      rcases mem_append.1 hx with hx | hx
      · exact h.ordered.dups_bound x hx
      · exact hbound x (hsub.mem hx)
    · exact h.dups.grow le_markDirtyFrom rfl (fun _ => mem_append) fun b hb =>
        covers_markDirtyFrom (hsorted.head_le hhead hb)

private theorem Logged.extendDupsFront {first : DupEntry} (ho : Sorted DupEntry.version odups)
    (hbound : ∀ x ∈ odups, .zero < x.version ∧ x.version < .max) (hfirst : p.log.dups.head? = some first) :
    Logged (p.extendDupsFront first odups) d := by
  obtain ⟨older, holder⟩ : ∃ older, odups.takeWhile (fun x => x.version < first.version) = older := ⟨_, rfl⟩
  have hsub : older <+: odups := holder ▸ takeWhile_prefix _
  have hlt : ∀ x ∈ older, x.version < first.version := by
    intro x hx
    rw [← holder] at hx
    simpa using mem_takeWhile_imp hx
  have hsorted : Sorted DupEntry.version older := ho.sublist hsub.sublist
  unfold PGLog.extendDupsFront
  dsimp only
  rw [holder]
  cases hlast : older.getLast? with
  | none => exact h
  | some e =>
    refine h.of_dups ?_ ?_ ?_
    · refine pairwise_append.2 ⟨hsorted, h.ordered.dups_sorted, fun a ha b hb => ?_⟩
      exact (hlt a ha).trans_le (h.ordered.dups_sorted.head_le hfirst hb)
    · intro x hx
      rcases mem_append.1 hx with hx | hx
      · exact hbound x (hsub.mem hx)
      · exact h.ordered.dups_bound x hx
    · exact h.dups.grow le_markDirtyTo rfl (fun _ => mem_append.trans or_comm) fun b hb =>
        covers_markDirtyTo (hsorted.le_getLast hlast hb)

private theorem Logged.dropOverlap : Logged p.dropOverlap d ∧ p.dropOverlap.log.DupsBelow := by
  have hup : p.log.dups.Pairwise fun a b =>
      decide (p.log.tail ≤ a.version) = true → decide (p.log.tail ≤ b.version) = true :=
    List.Pairwise.imp (R := fun a b : DupEntry => a.version < b.version)
      (fun hlt ha => decide_eq_true ((of_decide_eq_true ha).trans hlt.le)) h.ordered.dups_sorted
  have hdrop := rdropWhile_eq_filter hup
  obtain ⟨hmarks, htrim, hall⟩ := foldr_markDirtyFrom DupEntry.version
    (p.log.dups.rtakeWhile (p.log.tail ≤ ·.version)) p.marks_dups
  have hsub := rdropWhile_prefix (p := fun x : DupEntry => decide (p.log.tail ≤ x.version)) (l := p.log.dups)
  constructor
  · refine h.of_dups (h.ordered.dups_sorted.sublist hsub.sublist) (fun x hx => h.ordered.dups_bound x (hsub.mem hx)) ?_
    refine h.dups.shrink hmarks htrim (fun b => ?_) fun b hb => .inr (.inl (hall b hb))
    rw [← mem_append, rdropWhile_append_rtakeWhile]
  intro x hx
  have hx' : x ∈ p.log.dups.rdropWhile (p.log.tail ≤ ·.version) := hx
  rw [hdrop] at hx'
  have hlt := (mem_filter.1 hx').2
  have : x.version < p.log.tail := by simpa using hlt
  exact this.le

theorem Logged.mergeLogDups {olog : PgLog ο} (ho : olog.Ordered) :
    Logged (p.mergeLogDups olog) d ∧ (p.mergeLogDups olog).log.DupsBelow := by
  apply Logged.dropOverlap
  split
  · exact h
  · rename_i first last hfirst hlast _
    obtain ⟨hback, more, hmore⟩ := h.extendDupsBack ho.dups_sorted ho.dups_bound hlast
    refine hback.extendDupsFront ho.dups_sorted ho.dups_bound ?_
    rw [hmore, List.head?_append, hfirst]
    rfl
  · exact h.of_dups ho.dups_sorted ho.dups_bound (h.dups.rewrite (le_refl _) fun x hx => (ho.dups_bound x hx).2)

end
end Lunule.Pg
