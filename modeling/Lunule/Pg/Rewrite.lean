import Lunule.Lib.Exec
import Lunule.Pg.Persist

/-!
# A write is a full rewrite

Every call keeps the log and its dups tracked by the marks, and marks each object whose missing item it changes; so over
any run of admissible calls and writes, what is stored right after a write is what is in memory (`write_eq_rewrite`).
Entries with extra request ids that become dups are not admissible, for good reason: their dups share a key, and only one
of them is stored (`write_drops_dup`).
-/

namespace Lunule.Pg
open Exec Writeback Stored MissingSet
open Std (ExtTreeMap)

/-!
### The missing set
-/

section
variable {ο : Type} [LinearOrder ο] {m m' : MissingSet ο} {R : ℕ → ο → Prop}

structure MissingSet.Marked (m m' : MissingSet ο) : Prop where
  changed : m.changed ⊆ m'.changed
  may_include_deletes : m'.may_include_deletes = m.may_include_deletes
  missing : ∀ o ∉ m'.changed, m'.missing[o]? = m.missing[o]?

private theorem MissingSet.Marked.refl (m : MissingSet ο) : m.Marked m := ⟨fun _ h => h, rfl, fun _ _ => rfl⟩

private theorem MissingSet.Marked.trans {m'' : MissingSet ο} (h : m.Marked m') (h' : m'.Marked m'') : m.Marked m'' := by
  refine ⟨h.changed.trans h'.changed, h'.may_include_deletes.trans h.may_include_deletes, fun o ho => ?_⟩
  rw [h'.missing o ho, h.missing o fun hin => ho (h'.changed hin)]

private theorem MissingSet.Marked.of_insert {oid : ο} (hc : m'.changed = insert oid m.changed)
    (hd : m'.may_include_deletes = m.may_include_deletes) (hm : ∀ o, oid ≠ o → m'.missing[o]? = m.missing[o]?) :
    m.Marked m' := by
  refine ⟨fun o ho => hc ▸ Finset.mem_insert_of_mem ho, hd, fun o ho => hm o ?_⟩
  rintro rfl
  exact ho (hc ▸ Finset.mem_insert_self _ _)

private theorem MissingSet.marked_add {oid : ο} {need have' : Eversion} {del : Bool} :
    m.Marked (m.add oid need have' del) :=
  .of_insert rfl rfl fun o ho => by rw [missing_add, if_neg ho]

private theorem MissingSet.Update.marked (h : m.Update R m') : m.Marked m' := by
  cases h with
  | rmAt hitem => exact .of_insert rfl rfl fun o ho => by rw [missing_rmAt, if_neg ho]
  | add hnone hR => exact marked_add
  | replace hitem hR => exact .of_insert rfl rfl fun o ho => by rw [missing_replace, if_neg ho]
  | @reviseHave oid have' =>
    unfold MissingSet.reviseHave
    split
    · refine .of_insert rfl rfl fun o ho => ?_
      rw [ExtTreeMap.getElem?_insert, if_neg fun heq => ho (compare_eq_iff_eq.1 heq)]
    · exact .refl m
  | clear =>
    have hmem : ∀ (l : List ο) (c : Finset ο) o, o ∈ l.foldl (fun c o => insert o c) c ↔ o ∈ c ∨ o ∈ l := by
      intro l
      induction l with
      | nil => simp
      | cons a l ih =>
        intro c o
        rw [List.foldl_cons, ih, Finset.mem_insert, List.mem_cons, or_comm (a := o = a), or_assoc]
    refine ⟨fun o ho => (hmem _ _ o).2 (.inl ho), rfl, fun o ho => ?_⟩
    have hno : o ∉ m.missing.keys := fun hin => ho ((hmem _ _ o).2 (.inr hin))
    rw [ExtTreeMap.mem_keys] at hno
    rw [ExtTreeMap.getElem?_eq_none hno]
    simp [MissingSet.clear]

private theorem MissingSet.Updates.marked (h : m.Updates R m') : m.Marked m' := by
  induction h with
  | refl => exact .refl m
  | tail _ hlast ih => exact ih.trans hlast.marked

private theorem PGLog.marked_step {conf : Conf ο} {p p' : PGLog ο} {c : Call ο} (h : p.step conf c = some p') :
    (p.baseMissing c).Marked p'.missing := by
  cases c with
  | missingAdd oid need have' =>
    obtain rfl := Option.some.inj h
    exact marked_add
  | _ =>
    refine (PGLog.updates_step (R := fun _ _ => True) (fun _ _ => trivial) (fun _ _ _ => trivial) ?_ h).marked
    trivial

end

/-!
### Runs
-/

section
variable {ο : Type} [LinearOrder ο] {conf : Conf ο} {p p' : PGLog ο} {d : Disk ο} {c : Call ο}

structure Saved (p : PGLog ο) (d : Disk ο) : Prop where
  logged : Logged p d
  below : p.log.DupsBelow
  missing : ∀ o ∉ p.missing.changed, d.missing o = p.missing.missing[o]?.map (encodeItem p.missing.may_include_deletes)

private theorem Logged.rewrite {l : PgLog ο} {m : MissingSet ο} {touched rebuilt : Bool} (h : Logged p d)
    (ho : l.Ordered) :
    Logged (({ p with log := l, missing := m, touched_log := touched, rebuilt_missing_with_deletes := rebuilt } : PGLog ο)
      |>.markDirtyTo .max |>.markDirtyToDups .max) d :=
  ⟨ho, h.log.rewrite (le_max_right _ _) fun e he => (ho.log_bound e he).2.2,
    h.dups.rewrite (le_max_right _ _) fun x hx => (ho.dups_bound x hx).2⟩

private theorem logged_new (may_include_deletes : Bool) : Logged (PGLog.new may_include_deletes : PGLog ο) .empty := by
  have htrack : ∀ {β : Type} (key : β → Eversion),
      Tracks .zero .max key (Marks.clean .zero .max) (fun _ => none) ([] : List β) :=
    fun key => ⟨by simp, fun k hk => absurd rfl hk, fun k hk => absurd rfl hk⟩
  exact ⟨⟨.nil, by simp [PGLog.new, PgLog.empty], .nil, by simp [PGLog.new, PgLog.empty], le_refl _, le_refl _⟩,
    htrack _, htrack _⟩

private theorem logged_step (h : Logged p d) (hbelow : p.log.DupsBelow) (hok : p.Admissible conf c)
    (hstep : p.step conf c = some p') : Logged p' (d.after c) ∧ p'.log.DupsBelow := by
  cases c with
  | add e applied =>
    refine ⟨h.add hok hstep, ?_⟩
    obtain ⟨log, hadd, rfl⟩ := Option.map_eq_some_iff.1 hstep
    obtain ⟨-, -, -, htail, hdups, -⟩ := PgLog.add_eq_some hadd
    intro x hx
    rw [hdups] at hx
    exact htail ▸ hbelow x hx
  | appendNewLogEntries last_backfill entries =>
    obtain ⟨⟨q, acts⟩, hq, rfl⟩ := Option.map_eq_some_iff.1 hstep
    refine ⟨h.append hok hq, ?_⟩
    obtain ⟨⟨log, m, acts'⟩, happ, heq⟩ := Option.map_eq_some_iff.1 hq
    obtain ⟨-, happ⟩ := Option.ite_none_right_eq_some.1 happ
    obtain ⟨-, -, htail, hdups, -⟩ := appendLogEntries_spec h.ordered hok happ
    have hlog : q.log = log := by
      cases entries <;> cases heq <;> rfl
    intro x hx
    rw [hlog, hdups] at hx
    rw [hlog, htail]
    exact hbelow x hx
  | trim trim_to last_complete => exact h.trim hbelow hok hstep
  | mergeLog olog last_backfill =>
    obtain ⟨⟨q, acts⟩, hq, rfl⟩ := Option.map_eq_some_iff.1 hstep
    obtain ⟨⟨-, -, htail⟩, p1, hheads, rfl⟩ := PGLog.mergeLog_eq_some.1 hq
    have ho := PGLog.ordered_extendTail (p := p) hok.1
    have horig : p.log.tail ≤ (p.extendTail olog).2.head := by
      have hhead : (p.extendTail olog).2.head = olog.head := by
        unfold PGLog.extendTail
        split <;> rfl
      rw [hhead]
      exact htail
    exact ((h.extendTail hok.1).mergeHeads ho horig hok.2 hheads).mergeLogDups ho
  | rewindDivergentLog newhead last_backfill =>
    obtain ⟨⟨q, acts⟩, hq, rfl⟩ := Option.map_eq_some_iff.1 hstep
    refine ⟨h.rewindDivergentLog hok hq, ?_⟩
    obtain ⟨log, divergent, -, hlog, -, rfl⟩ := PGLog.rewindDivergentLog_eq_some.1 hq
    obtain ⟨-, -, hdups, -, htail, -⟩ := h.ordered.rewind hok hlog
    intro x hx
    rw [hdups] at hx
    exact htail ▸ hbelow x hx
  | splitInto child bits =>
    obtain rfl := Option.some.inj hstep
    exact ⟨h.rewrite h.ordered.splitOutChild.1, hbelow⟩
  | splitOff child bits =>
    obtain rfl := Option.some.inj hstep
    exact ⟨(logged_new false).rewrite h.ordered.splitOutChild.2, hbelow⟩
  | resetBackfillClaimLog o =>
    obtain ⟨⟨q, acts⟩, hq, rfl⟩ := Option.map_eq_some_iff.1 hstep
    obtain ⟨-, hq⟩ := Option.ite_none_right_eq_some.1 hq
    cases hq
    exact ⟨h.rewrite (hok.1.advance (le_refl _)), hok.2⟩
  | recoverGot oid v =>
    obtain ⟨-, hstep⟩ := Option.ite_none_right_eq_some.1 hstep
    obtain ⟨m, -, rfl⟩ := Option.map_eq_some_iff.1 hstep
    exact ⟨⟨h.ordered, h.log, h.dups⟩, hbelow⟩
  | missingAdd oid need have' =>
    obtain rfl := Option.some.inj hstep
    exact ⟨⟨h.ordered, h.log, h.dups⟩, hbelow⟩
  | reviseNeed oid need is_delete =>
    obtain rfl := Option.some.inj hstep
    exact ⟨⟨h.ordered, h.log, h.dups⟩, hbelow⟩
  | reviseHave oid have' =>
    obtain rfl := Option.some.inj hstep
    exact ⟨⟨h.ordered, h.log, h.dups⟩, hbelow⟩
  | rm oid v =>
    obtain rfl := Option.some.inj hstep
    exact ⟨⟨h.ordered, h.log, h.dups⟩, hbelow⟩

private theorem Saved.step (h : Saved p d) (hok : p.Admissible conf c) (hstep : p.step conf c = some p') :
    Saved p' (d.after c) := by
  obtain ⟨hlogged, hbelow⟩ := logged_step h.logged h.below hok hstep
  refine ⟨hlogged, hbelow, fun o ho => ?_⟩
  have hmark := PGLog.marked_step hstep
  rw [hmark.missing o ho, hmark.may_include_deletes]
  cases c with
  | splitOff child bits => simp [Disk.after, Disk.empty, PGLog.baseMissing, empty]
  | _ => exact h.missing o fun hin => ho (hmark.changed hin)

structure Rewritten (p : PGLog ο) (d : Disk ο) : Prop where
  log : d.log = lookup LogEntry.version p.log.log
  dups : d.dups = lookup DupEntry.version p.log.dups
  missing : ∀ o, d.missing o = p.missing.missing[o]?.map (encodeItem p.missing.may_include_deletes)

private theorem Saved.write (h : Saved p d) : Saved (p.writeLogAndMissing d).1 (p.writeLogAndMissing d).2 ∧
      Rewritten (p.writeLogAndMissing d).1 (p.writeLogAndMissing d).2 := by
  have hlog := flush_eq_lookup h.logged.log h.logged.ordered.log_sorted
  have hdups := flush_eq_lookup h.logged.dups h.logged.ordered.dups_sorted
  have hmiss : ∀ o, (p.writeOut d).missing o =
      p.missing.missing[o]?.map (encodeItem p.missing.may_include_deletes) := by
    intro o
    show (if o ∈ p.missing.changed then _ else _) = _
    split
    · rfl
    · rename_i ho
      exact h.missing o ho
  have hrew : Rewritten p.undirty (p.writeOut d) := ⟨hlog, hdups, hmiss⟩
  unfold PGLog.writeLogAndMissing
  by_cases hdirty : p.isDirty = true
  · rw [if_pos hdirty]
    refine ⟨⟨⟨h.logged.ordered, ?_, ?_⟩, h.below, fun o _ => hmiss o⟩, hrew⟩
    · show Tracks _ _ _ _ (p.writeOut d).log _
      rw [hrew.log]
      exact tracks_clean h.logged.ordered.log_sorted fun e he => h.logged.ordered.bound he
    · show Tracks _ _ _ _ (p.writeOut d).dups _
      rw [hrew.dups]
      exact tracks_clean h.logged.ordered.dups_sorted h.logged.ordered.dups_bound
  · -- nothing is marked, so everything is stored
    rw [if_neg hdirty]
    simp only [PGLog.isDirty, Bool.or_eq_true, decide_eq_true_eq, not_or, not_not] at hdirty
    obtain ⟨⟨⟨⟨-, hmarks⟩, hchanged⟩, hmarks_dups⟩, -⟩ := hdirty
    have htrack := h.logged.log
    have htrack_dups := h.logged.dups
    rw [hmarks] at htrack
    rw [hmarks_dups] at htrack_dups
    refine ⟨h, htrack.eq_lookup h.logged.ordered.log_sorted fun e he => h.logged.ordered.bound he,
      htrack_dups.eq_lookup h.logged.ordered.dups_sorted h.logged.ordered.dups_bound, fun o => h.missing o ?_⟩
    rw [hchanged]
    exact Finset.notMem_empty o

private theorem eq_some_iff_of_lookup {β : Type} {key : β → Eversion} {mem : List β} {stored : Eversion → Option β}
    (h : stored = lookup key mem) (hs : Sorted key mem) (v : Eversion) (b : β) :
    stored v = some b ↔ b ∈ mem ∧ key b = v := by
  rw [h]
  constructor
  · intro heq
    have hmem := List.mem_of_find?_eq_some heq
    have hkey := List.find?_some heq
    exact ⟨hmem, by simpa using hkey⟩
  · rintro ⟨hmem, rfl⟩
    exact lookup_eq_some hs hmem

/-- Over any run of calls and writes from an empty log whose calls are all admissible, right after a write the keys of the
log, of the dups and of the missing items are exactly those of the entries, the dups and the items in memory. -/
theorem write_eq_rewrite (conf : Conf ο) (may_include_deletes : Bool) (events : List (Event ο)) (s : Stored ο)
    (hok : AllSteps (step conf) (Stored.Admissible conf) (new may_include_deletes) events)
    (h : exec (step conf) (new may_include_deletes) (events ++ [.write]) = some s) :
    (∀ v e, s.disk.log v = some e ↔ e ∈ s.pg.log.log ∧ e.version = v) ∧
      (∀ v x, s.disk.dups v = some x ↔ x ∈ s.pg.log.dups ∧ x.version = v) ∧
      ∀ o, s.disk.missing o = s.pg.missing.missing[o]?.map (encodeItem s.pg.missing.may_include_deletes) := by
  obtain ⟨t, ht, hlast⟩ := exec_append_eq_some.1 h
  have hsaved : Saved t.pg t.disk := by
    refine exec_invariant (I := fun s : Stored ο => Saved s.pg s.disk) (fun s e t hs he hst => ?_) ?_ hok ht
    · cases e with
      | call c =>
        obtain ⟨pg, hpg, rfl⟩ := Option.map_eq_some_iff.1 hst
        exact hs.step he hpg
      | write =>
        obtain rfl := Option.some.inj hst
        exact hs.write.1
    · refine ⟨logged_new _, by simp [new, PGLog.new, PgLog.empty, PgLog.DupsBelow], fun o _ => ?_⟩
      simp [new, Disk.empty, PGLog.new, empty]
  obtain ⟨u, hu, heq⟩ := exec_cons_eq_some.1 hlast
  obtain rfl := Option.some.inj hu
  obtain rfl := Option.some.inj heq
  obtain ⟨hs, hrew⟩ := hsaved.write
  exact ⟨eq_some_iff_of_lookup hrew.log hs.logged.ordered.log_sorted,
    eq_some_iff_of_lookup hrew.dups hs.logged.ordered.dups_sorted, hrew.missing⟩

end

section

private def storedConf : Conf ℕ := ⟨fun o => BitVec.ofNat 32 o, 3000⟩

/-- A modification of object `0` at `1'n` with the extra request ids of these numbers. -/
private def written (n prior : ℕ) (extra : List ℕ) : LogEntry ℕ :=
  ⟨.modify, 0, ⟨1, n⟩, ⟨1, prior⟩, ⟨8, 4, n, 0⟩, extra.map fun tid => (⟨8, 4, tid, 0⟩, 0), n, 0, true⟩

/-- Two entries are added and the first is trimmed. -/
private def trimmed (extra : List ℕ) : List (Event ℕ) :=
  [.call (.add (written 1 0 extra) false), .call (.add (written 2 1 []) false), .write, .call (.trim ⟨1, 1⟩ ⟨1, 2⟩)]

private theorem trimmed_runs : (exec (step storedConf) (new false) (trimmed [] ++ [.write])).isSome ∧
      (exec (step storedConf) (new false) (trimmed [7] ++ [.write])).isSome := by decide +kernel

theorem write_eq_rewrite_trimmed : AllSteps (step storedConf) (Stored.Admissible storedConf) (new false) (trimmed []) ∧
      ∃ s, exec (step storedConf) (new false) (trimmed [] ++ [.write]) = some s ∧
        s.pg.log.dups = [⟨⟨8, 4, 1, 0⟩, ⟨1, 1⟩, 1, 0⟩] ∧
        ∀ v x, s.disk.dups v = some x ↔ x ∈ s.pg.log.dups ∧ x.version = v := by
  have hok : AllSteps (step storedConf) (Stored.Admissible storedConf) (new false) (trimmed []) := by
    decide +kernel
  refine ⟨hok, _, (Option.some_get trimmed_runs.1).symm, by decide +kernel, ?_⟩
  exact (write_eq_rewrite storedConf false (trimmed []) _ hok (Option.some_get trimmed_runs.1).symm).2.1

/-- The dup of an extra request id has the key of the dup of the entry, so that one of the two is not stored. -/
theorem write_drops_dup : ∃ s, exec (step storedConf) (new false) (trimmed [7] ++ [.write]) = some s ∧
      s.pg.log.dups = [⟨⟨8, 4, 1, 0⟩, ⟨1, 1⟩, 1, 0⟩, ⟨⟨8, 4, 7, 0⟩, ⟨1, 1⟩, 0, 0⟩] ∧
      ∃ x ∈ s.pg.log.dups, s.disk.dups x.version ≠ some x :=
  ⟨_, (Option.some_get trimmed_runs.2).symm, by decide +kernel, by decide +kernel⟩

end
end Lunule.Pg
