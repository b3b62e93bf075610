import Lunule.Lib.Replay
import Lunule.Snap.Basic

/-!
# Replay of the snapshot table

The live server journals every operation with the version that it created. A saved table does not keep everything:
`SnapInfo::encode` leaves out `long_name`, in which a prepared update carries the name of its operation. Two tables
are alike when they differ in nothing else. Every operation keeps tables alike, `_commit` because it swaps the name
out before it stores the record, and so a replay of the whole journal from any save point ends alike with the live
server.
-/

namespace Lunule.Snap
open Exec Table Option ETableServer MDSTableServer SnapInfo SnapTable Function

/-! ### The handlers write what they do -/

section
variable {T M R : Type} {ops : TableOps T M R} {s s' : MDSTableServer T} {e : ETableServer M}

/-- The live side of a table server: an operation together with its event. -/
abbrev write (ops : TableOps T M R) : MDSTableServer T → ETableServer M → Option (MDSTableServer T) :=
  Replay.write version version (redo ops)

private theorem version_redo (h : e.redo ops s = some s') : s'.version = s.version + 1 := by
  cases e with
  | prepare reqid bymds m v =>
    obtain ⟨⟨s1, bl⟩, hn, rfl⟩ := map_eq_some_iff.1 h
    obtain ⟨⟨t, b⟩, -, heq⟩ := map_eq_some_iff.1 hn
    cases heq
    rfl
  | commit tid v => obtain ⟨t, -, rfl⟩ := map_eq_some_iff.1 h; rfl
  | rollback tid v => obtain ⟨t, -, rfl⟩ := map_eq_some_iff.1 h; rfl
  | serverUpdate m v => obtain ⟨t, -, rfl⟩ := map_eq_some_iff.1 h; rfl

private theorem write_of_redo (hv : e.version = s.version + 1) (h : e.redo ops s = some s') :
    exec (write ops) s [e] = some s' :=
  exec_cons_eq_some.2 ⟨s', Replay.write_eq_some.2 ⟨hv, h⟩, rfl⟩

variable {o : MDSTableServer.Outcome T M R}

private theorem written_handleRequest {src : Rank} {m : Table.Request M}
    (h : s.handleRequest ops src m = some o) : exec (write ops) s (o.log.map (·.event)) = some o.server := by
  cases m with
  | prepare reqid m =>
    obtain ⟨⟨s1, bl⟩, hn, rfl⟩ := map_eq_some_iff.1 h
    have hredo : (prepare reqid src m s1.version).redo ops s = some s1 := by
      simp [redo, hn]
    exact write_of_redo (version_redo hredo) hredo
  | commit tid =>
    simp only [handleRequest, handleCommit] at h
    split at h
    · obtain ⟨s1, hn, rfl⟩ := map_eq_some_iff.1 h
      have hredo : (commit tid s1.version).redo ops s = some s1 := hn
      exact write_of_redo (version_redo hredo) hredo
    · obtain ⟨-, h⟩ := ite_none_right_eq_some.1 h
      cases h
      rfl
  | rollback tid =>
    obtain ⟨-, h⟩ := ite_none_right_eq_some.1 h
    obtain ⟨s1, hn, rfl⟩ := map_eq_some_iff.1 h
    have hredo : (rollback tid s1.version).redo ops s = some s1 := hn
    exact write_of_redo (version_redo hredo) hredo

private theorem written_doServerUpdate {m : M} (h : s.doServerUpdate ops m = some o) :
    exec (write ops) s (o.log.map (·.event)) = some o.server := by
  obtain ⟨s1, hn, rfl⟩ := map_eq_some_iff.1 h
  have hredo : (ETableServer.serverUpdate m s1.version).redo ops s = some s1 := hn
  exact write_of_redo (version_redo hredo) hredo

end

/-! ### The live server -/

inductive Op
  | request (src : Rank) (m : Table.Request Mutation)
  | serverUpdate (m : Mutation)

/-- The live server, everything that it journaled and the history of the snapids that it handed out. -/
structure Live where
  server : MDSTableServer SnapTable
  journal : List (ETableServer Mutation) := []
  handed : List Nat := []

/-- The snapid that an entry hands out: that of the reply to a prepare, unless it is a create without snapshot, to
which the server replies with the last snapid it handed out. -/
def handedBy : LogEntry Mutation Nat → List Nat
  | ⟨.prepare _ _ (.create _ none) _, _⟩ => []
  | ⟨.prepare .., some (_, .agree _ _ (some id))⟩ => [id]
  | _ => []

def Live.apply (l : Live) (o : MDSTableServer.Outcome SnapTable Mutation Nat) : Live where
  server := o.server
  journal := l.journal ++ o.log.map (·.event)
  handed := l.handed ++ o.log.flatMap handedBy

def Live.step (pools : List Int) (l : Live) : Op → Option Live
  | .request src m => (l.server.handleRequest (ops pools) src m).map l.apply
  | .serverUpdate m => (l.server.doServerUpdate (ops pools) m).map l.apply

variable {pools : List Int} {l l' : Live}

/-- A run only appends to the journal, and what it appends leads from the server before to the server after. -/
theorem written_of_run {os : List Op} (h : exec (Live.step pools) l os = some l') :
    ∃ es, l'.journal = l.journal ++ es ∧ exec (write (ops pools)) l.server es = some l'.server := by
  induction os generalizing l with
  | nil => cases h; exact ⟨[], by simp, rfl⟩
  | cons op os ih =>
    obtain ⟨k, hk, h'⟩ := exec_cons_eq_some.1 h
    obtain ⟨fs, hj, hfs⟩ := ih h'
    have hstep : ∃ o, k = l.apply o ∧ exec (write (ops pools)) l.server (o.log.map (·.event)) = some o.server := by
      cases op with
      | request src m =>
        obtain ⟨o, ho, rfl⟩ := map_eq_some_iff.1 hk
        exact ⟨o, rfl, written_handleRequest ho⟩
      | serverUpdate m =>
        obtain ⟨o, ho, rfl⟩ := map_eq_some_iff.1 hk
        exact ⟨o, rfl, written_doServerUpdate ho⟩
    obtain ⟨o, rfl, ho⟩ := hstep
    refine ⟨o.log.map (·.event) ++ fs, ?_, exec_append_eq_some.2 ⟨o.server, ho, hfs⟩⟩
    rw [hj, ← List.append_assoc]
    rfl

/-! ### Tables that are alike -/

/-- Prepared updates that are equal but for the names of their operations. -/
def SameUpdates (u v : Nat → Option SnapInfo) : Prop := ∀ k, (u k).map SnapInfo.reload = (v k).map SnapInfo.reload

/-- Tables that are equal but for the names of the operations in the prepared updates. -/
def SnapTable.Alike (r t : SnapTable) : Prop :=
  r = { t with pendingUpdate := r.pendingUpdate } ∧ SameUpdates r.pendingUpdate t.pendingUpdate

/-- The stored snapshots have no name of an operation. -/
def SnapTable.Plain (t : SnapTable) : Prop := ∀ k i, t.snaps k = some i → i.longName = ""

private theorem SnapInfo.reload_of_plain {i : SnapInfo} (h : i.longName = "") : i.reload = i := by
  cases i; cases h; rfl

@[simp] theorem SnapInfo.reload_reload (i : SnapInfo) : i.reload.reload = i.reload := rfl

private theorem SnapInfo.snapid_of_reload {i j : SnapInfo} (h : i.reload = j.reload) : i.snapid = j.snapid := by
  have hid := congrArg snapid h
  exact hid

namespace SameUpdates
variable {u v : Nat → Option SnapInfo}

private theorem cases (h : SameUpdates u v) (tid : Nat) :
    (u tid = none ∧ v tid = none) ∨ ∃ i j, u tid = some i ∧ v tid = some j ∧ i.reload = j.reload := by
  have hk := h tid
  cases hu : u tid with
  | none => rw [hu] at hk; exact .inl ⟨rfl, by simpa using hk.symm⟩
  | some i =>
    rw [hu] at hk
    obtain ⟨j, hj, hij⟩ := map_eq_some_iff.1 hk.symm
    exact .inr ⟨i, j, rfl, hj, hij.symm⟩

private theorem update (h : SameUpdates u v) (tid : Nat) (o : Option SnapInfo) :
    SameUpdates (update u tid o) (update v tid o) := by
  intro k
  by_cases hk : k = tid
  · subst hk
    simp
  · simpa [update_of_ne hk] using h k

private theorem encode (h : SameUpdates u v) (tid : Nat) :
    (u tid).map SnapInfo.encode = (v tid).map SnapInfo.encode := by
  have hdecode : ∀ i : SnapInfo, i.encode = i.reload.encode := fun _ => rfl
  rcases h.cases tid with ⟨hu, hv⟩ | ⟨i, j, hi, hj, hij⟩
  · rw [hu, hv]
  · rw [hi, hj, map_some, map_some, hdecode i, hdecode j, hij]

end SameUpdates

namespace SnapTable
variable {r t t' : SnapTable} {tid : Nat} {m : Mutation}

private theorem Plain.reload_alike (h : t.Plain) : t.reload.Alike t := by
  have hsnaps : (fun k => (t.snaps k).map SnapInfo.reload) = t.snaps := by
    funext k
    cases hk : t.snaps k with
    | none => rfl
    | some i => simp [reload_of_plain (h k i hk)]
  refine ⟨by simp [reload, hsnaps], fun k => ?_⟩
  simp [reload, comp_def]

private theorem committed_eq {i j : SnapInfo} (u : Nat → Option SnapInfo) (hij : i.reload = j.reload) :
    committed { t with pendingUpdate := u } i = t.committed j := by
  have hfields : i.snapid = j.snapid ∧ i.ino = j.ino ∧ i.stamp = j.stamp ∧ i.name = j.name := by
    simpa [SnapInfo.reload, SnapInfo.encode, SnapInfo.decode] using hij
  obtain ⟨hid, hino, hst, hname⟩ := hfields
  simp only [committed, hid, hino, hst, hname]

private theorem Alike.prepare (h : r.Alike t) {v id : Nat} (ht : t.prepare v m = some (t', id)) :
    ∃ r', r.prepare v m = some (r', id) ∧ r'.Alike t' := by
  obtain ⟨hr, hu⟩ := h
  rw [hr]
  cases m with
  | create ino snap =>
    cases snap with
    | none => cases ht; exact ⟨_, rfl, rfl, hu⟩
    | some p => cases ht; exact ⟨_, rfl, rfl, hu.update v _⟩
  | destroy ino snapid => cases ht; exact ⟨_, rfl, rfl, hu⟩
  | update ino snapid name stamp => cases ht; exact ⟨_, rfl, rfl, hu.update v _⟩
  | purged l => cases ht

private theorem Alike.commit (h : r.Alike t) (ht : t.commit pools tid = some t') :
    ∃ r', r.commit pools tid = some r' ∧ r'.Alike t' := by
  obtain ⟨hr, hu⟩ := h
  rw [hr]
  unfold SnapTable.commit at ht ⊢
  rcases hu.cases tid with ⟨hnr, hnt⟩ | ⟨i, j, hi, hj, hij⟩
  · simp only [hnr]
    simp only [hnt] at ht
    split at ht
    · cases ht; exact ⟨_, rfl, rfl, hu⟩
    · obtain ⟨hnoop, ht⟩ := ite_none_right_eq_some.1 ht
      cases ht
      exact ⟨_, if_pos hnoop, rfl, hu⟩
  · simp only [hj, Option.some.injEq] at ht
    subst ht
    simp only [hi, committed_eq _ hij, snapid_of_reload hij]
    exact ⟨_, rfl, rfl, hu.update tid none⟩

private theorem Alike.rollback (h : r.Alike t) (ht : t.rollback tid = some t') :
    ∃ r', r.rollback tid = some r' ∧ r'.Alike t' := by
  obtain ⟨hr, hu⟩ := h
  rw [hr]
  unfold SnapTable.rollback at ht ⊢
  rcases hu.cases tid with ⟨hnr, hnt⟩ | ⟨i, j, hi, hj, hij⟩
  · simp only [hnr]
    simp only [hnt] at ht
    split at ht
    · cases ht; exact ⟨_, rfl, rfl, hu⟩
    · obtain ⟨hnoop, ht⟩ := ite_none_right_eq_some.1 ht
      cases ht
      exact ⟨_, if_pos hnoop, rfl, hu⟩
  · simp only [hj, Option.some.injEq] at ht
    subst ht
    simp only [hi]
    exact ⟨_, rfl, rfl, hu.update tid none⟩

private theorem Alike.serverUpdate (h : r.Alike t) (ht : t.serverUpdate m = some t') :
    ∃ r', r.serverUpdate m = some r' ∧ r'.Alike t' := by
  obtain ⟨hr, hu⟩ := h
  rw [hr]
  cases m with
  | purged l => cases ht; exact ⟨_, rfl, rfl, hu⟩
  | create => cases ht
  | destroy => cases ht
  | update => cases ht

private theorem snaps_prepare {v id : Nat} (ht : t.prepare v m = some (t', id)) : t'.snaps = t.snaps := by
  cases m with
  | create ino snap => cases snap <;> cases ht <;> rfl
  | destroy ino snapid => cases ht; rfl
  | update ino snapid name stamp => cases ht; rfl
  | purged l => cases ht

private theorem frame_rollback (ht : t.rollback tid = some t') : t'.snaps = t.snaps ∧ t'.lastSnap = t.lastSnap := by
  unfold SnapTable.rollback at ht
  split at ht
  · cases ht; exact ⟨rfl, rfl⟩
  · split at ht
    · cases ht; exact ⟨rfl, rfl⟩
    · split at ht <;> cases ht
      exact ⟨rfl, rfl⟩

private theorem frame_serverUpdate (ht : t.serverUpdate m = some t') :
    t'.snaps = t.snaps ∧ t'.lastSnap = t.lastSnap := by
  cases m <;> cases ht
  exact ⟨rfl, rfl⟩

private theorem lastSnap_commit (ht : t.commit pools tid = some t') : t'.lastSnap = t.lastSnap := by
  unfold SnapTable.commit at ht
  split at ht
  · cases ht; rfl
  · split at ht
    · cases ht; rfl
    · split at ht <;> cases ht
      rfl

private theorem Plain.of_snaps (h : t.Plain) (hsnaps : t'.snaps = t.snaps) :
    t'.Plain := fun k i hi => h k i (hsnaps ▸ hi)

private theorem Plain.commit (h : t.Plain) (ht : t.commit pools tid = some t') : t'.Plain := by
  unfold SnapTable.commit at ht
  have hupd : ∀ (k : Nat) (o : Option SnapInfo), (∀ i, o = some i → i.longName = "") →
      ∀ n i, update t.snaps k o n = some i → i.longName = "" := by
    intro k o ho n i hi
    by_cases hn : n = k
    · subst hn
      exact ho i (by simpa using hi)
    · exact h n i (by simpa [update_of_ne hn] using hi)
  split at ht
  · cases ht
    exact hupd _ _ fun i hi => by cases hi; rfl
  split at ht
  · cases ht
    exact hupd _ _ nofun
  · obtain ⟨-, ht⟩ := ite_none_right_eq_some.1 ht
    cases ht
    exact h

end SnapTable

/-! ### Servers that are alike -/

/-- Servers of the same version with the same pending transactions and alike tables. -/
structure Alike (r s : MDSTableServer SnapTable) : Prop where
  version : r.version = s.version
  pendingForMds : r.pendingForMds = s.pendingForMds
  table : r.table.Alike s.table

variable {r s s' : MDSTableServer SnapTable} {e : ETableServer Mutation}

private theorem Alike.redo (h : Alike r s) (hs : e.redo (ops pools) s = some s') :
    ∃ r', e.redo (ops pools) r = some r' ∧ Alike r' s' := by
  obtain ⟨version, pending, table⟩ := r
  obtain ⟨rfl, rfl, htable⟩ := h
  cases e with
  | prepare reqid bymds m v =>
    obtain ⟨⟨s1, bl⟩, hn, rfl⟩ := map_eq_some_iff.1 hs
    obtain ⟨⟨t, b⟩, ht, heq⟩ := map_eq_some_iff.1 hn
    cases heq
    obtain ⟨q, hq, hqt⟩ := htable.prepare ht
    refine ⟨⟨s.version + 1, s.pendingForMds ++ [⟨s.version + 1, bymds, reqid⟩], q⟩, ?_, ⟨rfl, rfl, hqt⟩⟩
    simp only [redo, notePrepare, ops, hq, map_some]
  | commit tid v =>
    obtain ⟨t, ht, rfl⟩ := map_eq_some_iff.1 hs
    obtain ⟨q, hq, hqt⟩ := htable.commit ht
    refine ⟨⟨s.version + 1, erasePending s.pendingForMds tid, q⟩, ?_, ⟨rfl, rfl, hqt⟩⟩
    simp only [redo, noteCommit, ops, hq, map_some]
  | rollback tid v =>
    obtain ⟨t, ht, rfl⟩ := map_eq_some_iff.1 hs
    obtain ⟨q, hq, hqt⟩ := htable.rollback ht
    refine ⟨⟨s.version + 1, erasePending s.pendingForMds tid, q⟩, ?_, ⟨rfl, rfl, hqt⟩⟩
    simp only [redo, noteRollback, ops, hq, map_some]
  | serverUpdate m v =>
    obtain ⟨t, ht, rfl⟩ := map_eq_some_iff.1 hs
    obtain ⟨q, hq, hqt⟩ := htable.serverUpdate ht
    refine ⟨⟨s.version + 1, s.pendingForMds, q⟩, ?_, ⟨rfl, rfl, hqt⟩⟩
    simp only [redo, noteServerUpdate, ops, hq, map_some]

private theorem plain_redo (h : s.table.Plain) (hs : e.redo (ops pools) s = some s') : s'.table.Plain := by
  cases e with
  | prepare reqid bymds m v =>
    obtain ⟨⟨s1, bl⟩, hn, rfl⟩ := map_eq_some_iff.1 hs
    obtain ⟨⟨t, b⟩, ht, heq⟩ := map_eq_some_iff.1 hn
    cases heq
    exact h.of_snaps (snaps_prepare ht)
  | commit tid v =>
    obtain ⟨t, ht, rfl⟩ := map_eq_some_iff.1 hs
    exact h.commit ht
  | rollback tid v =>
    obtain ⟨t, ht, rfl⟩ := map_eq_some_iff.1 hs
    exact h.of_snaps (frame_rollback ht).1
  | serverUpdate m v =>
    obtain ⟨t, ht, rfl⟩ := map_eq_some_iff.1 hs
    exact h.of_snaps (frame_serverUpdate ht).1

private theorem plain_of_written {es : List (ETableServer Mutation)} (h : s.table.Plain)
    (hs : exec (write (ops pools)) s es = some s') : s'.table.Plain :=
  exec_invariant_all (fun _ _ _ hp hw => plain_redo hp (Replay.write_eq_some.1 hw).2) h hs

/-! ### The snapids handed out -/

private theorem handed_step {op : Op} (h : l.step pools op = some l') :
    (l'.handed = l.handed ∧ l'.server.table.lastSnap = l.server.table.lastSnap) ∨
      (l'.handed = l.handed ++ [l.server.table.lastSnap + 1] ∧
        l'.server.table.lastSnap = l.server.table.lastSnap + 1) := by
  cases op with
  | serverUpdate m =>
    obtain ⟨o, ho, rfl⟩ := map_eq_some_iff.1 h
    obtain ⟨s1, hn, rfl⟩ := map_eq_some_iff.1 ho
    obtain ⟨t, ht, rfl⟩ := map_eq_some_iff.1 hn
    exact .inl ⟨by simp [Live.apply, handedBy], (frame_serverUpdate ht).2⟩
  | request src m =>
    obtain ⟨o, ho, rfl⟩ := map_eq_some_iff.1 h
    cases m with
    | prepare reqid m =>
      obtain ⟨⟨s1, id⟩, hn, rfl⟩ := map_eq_some_iff.1 ho
      obtain ⟨⟨t, b⟩, ht, heq⟩ := map_eq_some_iff.1 hn
      cases heq
      cases m with
      | create ino snap =>
        cases snap with
        | none => cases ht; exact .inl ⟨by simp [Live.apply, handedBy], rfl⟩
        | some p => cases ht; exact .inr ⟨rfl, rfl⟩
      | destroy ino snapid => cases ht; exact .inr ⟨rfl, rfl⟩
      | update ino snapid name stamp => cases ht; exact .inr ⟨rfl, rfl⟩
      | purged p => cases ht
    | commit tid =>
      simp only [handleRequest, handleCommit] at ho
      split at ho
      · obtain ⟨s1, hn, rfl⟩ := map_eq_some_iff.1 ho
        obtain ⟨t, ht, rfl⟩ := map_eq_some_iff.1 hn
        exact .inl ⟨by simp [Live.apply, handedBy], lastSnap_commit ht⟩
      · obtain ⟨-, ho⟩ := ite_none_right_eq_some.1 ho
        cases ho
        exact .inl ⟨by simp [Live.apply], rfl⟩
    | rollback tid =>
      obtain ⟨-, ho⟩ := ite_none_right_eq_some.1 ho
      obtain ⟨s1, hn, rfl⟩ := map_eq_some_iff.1 ho
      obtain ⟨t, ht, rfl⟩ := map_eq_some_iff.1 hn
      exact .inl ⟨by simp [Live.apply, handedBy], (frame_rollback ht).2⟩

/-- The snapids handed out ascend from `first`, and the last one is the table's. -/
structure Ascending (first : Nat) (l : Live) : Prop where
  lt : (first :: l.handed).Pairwise (· < ·)
  le : ∀ id ∈ first :: l.handed, id ≤ l.server.table.lastSnap

private theorem Ascending.step {first : Nat} {op : Op} (h : Ascending first l) (hs : l.step pools op = some l') :
    Ascending first l' := by
  rcases handed_step hs with ⟨hh, hl⟩ | ⟨hh, hl⟩
  · exact ⟨by rw [hh]; exact h.lt, by rw [hh, hl]; exact h.le⟩
  constructor
  · rw [hh, ← List.cons_append, List.pairwise_append]
    refine ⟨h.lt, List.pairwise_singleton _ _, fun a ha b hb => ?_⟩
    have hle := h.le a ha
    have hb' := List.mem_singleton.1 hb
    omega
  · intro id hid
    rw [hh, ← List.cons_append, List.mem_append, List.mem_singleton] at hid
    rw [hl]
    rcases hid with hid | rfl
    · have := h.le id hid
      omega
    · exact le_rfl

/-! ### The replay -/

/-- A server saved at any point of a run and loaded again is brought by the whole journal to a server alike with the
live one, and the snapids handed out ascend. -/
theorem replay_alike (pools : List Int) (s : MDSTableServer SnapTable) (old : List (ETableServer Mutation))
    (os ps : List Op) (hplain : s.table.Plain) (hold : ∀ e ∈ old, e.version ≤ s.version)
    (hos : exec (Live.step pools) { server := s, journal := old } os = some l)
    (hps : exec (Live.step pools) l ps = some l') :
    (∃ r, exec (replay (ops pools)) (reloadServer l.server) l'.journal = some r ∧
      r.version = l'.server.version ∧ r.pendingForMds = l'.server.pendingForMds ∧
      r.table.lastSnap = l'.server.table.lastSnap ∧ r.table.snaps = l'.server.table.snaps ∧
      r.table.needToPurge = l'.server.table.needToPurge ∧
      (∀ tid, (r.table.pendingUpdate tid).map SnapInfo.encode =
        (l'.server.table.pendingUpdate tid).map SnapInfo.encode) ∧
      r.table.pendingDestroy = l'.server.table.pendingDestroy ∧
      r.table.pendingNoop = l'.server.table.pendingNoop) ∧
    (s.table.lastSnap :: l'.handed).Pairwise (· < ·) := by
  constructor
  · obtain ⟨es, hj, hes⟩ := written_of_run hos
    obtain ⟨fs, hj', hfs⟩ := written_of_run hps
    have hlevel : Alike (reloadServer l.server) l.server := ⟨rfl, rfl, (plain_of_written hplain hes).reload_alike⟩
    have hredo : ∀ s e t, redo (ops pools) s e = some t → t.version = s.version + 1 := fun _ _ _ => version_redo
    have hversion : ∀ r s, Alike r s → r.version = s.version := fun _ _ h => h.version
    have hsim : ∀ r s e t, Alike r s → redo (ops pools) s e = some t →
        ∃ r', redo (ops pools) r e = some r' ∧ Alike r' t := fun _ _ _ _ => Alike.redo
    obtain ⟨r, hr, hv, hp, ht, hu⟩ := Replay.exec_replay_of_written hredo hversion hsim hold hes hfs hlevel
    refine ⟨r, by rw [hj', hj]; exact hr, hv, hp, ?_⟩
    rw [ht]
    exact ⟨rfl, rfl, rfl, hu.encode, rfl, rfl⟩
  · have hstart : Ascending s.table.lastSnap { server := s, journal := old } := ⟨by simp, by simp⟩
    exact (exec_invariant_all (fun _ _ _ => Ascending.step) hstart (exec_append_eq_some.2 ⟨l, hos, hps⟩)).lt

def sampleBefore : List Op :=
  [.request 0 (.prepare 1 (.create 10 (some ("a", (5, 0))))), .request 1 (.prepare 1 (.create 11 none)),
    .request 0 (.commit 1), .request 2 (.prepare 1 (.update 10 2 "b" (0, 0)))]

def sampleAfter : List Op :=
  [.request 1 (.rollback 2), .request 2 (.commit 4), .request 0 (.prepare 2 (.destroy 10 2)), .request 0 (.commit 7),
    .serverUpdate (.purged [(1, [2, 4])]), .request 1 (.prepare 2 (.create 12 (some ("c", (6, 0)))))]

theorem replay_alike_sample :
    ∃ l l' r, exec (Live.step [1, 2]) { server := { table := .reset 0 } } sampleBefore = some l ∧
      exec (Live.step [1, 2]) l sampleAfter = some l' ∧
      exec (replay (ops [1, 2])) (reloadServer l.server) l'.journal = some r ∧
      r.table.snaps = l'.server.table.snaps ∧ l'.server.table.needToPurge 2 = some {2, 4} ∧
      l'.handed = [2, 3, 4, 5] := by
  obtain ⟨⟨r, hr, -, -, -, hsnaps, -⟩, -⟩ :=
    replay_alike [1, 2] { table := .reset 0 } [] sampleBefore sampleAfter nofun
      nofun rfl rfl
  exact ⟨_, _, r, rfl, rfl, hr, hsnaps, by decide, by decide⟩

/-- A prepared update that was saved comes back without the name of its operation. -/
theorem reload_drops_operation_name : ∃ l r, exec (Live.step []) { server := { table := .reset 0 } }
        [.request 0 (.prepare 1 (.create 10 (some ("a", (5, 0)))))] = some l ∧
      exec (replay (ops [])) (reloadServer l.server) l.journal = some r ∧
      l.server.table.pendingUpdate 1 = some ⟨2, 10, (5, 0), "a", "create"⟩ ∧
      r.table.pendingUpdate 1 = some ⟨2, 10, (5, 0), "a", ""⟩ :=
  ⟨_, _, rfl, rfl, rfl, rfl⟩

end Lunule.Snap
