import Lunule.Table.Cluster

/-!
# What a journal says about the transactions

The journal of the server determines its version and its pending transactions. `Ledger.note` is the abstract server:
it takes an event only with the next version, and ends a transaction only while it is pending. A journal that the
ledger accepts tells each transaction apart by its tid and ends it at most once (`Ledger.Facts`); the events a live
server submits and those it replays are accepted, and leave the server in the state of the ledger.
-/

namespace Lunule.Table
open Exec MDSTableServer Option ETableServer List
variable {T M R : Type} {l : List Pending}

def Prepared (evs : List (ETableServer M)) (p : Pending) : Prop := ∃ m, .prepare p.reqid p.mds m p.tid ∈ evs

def Committed (evs : List (ETableServer M)) (tid : Nat) : Prop := ∃ v, .commit tid v ∈ evs

def RolledBack (evs : List (ETableServer M)) (tid : Nat) : Prop := ∃ v, .rollback tid v ∈ evs

/-- The part of the server that the journal determines without the table. -/
@[ext] structure Ledger where
  version : Nat
  pending : List Pending
deriving DecidableEq

namespace Ledger

def finish (L : Ledger) (tid v : Nat) : Option Ledger :=
  if v = L.version + 1 ∧ (∃ p ∈ L.pending, p.tid = tid) then
    some ⟨v, erasePending L.pending tid⟩
  else none

def note (L : Ledger) : ETableServer M → Option Ledger
  | .prepare reqid bymds _ v =>
    if v = L.version + 1 then some ⟨v, L.pending ++ [⟨v, bymds, reqid⟩]⟩ else none
  | .commit tid v => L.finish tid v
  | .rollback tid v => L.finish tid v
  | .serverUpdate _ v => if v = L.version + 1 then some ⟨v, L.pending⟩ else none

/-- What a journal accepted from version `v₀` on says about the ledger `L` at its end. -/
structure Facts (v₀ : Nat) (evs : List (ETableServer M)) (L : Ledger) : Prop where
  lower : v₀ ≤ L.version
  bound : ∀ p, Prepared evs p → p.tid ≤ L.version
  unique : ∀ p q, Prepared evs p → Prepared evs q → p.tid = q.tid → p = q
  pending : ∀ p, p ∈ L.pending ↔ Prepared evs p ∧ ¬ Committed evs p.tid ∧ ¬ RolledBack evs p.tid
  committed : ∀ t, Committed evs t → ¬ RolledBack evs t ∧ ∃ p, Prepared evs p ∧ p.tid = t
  rolledBack : ∀ t, RolledBack evs t → ∃ p, Prepared evs p ∧ p.tid = t
  nodup : (L.pending.map (·.tid)).Nodup

theorem mem_erasePending {tid : Nat} {p : Pending} :
    p ∈ erasePending l tid ↔ p ∈ l ∧ p.tid ≠ tid := by
  simp [erasePending]

private theorem nodup_erasePending (h : (l.map (·.tid)).Nodup) (tid : Nat) :
    ((erasePending l tid).map (·.tid)).Nodup :=
  (List.Sublist.map _ filter_sublist).nodup h

section
variable {evs : List (ETableServer M)} {p : Pending} {t v r c : Nat} {m : M} {e : ETableServer M}

@[simp] theorem prepared_snoc_prepare : Prepared (evs ++ [.prepare r c m v]) p ↔ Prepared evs p ∨ p = ⟨v, c, r⟩ := by
  constructor
  · rintro ⟨m', h⟩
    rcases mem_append.1 h with h | h
    · exact .inl ⟨m', h⟩
    right
    cases p
    simp only [mem_singleton] at h
    obtain ⟨rfl, rfl, -, rfl⟩ := h
    rfl
  · rintro (⟨m', h⟩ | rfl)
    · exact ⟨m', mem_append_left _ h⟩
    · exact ⟨m, by simp⟩

@[simp] theorem prepared_snoc :
    Prepared (evs ++ [e]) p ↔ Prepared evs p ∨ ∃ m, prepare p.reqid p.mds m p.tid = e := by
  simp [Prepared, exists_or]

@[simp] theorem committed_snoc : Committed (evs ++ [e]) t ↔ Committed evs t ∨ ∃ v, commit t v = e := by
  simp [Committed, exists_or]

@[simp] theorem rolledBack_snoc :
    RolledBack (evs ++ [e]) t ↔ RolledBack evs t ∨ ∃ v, rollback t v = e := by
  simp [RolledBack, exists_or]

end

theorem finish_eq_some {L L' : Ledger} {tid v : Nat} (h : L.finish tid v = some L') :
    (∃ p ∈ L.pending, p.tid = tid) ∧ L' = ⟨L.version + 1, erasePending L.pending tid⟩ := by
  obtain ⟨hc, h⟩ := ite_none_right_eq_some.1 h
  cases h
  exact ⟨hc.2, by rw [hc.1]⟩

private theorem Facts.nil (v₀ : Nat) : Facts v₀ ([] : List (ETableServer M)) ⟨v₀, []⟩ := by
  constructor <;> simp [Prepared, Committed, RolledBack]

variable {v₀ : Nat} {evs : List (ETableServer M)} {L L' : Ledger}

section
variable (h : Facts v₀ evs L)
include h

private theorem Facts.prepare (r c : Nat) (m : M) :
    Facts v₀ (evs ++ [.prepare r c m (L.version + 1)]) ⟨L.version + 1, L.pending ++ [⟨L.version + 1, c, r⟩]⟩ := by
  have hc : ¬ Committed evs (L.version + 1) := by
    intro hc
    obtain ⟨p, hp, ht⟩ := (h.committed _ hc).2
    have := h.bound p hp
    omega
  have hr : ¬ RolledBack evs (L.version + 1) := by
    intro hr
    obtain ⟨p, hp, ht⟩ := h.rolledBack _ hr
    have := h.bound p hp
    omega
  have hcom : ∀ t, Committed (evs ++ [.prepare r c m (L.version + 1)]) t ↔ Committed evs t := by simp
  have hroll : ∀ t, RolledBack (evs ++ [.prepare r c m (L.version + 1)]) t ↔ RolledBack evs t := by simp
  constructor
  · exact Nat.le_succ_of_le h.lower
  · intro p hp
    show p.tid ≤ L.version + 1
    rcases prepared_snoc_prepare.1 hp with hp | rfl
    · have := h.bound p hp
      omega
    · exact Nat.le_refl _
  · intro p q hp hq ht
    rcases prepared_snoc_prepare.1 hp with hp | rfl <;> rcases prepared_snoc_prepare.1 hq with hq | rfl
    · exact h.unique p q hp hq ht
    · have := h.bound p hp
      simp only at ht
      omega
    · have := h.bound q hq
      simp only at ht
      omega
    · rfl
  · intro p
    simp only [mem_append, mem_singleton, prepared_snoc_prepare, hcom, hroll, h.pending p]
    constructor
    · rintro (⟨hp, hn⟩ | rfl)
      · exact ⟨.inl hp, hn⟩
      · exact ⟨.inr rfl, hc, hr⟩
    · rintro ⟨hp | rfl, hn⟩
      · exact .inl ⟨hp, hn⟩
      · exact .inr rfl
  · intro t ht
    obtain ⟨hn, p, hp, htid⟩ := h.committed t ((hcom t).1 ht)
    exact ⟨fun hr => hn ((hroll t).1 hr), p, prepared_snoc_prepare.2 (.inl hp), htid⟩
  · intro t ht
    obtain ⟨p, hp, htid⟩ := h.rolledBack t ((hroll t).1 ht)
    exact ⟨p, prepared_snoc_prepare.2 (.inl hp), htid⟩
  · rw [map_append, nodup_append]
    refine ⟨h.nodup, by simp, ?_⟩
    intro a ha b hb hab
    obtain ⟨p, hp, rfl⟩ := mem_map.1 ha
    have hbound := h.bound p ((h.pending p).1 hp).1
    simp only [map_cons, map_nil, mem_singleton] at hb
    omega

private theorem Facts.finish {evs' : List (ETableServer M)} {q : Pending} (hq : q ∈ L.pending) (c : Bool)
    (hprep : ∀ p, Prepared evs' p ↔ Prepared evs p)
    (hcom : ∀ t, Committed evs' t ↔ Committed evs t ∨ (c = true ∧ t = q.tid))
    (hroll : ∀ t, RolledBack evs' t ↔ RolledBack evs t ∨ (c = false ∧ t = q.tid)) :
    Facts v₀ evs' ⟨L.version + 1, erasePending L.pending q.tid⟩ := by
  obtain ⟨hqp, hnc, hnr⟩ := (h.pending q).1 hq
  constructor
  · exact Nat.le_succ_of_le h.lower
  · intro p hp
    exact Nat.le_succ_of_le (h.bound p ((hprep p).1 hp))
  · intro p p' hp hp'
    exact h.unique p p' ((hprep p).1 hp) ((hprep p').1 hp')
  · intro p
    simp only [mem_erasePending, h.pending p, hprep, hcom, hroll]
    cases c <;> tauto
  · intro t ht
    simp only [hroll, hprep]
    rcases (hcom t).1 ht with ht | ⟨rfl, rfl⟩
    · refine ⟨?_, (h.committed t ht).2⟩
      rintro (hr | ⟨-, rfl⟩)
      · exact (h.committed t ht).1 hr
      · exact hnc ht
    · exact ⟨by simpa using hnr, q, hqp, rfl⟩
  · intro t ht
    simp only [hprep]
    rcases (hroll t).1 ht with ht | ⟨-, rfl⟩
    · exact h.rolledBack t ht
    · exact ⟨q, hqp, rfl⟩
  · exact nodup_erasePending h.nodup _

private theorem Facts.commit {tid v : Nat} (hp : ∃ p ∈ L.pending, p.tid = tid) :
    Facts v₀ (evs ++ [.commit tid v]) ⟨L.version + 1, erasePending L.pending tid⟩ := by
  obtain ⟨q, hq, rfl⟩ := hp
  exact h.finish hq true (by simp) (by simp) (by simp)

private theorem Facts.rollback {tid v : Nat} (hp : ∃ p ∈ L.pending, p.tid = tid) :
    Facts v₀ (evs ++ [.rollback tid v]) ⟨L.version + 1, erasePending L.pending tid⟩ := by
  obtain ⟨q, hq, rfl⟩ := hp
  exact h.finish hq false (by simp) (by simp) (by simp)

private theorem Facts.serverUpdate (m : M) (v : Nat) :
    Facts v₀ (evs ++ [.serverUpdate m v]) ⟨L.version + 1, L.pending⟩ := by
  constructor
  · exact Nat.le_succ_of_le h.lower
  · intro p hp
    exact Nat.le_succ_of_le (h.bound p (by simpa using hp))
  · simpa using h.unique
  · simpa using h.pending
  · simpa using h.committed
  · simpa using h.rolledBack
  · exact h.nodup

private theorem Facts.note {e : ETableServer M} (he : L.note e = some L') : Facts v₀ (evs ++ [e]) L' := by
  cases e with
  | prepare r c m v =>
    obtain ⟨hv, he⟩ := ite_none_right_eq_some.1 he
    cases he
    subst hv
    exact h.prepare r c m
  | commit t v =>
    obtain ⟨hp, rfl⟩ := finish_eq_some he
    exact h.commit hp
  | rollback t v =>
    obtain ⟨hp, rfl⟩ := finish_eq_some he
    exact h.rollback hp
  | serverUpdate m v =>
    obtain ⟨hv, he⟩ := ite_none_right_eq_some.1 he
    cases he
    subst hv
    exact h.serverUpdate m _

end

theorem exec_snoc {e : ETableServer M} :
    exec note L (evs ++ [e]) = some L' ↔ ∃ K, exec note L evs = some K ∧ K.note e = some L' := by
  simp [exec_append_eq_some, exec_cons_eq_some]

theorem facts_of_exec (h : exec note ⟨v₀, []⟩ evs = some L) : Facts v₀ evs L := by
  induction evs using reverseRecOn generalizing L with
  | nil => cases h; exact Facts.nil v₀
  | append_singleton evs e ih =>
    obtain ⟨K, hK, he⟩ := exec_snoc.1 h
    exact (ih hK).note he

theorem exec_of_prefix {evs' : List (ETableServer M)} (hp : evs' <+: evs) (h : exec note L evs = some L') :
    ∃ K, exec note L evs' = some K := by
  obtain ⟨r, rfl⟩ := hp
  obtain ⟨K, hK, -⟩ := exec_append_eq_some.1 h
  exact ⟨K, hK⟩

end Ledger

/-! ### The server and its ledger -/

namespace MDSTableServer

def ledger (s : MDSTableServer T) : Ledger := ⟨s.version, s.pendingForMds⟩

variable {ops : TableOps T M R} {s s' : MDSTableServer T} {tid : Nat}

theorem isPending_iff : s.isPending tid = true ↔ ∃ p ∈ s.pendingForMds, p.tid = tid := by
  simp [isPending]

theorem ledger_notePrepare {mds reqid : Nat} {m : M} {bl : R} (h : s.notePrepare ops mds reqid m = some (s', bl)) :
    s.ledger.note (.prepare reqid mds m (s.version + 1)) = some s'.ledger ∧ s'.version = s.version + 1 := by
  simp only [notePrepare, map_eq_some_iff] at h
  obtain ⟨⟨t, b⟩, -, heq⟩ := h
  cases heq
  simp [Ledger.note, ledger]

theorem ledger_noteCommit (h : s.noteCommit ops tid = some s') :
    s'.ledger = ⟨s.version + 1, erasePending s.pendingForMds tid⟩ := by
  simp only [noteCommit, map_eq_some_iff] at h
  obtain ⟨t, -, rfl⟩ := h
  rfl

theorem ledger_noteRollback (h : s.noteRollback ops tid = some s') :
    s'.ledger = ⟨s.version + 1, erasePending s.pendingForMds tid⟩ := by
  simp only [noteRollback, map_eq_some_iff] at h
  obtain ⟨t, -, rfl⟩ := h
  rfl

theorem ledger_noteServerUpdate {m : M} (h : s.noteServerUpdate ops m = some s') :
    s'.ledger = ⟨s.version + 1, s.pendingForMds⟩ := by
  simp only [noteServerUpdate, map_eq_some_iff] at h
  obtain ⟨t, -, rfl⟩ := h
  rfl

end MDSTableServer

variable {ops : TableOps T M R} {s s' : MDSTableServer T}

theorem Ledger.version_of_note {L L' : Ledger} {e : ETableServer M} (h : L.note e = some L') :
    e.version = L.version + 1 := by
  cases e <;> simp only [Ledger.note, Ledger.finish] at h <;> split at h <;> simp_all [ETableServer.version]

private theorem replay_of_next {e : ETableServer M} (h : e.version = s.version + 1) :
    e.replay ops s = e.redo ops s := by
  unfold replay
  rw [if_neg (by omega), if_pos (by omega)]

private theorem ledger_replay {e : ETableServer M} {L : Ledger} (hL : s.ledger.note e = some L)
    (h : e.replay ops s = some s') : s'.ledger = L := by
  have hv := Ledger.version_of_note hL
  rw [replay_of_next hv] at h
  cases e with
  | prepare r c m v =>
    obtain ⟨⟨s1, bl⟩, hn, rfl⟩ := map_eq_some_iff.1 h
    have hnote := (ledger_notePrepare hn).1
    have hv' : v = s.version + 1 := hv
    rw [← hv', hL] at hnote
    exact (some.inj hnote).symm
  | commit t v =>
    obtain ⟨-, rfl⟩ := Ledger.finish_eq_some hL
    exact ledger_noteCommit h
  | rollback t v =>
    obtain ⟨-, rfl⟩ := Ledger.finish_eq_some hL
    exact ledger_noteRollback h
  | serverUpdate m v =>
    have hv' : v = s.version + 1 := hv
    have hL' : L = ⟨s.version + 1, s.pendingForMds⟩ := by
      simpa [Ledger.note, hv', ledger] using hL.symm
    rw [hL']
    exact ledger_noteServerUpdate h

theorem ledger_replay_all {evs : List (ETableServer M)} {L : Ledger} (hL : exec Ledger.note s.ledger evs = some L)
    (h : exec (replay ops) s evs = some s') :
    s'.ledger = L := by
  induction evs generalizing s with
  | nil => cases h; cases hL; rfl
  | cons e evs ih =>
    obtain ⟨K, hK, hL'⟩ := exec_cons_eq_some.1 hL
    obtain ⟨u, hu, h'⟩ := exec_cons_eq_some.1 h
    have hku : u.ledger = K := ledger_replay hK hu
    exact ih (hku ▸ hL') h'

end Lunule.Table
