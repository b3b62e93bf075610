import Lunule.Flock.Safety
import Lunule.Lib.Writeback

/-!
# Deadlock detection

`is_deadlock` follows the owners that block a request: from a lock that conflicts with it to the locks for which the
owner of that lock waits, on whatever file, to the locks that conflict with those, and so on. It answers yes when it
comes back to the owner of the request. The locks that wait are found in `global_waiting_locks`, a multimap ordered
by owner first, so that those of one owner stand together.

A chain of waiting owners is a `WaitPath`, indexed by its length. The search with some rounds left finds exactly the
paths of at most that length: one round looks at the last edge of a path, or takes its first.
-/

namespace Lunule.Flock
open Exec Filelock List
open Writeback (takeWhile_eq_filter dropWhile_eq_filter)
variable {F : Type}

def LockType.code : LockType → Nat
  | .shared => 1
  | .excl => 2

/-- `ceph_filelock_owner_compare(l, r) < 0`. -/
def ownerLess (l r : Filelock) : Bool :=
  if l.client ≠ r.client then decide (l.client < r.client)
  else if l.owner ≠ r.owner then decide (l.owner < r.owner)
  else if l.owner.testBit 63 then false
  else decide (l.pid < r.pid)

/-- `ceph_filelock_compare(l, r) < 0`. -/
def less (l r : Filelock) : Bool :=
  if !ownerEqual l r then ownerLess l r
  else if l.start ≠ r.start then decide (l.start < r.start)
  else if l.length ≠ r.length then decide (l.length < r.length)
  else decide (l.type.code < r.type.code)

/-- `global_waiting_locks`: the locks that wait, each with the file of its lock state. -/
structure WaitingLocks (F : Type) where
  locks : List (Filelock × F)
  sorted : locks.Pairwise fun p q => ¬less q.1 p.1

/-- From `lower_bound` of a lock cleared but for its owner, as long as the owner is the same. Such a lock comes before
every lock of its owner. -/
def WaitingLocks.of (W : WaitingLocks F) (o : Filelock) : List (Filelock × F) :=
  (W.locks.dropWhile fun q => ownerLess q.1 o).takeWhile fun q => ownerEqual q.1 o

def overlappingOthers (held : F → List Filelock) (q : Filelock × F) : List Filelock :=
  (splitByOwner q.1 (getOverlappingLocks (held q.2) q.1).1).1

/-- The first loop of `is_deadlock` passes over pairs of shared locks. -/
def conflicting (fl : Filelock) (overlapping : List Filelock) : List Filelock :=
  overlapping.filter fun l => !(decide (fl.type = .shared) && decide (l.type = .shared))

/-- The first loop meets a lock of the first owner. -/
def closes (fl : Filelock) (overlapping : List Filelock) (first : Option Filelock) : Bool :=
  (conflicting fl overlapping).any fun l => first.any (ownerEqual · l)

/-- `is_deadlock` of an fcntl lock state, with `MAX_DEADLK_DEPTH - depth` rounds left. The set of owners is the list of
their locks, in which an owner may be visited more than once. -/
def isDeadlock (held : F → List Filelock) (W : WaitingLocks F) : Nat → Filelock → List Filelock → Option Filelock → Bool
  | 0, fl, overlapping, first => closes fl overlapping first
  | rounds + 1, fl, overlapping, first =>
    closes fl overlapping first || (conflicting fl overlapping).any fun o => (W.of o).any fun q =>
      !(overlappingOthers held q).isEmpty &&
        isDeadlock held W rounds q.1 (overlappingOthers held q) (some (first.getD fl))

def maxDeadlkDepth : Nat := 5

/-- The call of `add_lock` for a blocked lock `q.1` on the file `q.2`. -/
def wouldDeadlock (held : F → List Filelock) (W : WaitingLocks F) (q : Filelock × F) : Bool :=
  isDeadlock held W maxDeadlkDepth q.1 (overlappingOthers held q) none

/-! ### The owners that wait -/

/-- A lock of the owner `o` keeps `q.1` from being set on the file `q.2`. -/
def Blocks (held : F → List Filelock) (q : Filelock × F) (o : Nat × Nat × Nat) : Prop :=
  ∃ l ∈ held q.2, l.key = o ∧ o ≠ q.1.key ∧ l.range.Overlaps q.1.range ∧ ¬(q.1.type = .shared ∧ l.type = .shared)

/-- A chain of owners, each of which has a lock waiting that the next one blocks. -/
inductive WaitPath (held : F → List Filelock) (W : WaitingLocks F) : Nat → Nat × Nat × Nat → Nat × Nat × Nat → Prop
  | nil (o : Nat × Nat × Nat) : WaitPath held W 0 o o
  | cons {k : Nat} {q : Filelock × F} {o o' : Nat × Nat × Nat} : q ∈ W.locks → Blocks held q o →
      WaitPath held W k o o' → WaitPath held W (k + 1) q.1.key o'

variable {l r o : Filelock}

private theorem ownerLess_iff : ownerLess l r = true ↔ l.key.1 < r.key.1 ∨ l.key.1 = r.key.1 ∧
    (l.key.2.1 < r.key.2.1 ∨ l.key.2.1 = r.key.2.1 ∧ l.key.2.2 < r.key.2.2) := by
  unfold ownerLess key
  by_cases hc : l.client = r.client
  · by_cases ho : l.owner = r.owner
    · by_cases ht : r.owner.testBit 63 <;> simp [hc, ho, ht]
    · simp [hc, ho]
  · simp [hc]

private theorem not_ownerLess_trans (hlr : ¬ownerLess l r) (hro : ¬ownerLess r o) : ¬ownerLess l o := by
  rw [ownerLess_iff] at *
  omega

private theorem ownerLess_of_not (h : ¬ownerLess l r) (hne : l.key ≠ r.key) : ownerLess r l = true := by
  rw [ownerLess_iff] at *
  have : ¬(l.key.1 = r.key.1 ∧ l.key.2.1 = r.key.2.1 ∧ l.key.2.2 = r.key.2.2) := fun ⟨h1, h2, h3⟩ =>
    hne (Prod.ext h1 (Prod.ext h2 h3))
  omega

private theorem WaitingLocks.sorted_owner (W : WaitingLocks F) : W.locks.Pairwise fun p q => ¬ownerLess q.1 p.1 := by
  refine W.sorted.imp fun {p q} h hlt => h ?_
  have hne : ownerEqual q.1 p.1 = false := by
    rw [← Bool.not_eq_true, ownerEqual_iff]
    intro hk
    rw [ownerLess_iff, hk] at hlt
    omega
  simp [less, hne, hlt]

private theorem WaitingLocks.mem_of (W : WaitingLocks F) {q : Filelock × F} :
    q ∈ W.of o ↔ q ∈ W.locks ∧ q.1.key = o.key := by
  have hdrop : W.locks.Pairwise fun p q => ownerLess q.1 o = true → ownerLess p.1 o = true :=
    W.sorted_owner.imp fun hpq hq => by
      by_contra hp
      exact not_ownerLess_trans hpq hp hq
  have htake : (W.locks.filter fun q => !ownerLess q.1 o).Pairwise fun p q =>
      ownerEqual q.1 o = true → ownerEqual p.1 o = true := by
    rw [pairwise_filter]
    refine W.sorted_owner.imp fun {p q} hpq hp _ hq => ?_
    rw [ownerEqual_iff] at hq ⊢
    by_contra hne
    have hlt := ownerLess_of_not (by simpa using hp) hne
    rw [ownerLess_iff, ← hq, ← ownerLess_iff] at hlt
    exact hpq hlt
  rw [WaitingLocks.of, dropWhile_eq_filter hdrop, takeWhile_eq_filter htake]
  simp only [mem_filter, ownerEqual_iff, Bool.not_eq_true', ← Bool.not_eq_true, ownerLess_iff]
  refine ⟨fun h => ⟨h.1.1, h.2⟩, fun ⟨hq, hk⟩ => ⟨⟨hq, ?_⟩, hk⟩⟩
  rw [hk]
  omega

section
variable {held : F → List Filelock} {W : WaitingLocks F} {q : Filelock × F} {first : Filelock} {rounds : Nat}
  (hheld : ∀ f q, q.Within (2 ^ 64) → (getOverlappingLocks (held f) q).1 = (held f).filter fun l => decide (l.range.Overlaps q.range))
  (hW : ∀ q ∈ W.locks, q.1.Within (2 ^ 64))

include hheld in
private theorem blocks_iff (hq : q.1.Within (2 ^ 64)) {k : Nat × Nat × Nat} :
    Blocks held q k ↔ ∃ l ∈ conflicting q.1 (overlappingOthers held q), l.key = k := by
  simp only [conflicting, overlappingOthers, splitByOwner, hheld _ _ hq, mem_filter,
    Bool.not_eq_true', ← Bool.not_eq_true, ownerEqual_iff, Bool.and_eq_true, decide_eq_true_eq]
  constructor
  · rintro ⟨l, hl, rfl, hk, ho, ht⟩
    exact ⟨l, ⟨⟨⟨hl, ho⟩, hk⟩, ht⟩, rfl⟩
  · rintro ⟨l, ⟨⟨⟨hl, ho⟩, hk⟩, ht⟩, rfl⟩
    exact ⟨l, hl, rfl, hk, ho, ht⟩

include hheld in
private theorem closes_iff (hq : q.1.Within (2 ^ 64)) :
    closes q.1 (overlappingOthers held q) (some first) = true ↔ Blocks held q first.key := by
  rw [blocks_iff hheld hq]
  simp only [closes, any_eq_true, Option.any_some, ownerEqual_iff]
  exact exists_congr fun l => and_congr_right fun _ => eq_comm

/-- There is a path back to `first` of at most `rounds` edges, behind the first one. -/
def Finds (held : F → List Filelock) (W : WaitingLocks F) (rounds : Nat) (q : Filelock × F) (first : Filelock) : Prop :=
  ∃ k ≤ rounds, ∃ o, Blocks held q o ∧ WaitPath held W k o first.key

include hheld hW in
private theorem any_waiting_iff (hq : q.1.Within (2 ^ 64)) (ih : ∀ p ∈ W.locks,
      isDeadlock held W rounds p.1 (overlappingOthers held p) (some first) = true ↔ Finds held W rounds p first) :
    ((conflicting q.1 (overlappingOthers held q)).any fun o => (W.of o).any fun p =>
        !(overlappingOthers held p).isEmpty &&
          isDeadlock held W rounds p.1 (overlappingOthers held p) (some first)) = true ↔
      ∃ k ≤ rounds, ∃ o, Blocks held q o ∧ WaitPath held W (k + 1) o first.key := by
  simp only [any_eq_true, W.mem_of, blocks_iff hheld hq, Bool.and_eq_true]
  constructor
  · rintro ⟨l, hl, p, ⟨hp, hk⟩, -, hd⟩
    obtain ⟨k, hkr, o, ho, hpath⟩ := (ih p hp).1 hd
    exact ⟨k, hkr, p.1.key, ⟨l, hl, hk.symm⟩, .cons hp ho hpath⟩
  rintro ⟨k, hkr, o, ⟨l, hl, hlo⟩, hpath⟩
  cases hpath with
  | @cons k p o' _ hp ho hpath =>
    refine ⟨l, hl, p, ⟨hp, hlo.symm⟩, ?_, (ih p hp).2 ⟨k, hkr, o', ho, hpath⟩⟩
    obtain ⟨x, hx, -⟩ := (blocks_iff hheld (hW p hp)).1 ho
    have hne := ne_nil_of_mem (mem_filter.1 hx).1
    simpa using hne

include hheld hW in
private theorem isDeadlock_iff_finds (rounds : Nat) (hq : q.1.Within (2 ^ 64)) :
    isDeadlock held W rounds q.1 (overlappingOthers held q) (some first) = true ↔ Finds held W rounds q first := by
  induction rounds generalizing q with
  | zero =>
    rw [isDeadlock, closes_iff hheld hq]
    constructor
    · exact fun hb => ⟨0, le_rfl, _, hb, .nil _⟩
    · rintro ⟨k, hk, o, hb, hp⟩
      obtain rfl : k = 0 := Nat.le_zero.1 hk
      cases hp
      exact hb
  | succ rounds ih =>
    rw [isDeadlock, Bool.or_eq_true, closes_iff hheld hq, Option.getD_some,
      any_waiting_iff hheld hW hq fun p hp => ih (hW p hp)]
    constructor
    · rintro (hb | ⟨k, hk, o, ho, hp⟩)
      · exact ⟨0, Nat.zero_le _, _, hb, .nil _⟩
      · exact ⟨k + 1, Nat.succ_le_succ hk, o, ho, hp⟩
    rintro ⟨k, hk, o, hb, hp⟩
    cases k with
    | zero =>
      cases hp
      exact .inl hb
    | succ k => exact .inr ⟨k, Nat.le_of_succ_le_succ hk, o, hb, hp⟩

end

/-- Deadlock detection on lock states reached by operations that join whole locks: the answer is yes exactly if a chain of
two to six owners, each blocked by the next, leads back to the first. -/
theorem wouldDeadlock_iff {s : F → LockState} {W : WaitingLocks F} {q : Filelock × F}
    (hs : ∀ f, ∃ ops, AllSteps step (Joined (2 ^ 64)) {} ops ∧ exec step {} ops = some (s f)) (hW : ∀ p ∈ W.locks, p.1.Within (2 ^ 64))
    (hq : q.1.Within (2 ^ 64)) : wouldDeadlock (fun f => (s f).held) W q = true ↔
      ∃ k, 2 ≤ k ∧ k ≤ 6 ∧ ∃ o, Blocks (fun f => (s f).held) q o ∧
        WaitPath (fun f => (s f).held) W (k - 1) o q.1.key := by
  have hheld : ∀ f q, q.Within (2 ^ 64) →
      (getOverlappingLocks (s f).held q).1 = (s f).held.filter fun l => decide (l.range.Overlaps q.range) := by
    intro f q hq
    obtain ⟨_, hok, hrun⟩ := hs f
    rw [getOverlappingLocks_eq (inv_of_joined hok hrun).held hq, overlapping]
  have hfirst : wouldDeadlock (fun f => (s f).held) W q = true ↔ ∃ k ≤ 4, ∃ o, Blocks (fun f => (s f).held) q o ∧
      WaitPath (fun f => (s f).held) W (k + 1) o q.1.key := by
    rw [← any_waiting_iff hheld hW hq fun p hp => isDeadlock_iff_finds hheld hW 4 (hW p hp)]
    simp [wouldDeadlock, maxDeadlkDepth, isDeadlock, closes]
  rw [hfirst]
  constructor
  · rintro ⟨k, hk, o, hb, hp⟩
    exact ⟨k + 2, by omega, by omega, o, hb, hp⟩
  · rintro ⟨k, hk2, hk6, o, hb, hp⟩
    refine ⟨k - 2, by omega, o, hb, ?_⟩
    rwa [show k - 2 + 1 = k - 1 by omega]

def sampleExcl (client start length : Nat) : Filelock := ⟨start, length, client, 2 ^ 63, 1, .excl⟩

/-- A lock to the end of the file is not joined, and the request lies beyond `2 ^ 31`. -/
theorem wouldDeadlock_iff_two : ∃ (s : Bool → LockState) (W : WaitingLocks Bool),
    W.locks = [(sampleExcl 1 0 10, true)] ∧
    wouldDeadlock (fun f => (s f).held) W (sampleExcl 2 (2 ^ 40) 1, false) = true ∧
    ∃ k, 2 ≤ k ∧ k ≤ 6 ∧ ∃ o, Blocks (fun f => (s f).held) (sampleExcl 2 (2 ^ 40) 1, false) o ∧
      WaitPath (fun f => (s f).held) W (k - 1) o (sampleExcl 2 (2 ^ 40) 1).key := by
  obtain ⟨t, ht⟩ : ∃ t : Bool → LockState, ∀ f,
      exec step {} [.add (sampleExcl (cond f 2 1) 0 (cond f 10 0)) true false false] = some (t f) := ⟨_, fun f => rfl⟩
  refine ⟨t, ⟨[(sampleExcl 1 0 10, true)], by simp⟩, rfl, ?_⟩
  have hd : wouldDeadlock (fun f => (t f).held) ⟨[(sampleExcl 1 0 10, true)], by simp⟩
      (sampleExcl 2 (2 ^ 40) 1, false) = true := by
    obtain rfl : t = _ := funext fun f => Option.some.inj (ht f).symm
    rfl
  exact ⟨hd, (wouldDeadlock_iff (fun f => ⟨_, by cases f <;> decide, ht f⟩) (by decide) (by decide)).1 hd⟩

/-- The second lock of client `1` is joined with its first, and its end `2 ^ 31` becomes a negative `int`: the lock held
then covers that of client `2`. The scan for the lock of client `3` stops at client `2` and misses client `1`, which
waits for client `3`. -/
theorem wouldDeadlock_after_truncation : ∃ (s : Bool → LockState) (W : WaitingLocks Bool),
    exec step {} [.add (sampleExcl 2 (2 ^ 40) 10) true false false, .add (sampleExcl 1 0 10) true false false,
      .add (sampleExcl 1 0 (2 ^ 31 + 1)) true false false] = some (s false) ∧
    exec step {} [.add (sampleExcl 3 0 10) true false false] = some (s true) ∧
    wouldDeadlock (fun f => (s f).held) W (sampleExcl 3 (2 ^ 40 + 5) 1, false) = false ∧
    ∃ o, Blocks (fun f => (s f).held) (sampleExcl 3 (2 ^ 40 + 5) 1, false) o ∧
      WaitPath (fun f => (s f).held) W 1 o (sampleExcl 3 (2 ^ 40 + 5) 1).key := by
  refine ⟨fun f => cond f _ _, ⟨[(sampleExcl 1 0 10, true)], by simp⟩, rfl, rfl, rfl, _,
    ⟨sampleExcl 1 0 (2 ^ 64 - 2 ^ 31 + 1), by decide +kernel, rfl, by decide⟩,
    .cons (q := (sampleExcl 1 0 10, true)) (mem_singleton_self _)
      ⟨sampleExcl 3 0 10, mem_singleton_self _, rfl, by decide⟩ (.nil _)⟩

end Lunule.Flock
