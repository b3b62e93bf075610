import Lunule.Pg.Split
import Lunule.Pg.Types

/-!
# The missing set

`pg_missing_set` lists the objects whose stored version is not the one the log asks for, with the version needed and
the version had, and a reverse index `rmissing` from the *number* of the needed version, without its epoch, to the object.
Every operation updates the two maps in separate statements, and records the object as changed.
-/

namespace Lunule.Pg
open Std (ExtTreeMap)

/-- `pg_missing_item`; `delete` is its only flag. -/
structure MissingItem where
  need : Eversion
  have' : Eversion
  delete : Bool
deriving DecidableEq

/-- `pg_missing_set`. -/
structure MissingSet (ο : Type) [LinearOrder ο] where
  missing : ExtTreeMap ο MissingItem
  rmissing : ExtTreeMap ℕ ο
  changed : Finset ο
  may_include_deletes : Bool

/-- `~((~0) << split_bits)`. -/
def splitMask (split_bits : ℕ) : BitVec 32 := ~~~((~~~0#32) <<< split_bits)

/-- The test by which a child takes an object of this hash. -/
def inChild (child_pgid : PgT) (split_bits : ℕ) (hash : BitVec 32) : Bool :=
  hash &&& splitMask split_bits = child_pgid.m_seed

scoped instance transCmp {ο : Type} [LinearOrder ο] : Std.TransCmp (compare : ο → ο → Ordering) := inferInstance

namespace MissingSet
variable {ο : Type} [LinearOrder ο] (m : MissingSet ο)

def empty : MissingSet ο := ⟨∅, ∅, ∅, false⟩

def isMissing (oid : ο) : Option MissingItem := m.missing[oid]?

def isMissingAt (oid : ο) (v : Eversion) : Bool :=
  match m.missing[oid]? with
  | none => false
  | some item => ¬item.need > v

/-- Forget `oid` with its item: `rm` and `got` of an iterator. -/
def rmAt (oid : ο) (item : MissingItem) : MissingSet ο :=
  { m with
    changed := insert oid m.changed
    rmissing := m.rmissing.erase item.need.version
    missing := m.missing.erase oid }

def rm (oid : ο) (v : Eversion) : MissingSet ο :=
  match m.missing[oid]? with
  | none => m
  | some item => if item.need ≤ v then m.rmAt oid item else m

/-- `got`, with its two assertions. -/
def got (oid : ο) (v : Eversion) : Option (MissingSet ο) :=
  match m.missing[oid]? with
  | none => none
  | some item => if item.need ≤ v ∨ item.delete then some (m.rmAt oid item) else none

def add (oid : ο) (need have' : Eversion) (is_delete : Bool) : MissingSet ο :=
  { m with
    missing := m.missing.insert oid ⟨need, have', is_delete⟩
    rmissing := m.rmissing.insert need.version oid
    changed := insert oid m.changed }

/-- Replace the item of an object that is listed already: its old entry in `rmissing` goes first. -/
def replace (oid : ο) (old new : MissingItem) : MissingSet ο :=
  { m with
    missing := m.missing.insert oid new
    rmissing := (m.rmissing.erase old.need.version).insert new.need.version oid
    changed := insert oid m.changed }

/-- `add_next_event`. The assertion on backlog entries fails only if no earlier case applies. -/
def addNextEvent (e : LogEntry ο) : Option (MissingSet ο) :=
  match m.missing[e.soid]? with
  | some item =>
    if e.prior_version = .zero ∨ e.isClone then
      some (m.replace e.soid item ⟨e.version, .zero, e.isDelete⟩)
    else
      some (m.replace e.soid item ⟨e.version, item.have', e.isDelete⟩)
  | none =>
    if e.prior_version = .zero ∨ e.isClone then
      some (m.add e.soid e.version .zero e.isDelete)
    else if e.isBacklog then none
    else some (m.add e.soid e.version e.prior_version e.isDelete)

def reviseNeed (oid : ο) (need : Eversion) (is_delete : Bool) : MissingSet ο :=
  match m.missing[oid]? with
  | some item => m.replace oid item ⟨need, item.have', is_delete⟩
  | none => m.add oid need .zero is_delete

def reviseHave (oid : ο) (have' : Eversion) : MissingSet ο :=
  match m.missing[oid]? with
  | some item =>
    { m with changed := insert oid m.changed, missing := m.missing.insert oid { item with have' } }
  | none => m

/-- `split_into`: the parent's set and the child's, the latter started from `omissing`. -/
def splitInto (hash : ο → BitVec 32) (child_pgid : PgT) (split_bits : ℕ) (omissing : MissingSet ο) :
    MissingSet ο × MissingSet ο :=
  m.missing.toList.foldl
    (fun (p : MissingSet ο × MissingSet ο) i =>
      if inChild child_pgid split_bits (hash i.1) then
        (p.1.rmAt i.1 i.2, p.2.add i.1 i.2.need i.2.have' i.2.delete)
      else p)
    (m, { omissing with may_include_deletes := m.may_include_deletes })

def clear : MissingSet ο :=
  { m with
    changed := m.missing.keys.foldl (fun c o => insert o c) m.changed
    missing := ∅
    rmissing := ∅ }

section
variable {m} {oid o : ο} {item new : MissingItem} {need have' : Eversion} {d : Bool}

@[simp] theorem missing_rmAt : (m.rmAt oid item).missing[o]? = if oid = o then none else m.missing[o]? := by
  simp [rmAt, ExtTreeMap.getElem?_erase]

@[simp] theorem missing_add :
    (m.add oid need have' d).missing[o]? = if oid = o then some ⟨need, have', d⟩ else m.missing[o]? := by
  simp [add, ExtTreeMap.getElem?_insert]

@[simp] theorem missing_replace :
    (m.replace oid item new).missing[o]? = if oid = o then some new else m.missing[o]? := by
  simp [replace, ExtTreeMap.getElem?_insert]

@[simp] theorem rmissing_rmAt {v : ℕ} :
    (m.rmAt oid item).rmissing[v]? = if item.need.version = v then none else m.rmissing[v]? := by
  simp [rmAt, ExtTreeMap.getElem?_erase]

@[simp] theorem rmissing_add {v : ℕ} :
    (m.add oid need have' d).rmissing[v]? = if need.version = v then some oid else m.rmissing[v]? := by
  simp [add, ExtTreeMap.getElem?_insert]

@[simp] theorem rmissing_replace {v : ℕ} : (m.replace oid item new).rmissing[v]? =
      if new.need.version = v then some oid else if item.need.version = v then none else m.rmissing[v]? := by
  simp [replace, ExtTreeMap.getElem?_insert, ExtTreeMap.getElem?_erase]

theorem missing_reviseHave : (m.reviseHave oid have').missing[o]? =
      if oid = o then m.missing[o]?.map fun item => { item with have' } else m.missing[o]? := by
  unfold reviseHave
  cases hm : m.missing[oid]? with
  | none =>
    dsimp only
    split
    · rename_i heq
      rw [← heq, hm]
      rfl
    · rfl
  | some item =>
    rw [ExtTreeMap.getElem?_insert]
    by_cases ho : oid = o
    · rw [if_pos (compare_eq_iff_eq.2 ho), if_pos ho, ← ho, hm]
      rfl
    · rw [if_neg (fun h => ho (compare_eq_iff_eq.1 h)), if_neg ho]

theorem rmissing_reviseHave : (m.reviseHave oid have').rmissing = m.rmissing := by
  unfold reviseHave
  split <;> rfl

theorem missing_rm {v : Eversion} :
    (m.rm oid v).missing[o]? = if oid = o then m.missing[o]?.filter (fun i => ¬i.need ≤ v) else m.missing[o]? := by
  unfold rm
  cases hm : m.missing[oid]? with
  | none =>
    dsimp only
    split
    · rename_i ho
      rw [← ho, hm]
      rfl
    · rfl
  | some item =>
    dsimp only
    by_cases hle : item.need ≤ v
    · rw [if_pos hle, missing_rmAt]
      split
      · rename_i ho
        rw [← ho, hm]
        simp [Option.filter, hle]
      · rfl
    · rw [if_neg hle]
      split
      · rename_i ho
        rw [← ho, hm]
        simp [Option.filter, hle]
      · rfl

end
end MissingSet
end Lunule.Pg
