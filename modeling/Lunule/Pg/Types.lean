import Mathlib

/-!
# Versions and log entries of a placement group

`eversion_t` is ordered by epoch first. The parts of a log entry that the log, the missing set and the merge read are
kept; objects are of an arbitrary ordered type.
-/

namespace Lunule.Pg

/-- `eversion_t`. -/
structure Eversion where
  epoch : ℕ
  version : ℕ
deriving DecidableEq, Repr

namespace Eversion

def zero : Eversion := ⟨0, 0⟩

/-- `eversion_t::max()`: both fields all ones. -/
def max : Eversion := ⟨2 ^ 32 - 1, 2 ^ 64 - 1⟩

private theorem toLex_injective : Function.Injective fun v : Eversion => toLex (v.epoch, v.version) := by
  rintro ⟨e, v⟩ ⟨e', v'⟩ h
  have := toLex_inj.1 h
  simp_all

instance : LinearOrder Eversion := LinearOrder.lift' (fun v : Eversion => toLex (v.epoch, v.version)) toLex_injective

private theorem le_def {a b : Eversion} : a ≤ b ↔ a.epoch < b.epoch ∨ a.epoch = b.epoch ∧ a.version ≤ b.version :=
  Prod.Lex.le_iff

theorem zero_le (v : Eversion) : zero ≤ v := by
  rw [le_def]
  show 0 < v.epoch ∨ 0 = v.epoch ∧ 0 ≤ v.version
  omega

end Eversion

/-- `osd_reqid_t`. -/
structure ReqId where
  type : ℕ
  num : ℤ
  tid : ℕ
  inc : ℤ
deriving DecidableEq

inductive Op
  | modify | clone | delete | backlog | lostRevert | lostDelete | lostMark | promote | clean | error
deriving DecidableEq

/-- `pg_log_entry_t`. Of `mod_desc` only its answer to `can_rollback` is read. -/
structure LogEntry (ο : Type) where
  op : Op
  soid : ο
  version : Eversion
  prior_version : Eversion
  reqid : ReqId
  extra_reqids : List (ReqId × ℕ)
  user_version : ℕ
  return_code : ℤ
  canRollback : Bool
deriving DecidableEq

namespace LogEntry
variable {ο : Type} (e : LogEntry ο)

def isClone : Bool := e.op = .clone

def isBacklog : Bool := e.op = .backlog

def isError : Bool := e.op = .error

def isLostDelete : Bool := e.op = .lostDelete

def isDelete : Bool := e.op = .delete ∨ e.op = .lostDelete

def isUpdate : Bool :=
  e.op = .clone ∨ e.op = .modify ∨ e.op = .promote ∨ e.op = .clean ∨ e.op = .backlog ∨ e.op = .lostRevert ∨
    e.op = .lostMark

def objectIsIndexed : Bool := !e.isError

variable {e} in
theorem isUpdate_eq (h : e.objectIsIndexed) : e.isUpdate = !e.isDelete := by
  unfold objectIsIndexed isError at h
  unfold isUpdate isDelete
  cases hop : e.op with
  | error => simp [hop] at h
  | _ => rfl

end LogEntry

/-- `pg_log_dup_t`. -/
structure DupEntry where
  reqid : ReqId
  version : Eversion
  user_version : ℕ
  return_code : ℤ
deriving DecidableEq

end Lunule.Pg
