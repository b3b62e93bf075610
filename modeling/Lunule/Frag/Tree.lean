import Lunule.Frag.Basic
import Lunule.Lib.Worklist

/-!
# The fragment tree

`fragtree_t`: the map of split points of a directory. A fragment that is absent from the map is not split, so the map is
a function with value 0 there. The searches of the source are `while` loops over a list of fragments or up the parents;
they are given a number of rounds here, and `none` stands for a failed assertion or for a loop that has not ended within
its rounds.
-/

namespace Lunule
open Worklist

/-- `fragtree_t::_splits`. -/
structure FragTree where
  splits : Frag → Nat

namespace FragTree

def empty : FragTree := ⟨fun _ => 0⟩

variable (t : FragTree)

def getSplit (f : Frag) : Nat := t.splits f

variable (x : Frag)

/-- `_splits[x] = b`; with `b = 0` also `_splits.erase(x)`. -/
def set (b : Nat) : FragTree := ⟨Function.update t.splits x b⟩

/-- The rounds given to a search down the tree: more than there are fragments. -/
def rounds : Nat := 2 ^ 25

/-! ### Accessors -/

def leavesVisit (f : Frag) (ls : List Frag) : Except Empty (List Frag × List Frag) :=
  if t.getSplit f ≠ 0 then .ok (f.split (t.getSplit f), ls) else .ok ([], f :: ls)

/-- `get_leaves_under_split`: the queue is used from its back. -/
def getLeavesUnderSplit (under : Frag) : Option (List Frag) :=
  (drain lifo t.leavesVisit rounds [under] []).bind Except.toOption

def getLeaves : Option (List Frag) := t.getLeavesUnderSplit .root

/-- The loop of `get_branch`; `parent()` asserts that there are bits left. -/
def branchFrom (t : FragTree) : Nat → Frag → Option Frag
  | 0, _ => none
  | n + 1, x =>
    if x = .root then some x
    else if t.getSplit x ≠ 0 then some x
    else if x.bits = 0 then none
    else t.branchFrom n x.parent

def getBranch : Option Frag := t.branchFrom (x.bits + 1) x

/-- The loop of `get_branch_above`. -/
def branchAboveFrom (t : FragTree) : Nat → Frag → Option Frag
  | 0, _ => none
  | n + 1, x =>
    if x = .root then some x
    else if x.bits = 0 then none
    else if t.getSplit x.parent ≠ 0 then some x.parent
    else t.branchAboveFrom n x.parent

def getBranchAbove : Option Frag := t.branchAboveFrom (x.bits + 1) x

def getBranchOrLeaf : Option Frag :=
  (t.getBranch x).map fun branch =>
    if 0 < t.getSplit branch ∧ branch.bits + t.getSplit branch ≤ x.bits then
      .make (branch.bits + t.getSplit branch) x.value
    else branch

def underVisit (x f : Frag) (ls : List Frag) : Except Empty (List Frag × List Frag) :=
  if x.bits ≤ f.bits ∧ x.contains f = false then .ok ([], ls)
  else if t.getSplit f ≠ 0 then .ok (f.split (t.getSplit f), ls)
  else if x.contains f then .ok ([], ls ++ [f])
  else .ok ([], ls)

def getLeavesUnder : Option (List Frag) :=
  (t.getBranchOrLeaf x).bind fun start =>
    (drain fifo (t.underVisit x) rounds [start] []).bind Except.toOption

def isLeaf : Option Bool := (t.getLeavesUnder x).map fun ls => decide (ls.head? = some x ∧ ls.length = 1)

/-- The loop of `contains` ends early at the fragment itself. -/
def containsVisit (x f : Frag) (_ : Unit) : Except Bool (List Frag × Unit) :=
  if x.bits ≤ f.bits ∧ x.contains f = false then .ok ([], ())
  else if t.getSplit f ≠ 0 then
    if f = x then .error false else .ok (f.split (t.getSplit f), ())
  else if f = x then .error true
  else .ok ([], ())

def contains : Option Bool :=
  (t.getBranch x).bind fun start =>
    (drain fifo (t.containsVisit x) rounds [start] ()).map fun
      | .ok () => false
      | .error b => b

/-- The loop of `operator[]`, which asserts that the value is in the fragment at hand and then in one of its children. -/
def lookupFrom (t : FragTree) (v : Nat) : Nat → Frag → Option Frag
  | 0, _ => none
  | n + 1, f =>
    if f.containsValue v = false then none
    else if t.getSplit f = 0 then some f
    else ((f.split (t.getSplit f)).find? (·.containsValue v)).bind (t.lookupFrom v n)

def lookup (v : Nat) : Option Frag := t.lookupFrom v 25 .root

/-! ### Modifiers -/

/-- The loop over the children in `try_assimilate_children`: the common width of their splits. -/
def commonSplit (t : FragTree) : Nat → List Frag → Option Nat
  | childbits, [] => some childbits
  | childbits, c :: cs =>
    if t.getSplit c = 0 then none
    else if childbits ≠ 0 ∧ t.getSplit c ≠ childbits then none
    else t.commonSplit (t.getSplit c) cs

def tryAssimilateChildren : FragTree :=
  if t.getSplit x = 0 then t
  else
    match t.commonSplit 0 (x.split (t.getSplit x)) with
    | none => t
    | some childbits =>
      ((x.split (t.getSplit x)).foldl (fun u c => u.set c 0) t).set x (t.getSplit x + childbits)

/-- The end of `split` and `merge`. -/
def simplifyAbove : Bool → Option FragTree
  | true => (t.getBranchAbove x).map t.tryAssimilateChildren
  | false => some t

def split (b : Nat) (simplify : Bool) : Option FragTree :=
  match t.isLeaf x with
  | some true => (t.set x b).simplifyAbove x simplify
  | _ => none

def merge (b : Nat) (simplify : Bool) : Option FragTree :=
  match t.isLeaf x with
  | some false => if t.getSplit x = b then (t.set x 0).simplifyAbove x simplify else none
  | _ => none

/-- The intermediary split of `force_to_leaf`: `parent` by `spread`, and its new children by the rest of its bits. -/
def addIntermediary (parent : Frag) (spread : Nat) : Option FragTree := do
  let nb := t.getSplit parent
  let t₁ ← t.merge parent nb false
  let t₂ ← t₁.split parent spread false
  (parent.split spread).foldlM (fun u p => u.split p (nb - spread) false) t₂

def hooverVisit (f : Frag) (t : FragTree) : Except Unit (List Frag × FragTree) :=
  if t.getSplit f ≠ 0 then
    match t.merge f (t.getSplit f) false with
    | none => .error ()
    | some t' => .ok (f.split (t.getSplit f), t')
  else .ok ([], t)

/-- The last part of `force_to_leaf`: merge `x` and everything below it, then assert that it is a leaf. -/
def hoover : Option FragTree := do
  let t' ← (drain fifo hooverVisit rounds [x] t).bind Except.toOption
  if (← t'.isLeaf x) then some t' else none

def forceToLeaf : Option (Bool × FragTree) := do
  if (← t.isLeaf x) then some (false, t)
  else
    let parent ← t.getBranchOrLeaf x
    if x.bits < parent.bits then none
    else if parent.bits < x.bits then
      let spread := x.bits - parent.bits
      if t.getSplit parent = 0 then
        let t' ← t.split parent spread true
        if (← t'.isLeaf x) then some (true, t') else none
      else if t.getSplit parent ≤ spread then none
      else
        let t₁ ← t.addIntermediary parent spread
        let t₂ ← t₁.hoover x
        some (true, t₂)
    else
      let t₂ ← t.hoover x
      some (true, t₂)

end FragTree

inductive FragOp
  | split (x : Frag) (b : Nat) (simplify : Bool)
  | merge (x : Frag) (b : Nat) (simplify : Bool)
  | forceToLeaf (x : Frag)

namespace FragTree

def apply (t : FragTree) : FragOp → Option FragTree
  | .split x b simplify => t.split x b simplify
  | .merge x b simplify => t.merge x b simplify
  | .forceToLeaf x => (t.forceToLeaf x).map Prod.snd

/-- What a caller owes: a leaf is split within the 24 bits, and a split is merged under its own width when all its
children are leaves. -/
def Allowed (t : FragTree) : FragOp → Prop
  | .split x b _ => x.WF ∧ t.isLeaf x = some true ∧ x.bits + b ≤ 24
  | .merge x b _ => x.WF ∧ t.getSplit x = b ∧ b ≠ 0 ∧ ∀ c ∈ x.split b, t.isLeaf c = some true
  | .forceToLeaf x => x.WF

instance (t : FragTree) (op : FragOp) : Decidable (t.Allowed op) :=
  match op with
  | .split _ _ _ => inferInstanceAs (Decidable (_ ∧ _ ∧ _))
  | .merge _ _ _ => inferInstanceAs (Decidable (_ ∧ _ ∧ _ ∧ _))
  | .forceToLeaf x => inferInstanceAs (Decidable x.WF)

end FragTree
end Lunule
