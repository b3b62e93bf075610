import Lunule.Frag.Basic
import Lunule.Lib.Climb

/-!
# The cached tree

Inodes, directory fragments and dentries of the metadata cache (`CInode`, `CDir`, `CDentry`), as two heaps indexed by
pointers: an inode knows the dentry that links it and its open fragments, a fragment knows its inode and its dentries.
Two sets of counters live on this tree: the hit window of each inode (`ReqCounter`, `CInode::hit`, `alpha_beta`) and
the density counters of each fragment (`inc_density`, `dec_density`).

Functions return `none` where an assertion of the source fails. Loops towards the root and recursions towards the
leaves are bounded by the number of nodes; on a tree this bound is never met.
-/

namespace Lunule.Cache

scoped instance neZeroTwo : NeZero 2 := inferInstance

abbrev InodePtr := Nat

abbrev DirPtr := Nat

def noSnap : Nat := 2 ^ 64 - 2

/-- `dentry_key_t`. -/
structure DentryKey where
  name : String
  last : Nat := noSnap
deriving DecidableEq

/-- `CDentry::linkage_t`. -/
inductive Linkage
  | null
  | remote (ino dType : Nat)
  | primary (inode : InodePtr)
deriving DecidableEq

namespace Linkage

def isNull : Linkage → Bool
  | null => true
  | remote ino _ => ino == 0
  | primary _ => false

end Linkage

structure CDentry where
  key : DentryKey
  linkage : Linkage
deriving DecidableEq

/-! ### Hit windows -/

def queueLen : Nat := 5

/-- `ReqCounter`. The constructor fills only the window: the other two fields start as the memory was. -/
structure ReqCounter where
  data : List Bool := List.replicate queueLen false
  lastHit : Bool := false
  cacheHitTimes : Int := 0
deriving DecidableEq

namespace ReqCounter

/-- Move the window by one epoch, in which the inode was hit or not. -/
def shift (r : ReqCounter) (hit : Bool) : ReqCounter :=
  { r with cacheHitTimes := r.cacheHitTimes + hit.toInt - (r.data.headD false).toInt, data := r.data.drop 1 ++ [hit] }

def switchEpoch (r : ReqCounter) (epochNum : Nat) : ReqCounter :=
  if queueLen + 1 < epochNum then {}
  else (fun r => r.shift false)^[epochNum - 1] { r.shift r.lastHit with lastHit := false }

/-- The class of the hit: 0 if the inode was hit in the window, 1 if not; `none` if it was already hit. -/
def hit (r : ReqCounter) : ReqCounter × Option (Fin 2) :=
  if r.lastHit then (r, none) else ({ r with lastHit := true }, some (if r.cacheHitTimes = 0 then 1 else 0))

end ReqCounter

/-- The hit counters of an inode. -/
structure HitCount where
  hitcount : ReqCounter := {}
  newoldhit : Fin 2 → Nat := fun _ => 0
  lastNewoldhit : Fin 2 → Nat := fun _ => 0
  beatEpoch : Int := -1

namespace HitCount

/-- `maybe_update_epoch`: the counters, and its return value. -/
def maybeUpdateEpoch (h : HitCount) (epoch : Int) : HitCount × Int :=
  let ret := epoch - h.beatEpoch
  let h := if h.beatEpoch < epoch then
      { h with hitcount := h.hitcount.switchEpoch (epoch - h.beatEpoch).toNat,
               lastNewoldhit := h.newoldhit, newoldhit := fun _ => 0 }
    else h
  ({ h with beatEpoch := epoch }, if ret < 0 then 2 else ret)

def count (h : HitCount) (k : Fin 2) : HitCount :=
  { h with newoldhit := Function.update h.newoldhit k (h.newoldhit k + 1) }

end HitCount

/-! ### The heaps -/

structure CInode where
  parent : Option (DirPtr × DentryKey) := none
  dirfrags : List (Frag × DirPtr) := []
  hits : HitCount := {}
  subtreeSize : Int := 0

structure CDir where
  inode : InodePtr
  auth : Bool
  items : List CDentry := []
  numHeadItems : Int := 0
  numHeadNull : Int := 0
  numSnapItems : Int := 0
  numSnapNull : Int := 0
  numDentriesNested : Int := 0
  numDentriesAuthSubtree : Int := 0
  numDentriesAuthSubtreeNested : Int := 0
  beatEpoch : Int

namespace CDir

def numAny (d : CDir) : Int := d.numHeadItems + d.numHeadNull + d.numSnapItems + d.numSnapNull

def find? (d : CDir) (key : DentryKey) : Option CDentry := d.items.find? (·.key = key)

/-- Count one dentry more (or less) among those with and those without a linkage. -/
def addItems (d : CDir) (last : Nat) (n : Int) : CDir :=
  if last = noSnap then { d with numHeadItems := d.numHeadItems + n }
  else { d with numSnapItems := d.numSnapItems + n }

def addNull (d : CDir) (last : Nat) (n : Int) : CDir :=
  if last = noSnap then { d with numHeadNull := d.numHeadNull + n }
  else { d with numSnapNull := d.numSnapNull + n }

section
variable (d : CDir) (last : Nat) (n : Int)

@[simp] theorem addItems_inode : (d.addItems last n).inode = d.inode := by unfold addItems; split <;> rfl

@[simp] theorem addItems_items : (d.addItems last n).items = d.items := by unfold addItems; split <;> rfl

@[simp] theorem addItems_nested : (d.addItems last n).numDentriesNested = d.numDentriesNested := by
  unfold addItems; split <;> rfl

@[simp] theorem addItems_numAny : (d.addItems last n).numAny = d.numAny + n := by
  unfold addItems numAny; split <;> (dsimp only; omega)

@[simp] theorem addNull_inode : (d.addNull last n).inode = d.inode := by unfold addNull; split <;> rfl

@[simp] theorem addNull_items : (d.addNull last n).items = d.items := by unfold addNull; split <;> rfl

@[simp] theorem addNull_nested : (d.addNull last n).numDentriesNested = d.numDentriesNested := by
  unfold addNull; split <;> rfl

@[simp] theorem addNull_numAny : (d.addNull last n).numAny = d.numAny + n := by
  unfold addNull numAny; split <;> (dsimp only; omega)

end

def setLinkage (d : CDir) (key : DentryKey) (linkage : Linkage) : CDir :=
  { d with items := d.items.map fun dn => if dn.key = key then { dn with linkage } else dn }

/-- `_maybe_update_epoch`. The recount it asks for returns the stored number, the epoch being set before. -/
def maybeUpdateEpoch (d : CDir) (epoch : Int) : CDir := if d.beatEpoch < epoch then { d with beatEpoch := epoch } else d

def bump (d : CDir) (nested authSubtree authSubtreeNested epoch : Int) : CDir :=
  let d := d.maybeUpdateEpoch epoch
  { d with numDentriesNested := d.numDentriesNested + nested,
           numDentriesAuthSubtree := d.numDentriesAuthSubtree + authSubtree,
           numDentriesAuthSubtreeNested := d.numDentriesAuthSubtreeNested + authSubtreeNested }

end CDir

/-- The cache. Pointers below `numInodes` and `numDirs` have been handed out. -/
structure MDCache where
  inodes : InodePtr → CInode := fun _ => {}
  dirs : DirPtr → CDir := fun _ => ⟨0, false, [], 0, 0, 0, 0, 0, 0, 0, 0⟩
  numInodes : Nat := 0
  numDirs : Nat := 0

namespace MDCache
variable (c : MDCache) (i : InodePtr)

def setInode (x : CInode) : MDCache := { c with inodes := Function.update c.inodes i x }

variable (d : DirPtr)

def setDir (x : CDir) : MDCache := { c with dirs := Function.update c.dirs d x }

def setHits (h : HitCount) : MDCache := c.setInode i { c.inodes i with hits := h }

/-- `get_dirfrags`. -/
def frags : List DirPtr := (c.inodes i).dirfrags.map (·.2)

/-- `CDir::get_parent_dir`. -/
def parentDir : Option DirPtr := (c.inodes (c.dirs d).inode).parent.map (·.1)

/-- `get_parent_dn()->get_dir()->get_inode()`. -/
def parentInode : Option InodePtr := (c.inodes i).parent.map fun dn => (c.dirs dn.1).inode

/-! ### Hits -/

/-- The loop of `CInode::hit` over the ancestors. -/
def hitAncestors (k : Fin 2) : Nat → MDCache → InodePtr → Option MDCache
  | 0, _, _ => none
  | n + 1, c, i =>
    match c.parentInode i with
    | none => some c
    | some p => hitAncestors k n (c.setHits p ((c.inodes p).hits.count k)) p

/-- `CInode::hit`, with its return value. -/
def hit (c : MDCache) (i : InodePtr) (checkEpoch : Bool) (epoch : Int) : Option (MDCache × Int) :=
  let rolled := (c.inodes i).hits.maybeUpdateEpoch epoch
  let h := if checkEpoch then rolled.1 else (c.inodes i).hits
  if checkEpoch ∧ rolled.2 < 0 then some (c.setHits i h, -2)
  else
    let (r, newold) := h.hitcount.hit
    match newold with
    | none => some (c.setHits i { h with hitcount := r }, -1)
    | some k =>
      let c := c.setHits i (HitCount.count { h with hitcount := r } k)
      (hitAncestors k c.numInodes c i).map fun c => (c, (k.val : Int))

variable (sizeBelow : MDCache → InodePtr → Option (MDCache × Int))

/-- One dentry in the loop of `CDir::get_authsubtree_size_slow`; `sizeBelow` counts below an inode. -/
def addDentrySize (acc : MDCache × Int) (dn : CDentry) : Option (MDCache × Int) :=
  match dn.linkage with
  | .primary i => (sizeBelow acc.1 i).map fun r => (r.1, acc.2 + r.2)
  | _ => some acc

/-- `CDir::get_authsubtree_size_slow`. -/
def dirSize (epoch : Int) (c : MDCache) (d : DirPtr) : Option (MDCache × Int) :=
  if epoch ≤ (c.dirs d).beatEpoch then some (c, (c.dirs d).numDentriesAuthSubtreeNested)
  else
    let c := c.setDir d { c.dirs d with beatEpoch := epoch, numDentriesAuthSubtreeNested := 0 }
    ((c.dirs d).items.foldlM (addDentrySize sizeBelow) (c, 0)).map fun r =>
      let n : Int := r.2 + (r.1.dirs d).items.length
      (r.1.setDir d { r.1.dirs d with numDentriesAuthSubtreeNested := n }, n)

/-- One fragment in the loop of `CInode::get_authsubtree_size_slow`. -/
def addFragSize (size : MDCache → DirPtr → Option (MDCache × Int)) (acc : MDCache × Int) (d : DirPtr) :
    Option (MDCache × Int) :=
  if (acc.1.dirs d).auth then (size acc.1 d).map fun r => (r.1, acc.2 + r.2) else some acc

/-- `CInode::get_authsubtree_size_slow`. -/
def inodeSize (epoch : Int) : Nat → MDCache → InodePtr → Option (MDCache × Int)
  | 0, _, _ => none
  | n + 1, c, i =>
    if epoch % 3 = 0 then some (c, (c.inodes i).subtreeSize)
    else
      let (h, ret) := (c.inodes i).hits.maybeUpdateEpoch epoch
      let c := c.setHits i h
      if ret ≤ 0 then some (c, (c.inodes i).subtreeSize)
      else
        ((c.frags i).foldlM (addFragSize (dirSize (inodeSize epoch n) epoch)) (c, 0)).map fun r =>
          (r.1.setInode i { r.1.inodes i with subtreeSize := r.2 }, r.2)

/-- The two ratios of `alpha_beta`, over the rationals. -/
def ratios (oldcnt newcnt : Nat) (subtreeSize : Int) : ℚ × ℚ :=
  let alpha : ℚ := if oldcnt + newcnt ≠ 0 then oldcnt / (oldcnt + newcnt) else 0
  let beta : ℚ := if subtreeSize ≠ 0 then (subtreeSize - oldcnt) / subtreeSize else 0
  (max alpha (1 / 10), max beta (1 / 10))

def alphaBeta (epoch : Int) : Option (MDCache × ℚ × ℚ) :=
  (inodeSize epoch (c.numInodes + 1) c i).map fun r =>
    let h := ((r.1.inodes i).hits.maybeUpdateEpoch epoch).1
    (r.1.setHits i h, ratios (h.lastNewoldhit 0) (h.lastNewoldhit 1) r.2)

/-! ### Density -/

/-- `inc_density` calls itself on the parent, from the fragment to the root. -/
def densityLoop (nested authSubtree authSubtreeNested epoch : Int) : Nat → MDCache → DirPtr → Option MDCache
  | 0, _, _ => none
  | n + 1, c, d =>
    let c := c.setDir d ((c.dirs d).bump nested authSubtree authSubtreeNested epoch)
    match c.parentDir d with
    | none => some c
    | some p => densityLoop nested authSubtree authSubtreeNested epoch n c p

variable (nested authSubtree authSubtreeNested : Int)

/-- `CDir::inc_density` with its default epoch. -/
def incDensity : Option MDCache :=
  densityLoop nested authSubtree authSubtreeNested (-1) c.numDirs c d

/-- `CDir::dec_density` with its default epoch. -/
def decDensity : Option MDCache :=
  incDensity c d (-nested) (-authSubtree) (-authSubtreeNested)

def incParentDensity : Option MDCache :=
  match c.parentDir d with
  | none => some c
  | some p =>
    let c := c.setDir d ((c.dirs d).maybeUpdateEpoch (-1))
    c.incDensity p (c.dirs d).numDentriesNested (c.dirs d).numDentriesAuthSubtree (c.dirs d).numDentriesAuthSubtreeNested

def decParentDensity : Option MDCache :=
  match c.parentDir d with
  | none => some c
  | some p =>
    let c := c.setDir d ((c.dirs d).maybeUpdateEpoch (-1))
    c.decDensity p (c.dirs d).numDentriesNested (c.dirs d).numDentriesAuthSubtree (c.dirs d).numDentriesAuthSubtreeNested

/-- The assertion that closes every change of a fragment: `get_num_any() == items.size()`. -/
def checked (c : MDCache) : Option MDCache := if (c.dirs d).numAny = (c.dirs d).items.length then some c else none

def insertDentry (dn : CDentry) : Option MDCache :=
  if ((c.dirs d).find? dn.key).isSome then none
  else
    let dir := { c.dirs d with items := (c.dirs d).items ++ [dn] }
    some (c.setDir d (if dn.linkage = .null then dir.addNull dn.key.last 1 else dir.addItems dn.key.last 1))

def addDentry (dn : CDentry) : Option MDCache := do
  let c ← c.insertDentry d dn
  let c ← c.incDensity d 1 0 (c.dirs d).auth.toInt
  c.checked d

variable (key : DentryKey)

def addNullDentry : Option MDCache := c.addDentry d ⟨key, .null⟩

def addRemoteDentry (ino dType : Nat) : Option MDCache := c.addDentry d ⟨key, .remote ino dType⟩

def setPrimaryParent (d : DirPtr) (key : DentryKey) : Option MDCache :=
  if (c.inodes i).parent = none then some (c.setInode i { c.inodes i with parent := some (d, key) }) else none

def addPrimaryDentry (i : InodePtr) : Option MDCache := do
  let c ← c.insertDentry d ⟨key, .primary i⟩
  let c ← c.setPrimaryParent i d key
  let subs := c.frags i
  let authSubs := subs.filter fun s => (c.dirs s).auth
  let c ← c.incDensity d (1 + (subs.map fun s => (c.dirs s).numDentriesNested).sum) authSubs.length
    ((c.dirs d).auth.toInt + (authSubs.map fun s => (c.dirs s).numDentriesAuthSubtreeNested).sum)
  c.checked d

/-- `unlink_inode_work`: detach the inode from the dentry. -/
def unlinkInodeWork (dn : CDentry) : Option MDCache :=
  match dn.linkage with
  | .null => none
  | .remote ino _ => if ino = 0 then none else some (c.setDir d ((c.dirs d).setLinkage dn.key .null))
  | .primary i =>
    if (c.inodes i).parent = some (d, dn.key) then
      some ((c.setInode i { c.inodes i with parent := none }).setDir d ((c.dirs d).setLinkage dn.key .null))
    else none

def removeDentry : Option MDCache := do
  let dn ← (c.dirs d).find? key
  let dir := c.dirs d
  let c := c.setDir d (if dn.linkage.isNull then dir.addNull key.last (-1) else dir.addItems key.last (-1))
  let c ← (if dn.linkage.isNull then some c else c.unlinkInodeWork d dn : Option MDCache)
  let c := c.setDir d { c.dirs d with items := (c.dirs d).items.filter (·.key ≠ key) }
  c.checked d

def unlinkInode : Option MDCache := do
  let dn ← (c.dirs d).find? key
  let c ← c.unlinkInodeWork d dn
  let c := c.setDir d (((c.dirs d).addItems key.last (-1)).addNull key.last 1)
  c.checked d

def linkPrimaryInode (i : InodePtr) : Option MDCache := do
  let dn ← (c.dirs d).find? key
  if !dn.linkage.isNull then none
  let c := c.setDir d ((c.dirs d).setLinkage key (.primary i))
  let c ← c.setPrimaryParent i d key
  let c := c.setDir d (((c.dirs d).addItems key.last 1).addNull key.last (-1))
  c.checked d

/-- A new fragment of inode `i`, as `get_or_open_dirfrag` opens it; `epoch` is what its memory held before. -/
def addDirfrag (fg : Frag) (auth : Bool) (epoch : Int) : Option MDCache :=
  if fg ∈ (c.inodes i).dirfrags.map (·.1) then none
  else
    let d := c.numDirs
    let c := { c with numDirs := d + 1 }
    let c := c.setDir d { inode := i, auth, beatEpoch := epoch }
    let c := c.setInode i { c.inodes i with dirfrags := (c.inodes i).dirfrags ++ [(fg, d)] }
    c.incParentDensity d

def removeNullDentries : Option MDCache := do
  let c ← ((c.dirs d).items.filter (·.linkage.isNull)).foldlM (fun c dn => c.removeDentry d dn.key) c
  if (c.dirs d).numSnapNull = 0 ∧ (c.dirs d).numHeadNull = 0 then c.checked d else none

/-- A fragment that still has dentries is pinned by them, so that the last assertion asks for none. -/
def closeDirfrag (fg : Frag) : Option MDCache := do
  let (_, d) ← (c.inodes i).dirfrags.find? (·.1 = fg)
  let c ← c.removeNullDentries d
  let c ← c.decParentDensity d
  if (c.dirs d).items = [] then
    some (c.setInode i { c.inodes i with dirfrags := (c.inodes i).dirfrags.filter (·.1 ≠ fg) })
  else none

end MDCache
end Lunule.Cache
