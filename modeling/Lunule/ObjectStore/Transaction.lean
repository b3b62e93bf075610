import Lunule.Lib.Interning

/-!
# Object store transactions

`ObjectStore::Transaction`: operations that refer to collections and objects by their numbers in two index tables, and
one stream of the values that the operations encode. A stream holds one item for each value; that decoding a value
gives back what was encoded is taken as given, and the order and number of the items is what matters here.

A `Call` is an operation as its caller means it, with collections and objects instead of numbers. `Holds t l` says that
the transaction `t` encodes the calls `l`; then iterating over `t` decodes exactly `l` (`Holds.iterate`). Adding an
operation and appending a transaction keep it, the latter because `_update_op` renumbers precisely the fields that an
operation of that kind has. For `OP_COLL_ADD` one of its assertions compares a collection number with the number of
objects, so that `append` may fail there.

Left out are the advice flags and the position of the largest write, which no operation reads.
-/

namespace Lunule.ObjectStore
open Interning List

inductive OpCode where
  | nop | touch | write | zero | truncate | remove | setattr | setattrs | rmattr | rmattrs | clone | clonerange2
  | mkcoll | rmcoll | collAdd | collRemove | collSetattr | collRmattr | collSetattrs | collHint | collMoveRename
  | collSetBits | tryRename | startsync | omapClear | omapSetkeys | omapRmkeys | omapRmkeyrange | omapSetheader
  | splitCollection2 | setallochint
  | unknown (code : ℕ)
  deriving DecidableEq

/-- The fields of an operation that are neither collections nor objects. `hint` is the hint type or the allocation
hint flags. -/
structure Plain where
  off : ℕ := 0
  len : ℕ := 0
  destOff : ℕ := 0
  hint : ℕ := 0
  expectedObjectSize : ℕ := 0
  expectedWriteSize : ℕ := 0
  splitBits : ℕ := 0
  splitRem : ℕ := 0

structure Op where
  op : OpCode
  cid : ℕ := 0
  oid : ℕ := 0
  destCid : ℕ := 0
  destOid : ℕ := 0
  plain : Plain := {}

/-- An operation on collections `γ` and objects `ο` with its data. -/
structure Call (γ ο δ : Type) where
  op : OpCode
  cid : Option γ := none
  oid : Option ο := none
  destCid : Option γ := none
  destOid : Option ο := none
  plain : Plain := {}
  data : List δ := []

/-- Which of the four references an operation has. -/
structure Uses where
  cid : Bool := false
  oid : Bool := false
  destCid : Bool := false
  destOid : Bool := false

def OpCode.uses : OpCode → Uses
  | .nop | .startsync | .unknown _ => {}
  | .mkcoll | .rmcoll | .collSetattr | .collRmattr | .collSetattrs | .collHint | .collSetBits => { cid := true }
  | .clone | .clonerange2 | .tryRename => { cid := true, oid := true, destOid := true }
  | .collAdd => { cid := true, oid := true, destCid := true }
  | .collMoveRename => { cid := true, oid := true, destCid := true, destOid := true }
  | .splitCollection2 => { cid := true, destCid := true }
  | _ => { cid := true, oid := true }

/-- How many values an operation puts into the data stream. -/
def OpCode.items : OpCode → ℕ
  | .setattr | .omapRmkeyrange => 2
  | .write | .setattrs | .rmattr | .collHint | .omapSetkeys | .omapRmkeys | .omapSetheader => 1
  | _ => 0

structure Transaction (γ ο δ κ : Type) where
  ops : ℕ := 0
  collIndex : Index γ := {}
  objectIndex : Index ο := {}
  dataBl : List δ := []
  opBl : List Op := []
  onApplied : List κ := []
  onCommit : List κ := []
  onAppliedSync : List κ := []

variable {γ ο δ κ : Type} [LinearOrder γ] [LinearOrder ο]

/-! ### The public methods -/

def refId {α : Type} [LinearOrder α] (t : Index α) : Option α → ℕ × Index α
  | none => (0, t)
  | some a => t.getId a

/-- What every method does with its operation: number the references, encode the data, count it. -/
def Transaction.add (t : Transaction γ ο δ κ) (c : Call γ ο δ) : Transaction γ ο δ κ :=
  let cid := refId t.collIndex c.cid
  let oid := refId t.objectIndex c.oid
  let destCid := refId cid.2 c.destCid
  let destOid := refId oid.2 c.destOid
  { t with
    ops := t.ops + 1
    collIndex := destCid.2
    objectIndex := destOid.2
    dataBl := t.dataBl ++ c.data
    opBl := t.opBl ++ [⟨c.op, cid.1, oid.1, destCid.1, destOid.1, c.plain⟩] }

inductive Method (γ ο δ : Type) where
  | startSync
  | nop
  | touch (cid : γ) (oid : ο)
  | write (cid : γ) (oid : ο) (off len : ℕ) (data : δ)
  | zero (cid : γ) (oid : ο) (off len : ℕ)
  | truncate (cid : γ) (oid : ο) (off : ℕ)
  | remove (cid : γ) (oid : ο)
  | setattr (cid : γ) (oid : ο) (name val : δ)
  | setattrs (cid : γ) (oid : ο) (attrset : δ)
  | rmattr (cid : γ) (oid : ο) (name : δ)
  | rmattrs (cid : γ) (oid : ο)
  | clone (cid : γ) (oid noid : ο)
  | cloneRange (cid : γ) (oid noid : ο) (srcoff srclen dstoff : ℕ)
  | createCollection (cid : γ) (bits : ℕ)
  | collectionHint (cid : γ) (type : ℕ) (hint : δ)
  | removeCollection (cid : γ)
  | collectionMove (cid oldcid : γ) (oid : ο)
  | collectionMoveRename (oldcid : γ) (oldoid : ο) (cid : γ) (oid : ο)
  | tryRename (cid : γ) (oldoid oid : ο)
  | omapClear (cid : γ) (oid : ο)
  | omapSetkeys (cid : γ) (oid : ο) (attrset : δ)
  | omapRmkeys (cid : γ) (oid : ο) (keys : δ)
  | omapRmkeyrange (cid : γ) (oid : ο) (first last : δ)
  | omapSetheader (cid : γ) (oid : ο) (header : δ)
  | splitCollection (cid : γ) (bits rem : ℕ) (destination : γ)
  | collectionSetBits (cid : γ) (bits : ℕ)
  | setAllocHint (cid : γ) (oid : ο) (expectedObjectSize expectedWriteSize flags : ℕ)

/-- The operations that a method encodes. -/
def Method.calls : Method γ ο δ → List (Call γ ο δ)
  | startSync => [{ op := .startsync }]
  | nop => [{ op := .nop }]
  | touch cid oid => [{ op := .touch, cid, oid }]
  | write cid oid off len data => [{ op := .write, cid, oid, plain := { off, len }, data := [data] }]
  | zero cid oid off len => [{ op := .zero, cid, oid, plain := { off, len } }]
  | truncate cid oid off => [{ op := .truncate, cid, oid, plain := { off } }]
  | remove cid oid => [{ op := .remove, cid, oid }]
  | setattr cid oid name val => [{ op := .setattr, cid, oid, data := [name, val] }]
  | setattrs cid oid attrset => [{ op := .setattrs, cid, oid, data := [attrset] }]
  | rmattr cid oid name => [{ op := .rmattr, cid, oid, data := [name] }]
  | rmattrs cid oid => [{ op := .rmattrs, cid, oid }]
  | clone cid oid noid => [{ op := .clone, cid, oid, destOid := noid }]
  | cloneRange cid oid noid srcoff srclen dstoff =>
    [{ op := .clonerange2, cid, oid, destOid := noid, plain := { off := srcoff, len := srclen, destOff := dstoff } }]
  | createCollection cid bits => [{ op := .mkcoll, cid, plain := { splitBits := bits } }]
  | collectionHint cid type hint => [{ op := .collHint, cid, plain := { hint := type }, data := [hint] }]
  | removeCollection cid => [{ op := .rmcoll, cid }]
  | collectionMove cid oldcid oid =>
    [{ op := .collAdd, cid := oldcid, oid, destCid := cid }, { op := .collRemove, cid := oldcid, oid }]
  | collectionMoveRename oldcid oldoid cid oid =>
    [{ op := .collMoveRename, cid := oldcid, oid := oldoid, destCid := cid, destOid := oid }]
  | tryRename cid oldoid oid => [{ op := .tryRename, cid, oid := oldoid, destOid := oid }]
  | omapClear cid oid => [{ op := .omapClear, cid, oid }]
  | omapSetkeys cid oid attrset => [{ op := .omapSetkeys, cid, oid, data := [attrset] }]
  | omapRmkeys cid oid keys => [{ op := .omapRmkeys, cid, oid, data := [keys] }]
  | omapRmkeyrange cid oid first last => [{ op := .omapRmkeyrange, cid, oid, data := [first, last] }]
  | omapSetheader cid oid header => [{ op := .omapSetheader, cid, oid, data := [header] }]
  | splitCollection cid bits rem destination =>
    [{ op := .splitCollection2, cid, destCid := destination, plain := { splitBits := bits, splitRem := rem } }]
  | collectionSetBits cid bits => [{ op := .collSetBits, cid, plain := { splitBits := bits } }]
  | setAllocHint cid oid expectedObjectSize expectedWriteSize flags =>
    [{ op := .setallochint, cid, oid, plain := { hint := flags, expectedObjectSize, expectedWriteSize } }]

def Transaction.run (t : Transaction γ ο δ κ) (m : Method γ ο δ) : Transaction γ ο δ κ := m.calls.foldl Transaction.add t

/-! ### Appending -/

/-- `_update_op`: `none` where an assertion fails. -/
def updateOp (cm om : List ℕ) (op : Op) : Option Op :=
  match op.op with
  | .nop | .startsync => some op
  | .clonerange2 | .clone | .tryRename =>
    if op.cid < cm.length ∧ op.oid < om.length ∧ op.destOid < om.length then
      some { op with cid := cm.getD op.cid 0, oid := om.getD op.oid 0, destOid := om.getD op.destOid 0 }
    else none
  | .mkcoll | .rmcoll | .collSetattr | .collRmattr | .collSetattrs | .collHint | .collSetBits =>
    if op.cid < cm.length then some { op with cid := cm.getD op.cid 0 } else none
  | .collAdd =>
    -- the source compares the collection with the number of objects
    if op.cid < cm.length ∧ op.oid < om.length ∧ op.destCid < om.length then
      some { op with cid := cm.getD op.cid 0, destCid := cm.getD op.destCid 0, oid := om.getD op.oid 0 }
    else none
  | .collMoveRename =>
    if op.cid < cm.length ∧ op.oid < om.length ∧ op.destCid < cm.length ∧ op.destOid < om.length then
      some { op with
        cid := cm.getD op.cid 0, oid := om.getD op.oid 0, destCid := cm.getD op.destCid 0,
        destOid := om.getD op.destOid 0 }
    else none
  | .splitCollection2 =>
    if op.cid < cm.length ∧ op.destCid < cm.length then
      some { op with cid := cm.getD op.cid 0, destCid := cm.getD op.destCid 0 }
    else none
  | .unknown _ => none
  | _ =>
    if op.cid < cm.length ∧ op.oid < om.length then
      some { op with cid := cm.getD op.cid 0, oid := om.getD op.oid 0 }
    else none

/-- What `append` leaves of the other transaction: its contexts are moved away. -/
def Transaction.forget (t : Transaction γ ο δ κ) : Transaction γ ο δ κ :=
  { t with onApplied := [], onCommit := [], onAppliedSync := [] }

/-- `append`: this transaction and the other one afterwards. -/
def Transaction.append (t other : Transaction γ ο δ κ) : Option (Transaction γ ο δ κ × Transaction γ ο δ κ) :=
  let colls := t.collIndex.merge other.collIndex
  let objects := t.objectIndex.merge other.objectIndex
  (other.opBl.mapM (updateOp colls.1 objects.1)).map fun opBl =>
    ({ ops := t.ops + other.ops
       collIndex := colls.2
       objectIndex := objects.2
       dataBl := t.dataBl ++ other.dataBl
       opBl := t.opBl ++ opBl
       onApplied := t.onApplied ++ other.onApplied
       onCommit := t.onCommit ++ other.onCommit
       onAppliedSync := t.onAppliedSync ++ other.onAppliedSync },
      other.forget)

/-! ### Iterating -/

/-- `get_cid` and `get_oid` for a reference that the operation has. -/
def lookup {α : Type} [LinearOrder α] (t : Index α) (used : Bool) (i : ℕ) : Option (Option α) :=
  if used then (t.name i).map some else some none

def Transaction.decodeOp (t : Transaction γ ο δ κ) (op : Op) (data : List δ) : Option (Call γ ο δ) :=
  (lookup t.collIndex op.op.uses.cid op.cid).bind fun cid =>
    (lookup t.objectIndex op.op.uses.oid op.oid).bind fun oid =>
      (lookup t.collIndex op.op.uses.destCid op.destCid).bind fun destCid =>
        (lookup t.objectIndex op.op.uses.destOid op.destOid).map fun destOid =>
          { op := op.op, cid, oid, destCid, destOid, plain := op.plain, data }

def Transaction.decodeOps (t : Transaction γ ο δ κ) : List Op → List δ → Option (List (Call γ ο δ))
  | [], _ => some []
  | op :: ops, data =>
    if op.op.items ≤ data.length then
      (t.decodeOp op (data.take op.op.items)).bind fun c => (t.decodeOps ops (data.drop op.op.items)).map (c :: ·)
    else none

/-- Iterating over the whole transaction. -/
def Transaction.iterate (t : Transaction γ ο δ κ) : Option (List (Call γ ο δ)) :=
  if t.ops ≤ t.opBl.length then t.decodeOps (t.opBl.take t.ops) t.dataBl else none

/-! ### What a transaction holds -/

structure Call.Formed (c : Call γ ο δ) : Prop where
  cid : c.cid.isSome = c.op.uses.cid
  oid : c.oid.isSome = c.op.uses.oid
  destCid : c.destCid.isSome = c.op.uses.destCid
  destOid : c.destOid.isSome = c.op.uses.destOid
  data : c.data.length = c.op.items
  known : ∀ code, c.op ≠ .unknown code

omit [LinearOrder γ] [LinearOrder ο] in
private theorem Method.formed (m : Method γ ο δ) : ∀ c ∈ m.calls, c.Formed := by
  cases m <;> intro c hc <;> simp only [Method.calls, mem_cons, not_mem_nil, or_false] at hc
  case collectionMove => rcases hc with rfl | rfl <;> exact ⟨rfl, rfl, rfl, rfl, rfl, by simp⟩
  all_goals
    subst hc
    exact ⟨rfl, rfl, rfl, rfl, rfl, by simp⟩

def Ref {α : Type} (t : Index α) (i : ℕ) (a : Option α) : Prop := ∀ x ∈ a, (x, i) ∈ t.entries

structure Refs (colls : Index γ) (objects : Index ο) (op : Op) (c : Call γ ο δ) : Prop where
  code : op.op = c.op
  plain : op.plain = c.plain
  cid : Ref colls op.cid c.cid
  oid : Ref objects op.oid c.oid
  destCid : Ref colls op.destCid c.destCid
  destOid : Ref objects op.destOid c.destOid

structure Holds (t : Transaction γ ο δ κ) (l : List (Call γ ο δ)) : Prop where
  colls : t.collIndex.Sound
  objects : t.objectIndex.Sound
  ops : t.ops = t.opBl.length
  refs : List.Forall₂ (Refs t.collIndex t.objectIndex) t.opBl l
  data : t.dataBl = l.flatMap Call.data
  formed : ∀ c ∈ l, c.Formed

omit [LinearOrder γ] [LinearOrder ο] in
private theorem holds_empty : Holds ({} : Transaction γ ο δ κ) [] := ⟨sound_empty, sound_empty, rfl, .nil, rfl, by simp⟩

section
variable {α : Type} {t t' : Index α} {i : ℕ} {a : Option α}

private theorem Ref.mono (h : Ref t i a) (hsub : t.entries ⊆ t'.entries) : Ref t' i a := fun x hx => hsub (h x hx)

variable [LinearOrder α]

private theorem Ref.lookup (h : Ref t i a) (ht : t.Sound) : lookup t a.isSome i = some a := by
  cases a with
  | none => rfl
  | some x => simp [ObjectStore.lookup, ht.name_of_mem (h x rfl)]

private theorem refId_spec (ht : t.Sound) (a : Option α) :
    (refId t a).2.Sound ∧ t.entries ⊆ (refId t a).2.entries ∧ Ref (refId t a).2 (refId t a).1 a := by
  cases a with
  | none => exact ⟨ht, fun _ h => h, by simp [Ref]⟩
  | some x =>
    obtain ⟨h1, h2, h3⟩ := ht.getId x
    exact ⟨h1, h2, by rintro y ⟨⟩; exact h3⟩

end

variable {objects objects' : Index ο} {colls colls' : Index γ} {c : Call γ ο δ} {op : Op}

omit [LinearOrder γ] [LinearOrder ο] in
private theorem Refs.mono (h : Refs colls objects op c) (hc : colls.entries ⊆ colls'.entries)
    (ho : objects.entries ⊆ objects'.entries) :
    Refs colls' objects' op c :=
  ⟨h.code, h.plain, h.cid.mono hc, h.oid.mono ho, h.destCid.mono hc, h.destOid.mono ho⟩

variable {t u : Transaction γ ο δ κ} {l m : List (Call γ ο δ)} {cm om : List ℕ}

private theorem Holds.iterate (h : Holds t l) : t.iterate = some l := by
  have hgen : ∀ {ops calls}, List.Forall₂ (Refs t.collIndex t.objectIndex) ops calls →
      (∀ c ∈ calls, Call.Formed c) → t.decodeOps ops (calls.flatMap Call.data) = some calls := by
    intro ops calls hrefs
    induction hrefs with
    | nil => exact fun _ => rfl
    | @cons op c ops calls href _ ih =>
      intro hformed
      obtain ⟨h1, h2, h3, h4, hdata, -⟩ := hformed c mem_cons_self
      have hop : t.decodeOp op c.data = some c := by
        unfold Transaction.decodeOp
        rw [href.code, ← h1, ← h2, ← h3, ← h4, href.cid.lookup h.colls, href.oid.lookup h.objects,
          href.destCid.lookup h.colls, href.destOid.lookup h.objects, href.plain]
        rfl
      have hrest := ih (forall_mem_cons.1 hformed).2
      rw [Transaction.decodeOps, flatMap_cons, href.code, ← hdata, if_pos (by simp), take_left, drop_left, hop, hrest]
      rfl
  rw [Transaction.iterate, if_pos h.ops.le, h.ops, take_length, h.data]
  exact hgen h.refs h.formed

private theorem Holds.add (h : Holds t l) (hc : c.Formed) : Holds (t.add c) (l ++ [c]) := by
  obtain ⟨s1, i1, r1⟩ := refId_spec h.colls c.cid
  obtain ⟨s2, i2, r2⟩ := refId_spec h.objects c.oid
  obtain ⟨s3, i3, r3⟩ := refId_spec s1 c.destCid
  obtain ⟨s4, i4, r4⟩ := refId_spec s2 c.destOid
  refine ⟨s3, s4, ?_, ?_, ?_, ?_⟩
  · simp [Transaction.add, h.ops]
  · refine rel_append (h.refs.imp fun _ _ hr => hr.mono (fun _ he => i3 (i1 he)) fun _ he => i4 (i2 he)) ?_
    exact .cons ⟨rfl, rfl, r1.mono i3, r2.mono i4, r3, r4⟩ .nil
  · simp [Transaction.add, h.data]
  · exact forall_mem_append.2 ⟨h.formed, forall_mem_singleton.2 hc⟩

private theorem Holds.run (h : Holds t l) (m : Method γ ο δ) : Holds (t.run m) (l ++ m.calls) := by
  have hgen : ∀ {calls : List (Call γ ο δ)}, (∀ c ∈ calls, c.Formed) → ∀ {t : Transaction γ ο δ κ} {l}, Holds t l →
      Holds (calls.foldl Transaction.add t) (l ++ calls) := by
    intro calls
    induction calls with
    | nil => intro _ t l h; simpa using h
    | cons c calls ih =>
      intro hformed t l h
      have := ih (forall_mem_cons.1 hformed).2 (h.add (hformed c mem_cons_self))
      simpa using this
  exact hgen m.formed h

/-- The vector `ids` maps the numbers of `t` to those of `t'`. -/
def Maps {α : Type} (ids : List ℕ) (t t' : Index α) : Prop :=
  ∀ e ∈ t.entries, ∃ j, ids[e.2]? = some j ∧ (e.1, j) ∈ t'.entries

private theorem Maps.ref {α : Type} {ids : List ℕ} {t t' : Index α} (h : Maps ids t t') {i : ℕ} {a : Option α}
    (ha : Ref t i a) (hsome : a.isSome = true) : i < ids.length ∧ Ref t' (ids.getD i 0) a := by
  obtain ⟨x, rfl⟩ := Option.isSome_iff_exists.1 hsome
  obtain ⟨j, hj, hmem⟩ := h _ (ha x rfl)
  refine ⟨(List.getElem?_eq_some_iff.1 hj).1, ?_⟩
  rintro y ⟨⟩
  rw [getD_eq_getElem?_getD, hj]
  exact hmem

private theorem Ref.none {α : Type} {t : Index α} {a : Option α} (h : a.isSome = false) (i : ℕ) : Ref t i a := by
  intro x hx
  cases hx
  cases h

def Op.renumber (cm om : List ℕ) (op : Op) : Op :=
  { op with
    cid := if op.op.uses.cid then cm.getD op.cid 0 else op.cid
    oid := if op.op.uses.oid then om.getD op.oid 0 else op.oid
    destCid := if op.op.uses.destCid then cm.getD op.destCid 0 else op.destCid
    destOid := if op.op.uses.destOid then om.getD op.destOid 0 else op.destOid }

private theorem updateOp_eq (hknown : ∀ code, op.op ≠ .unknown code)
    (h1 : op.op.uses.cid = true → op.cid < cm.length) (h2 : op.op.uses.oid = true → op.oid < om.length)
    (h3 : op.op.uses.destCid = true → op.destCid < cm.length) (h4 : op.op.uses.destOid = true → op.destOid < om.length)
    (hadd : op.op = .collAdd → op.destCid < om.length) : updateOp cm om op = some (op.renumber cm om) := by
  obtain ⟨code, cid, oid, destCid, destOid, plain⟩ := op
  cases code <;> simp_all [updateOp, Op.renumber, OpCode.uses]

omit [LinearOrder γ] [LinearOrder ο] in
private theorem Refs.update (h : Refs colls objects op c) (hf : c.Formed) (hcm : Maps cm colls colls')
    (hom : Maps om objects objects') (hadd : op.op = .collAdd → op.destCid < om.length) :
    ∃ op', updateOp cm om op = some op' ∧ Refs colls' objects' op' c := by
  obtain ⟨hop, hplain, h1, h2, h3, h4⟩ := h
  obtain ⟨f1, f2, f3, f4, -, hknown⟩ := hf
  rw [← hop] at f1 f2 f3 f4 hknown
  have heq := updateOp_eq hknown (fun hu => (hcm.ref h1 (f1.trans hu)).1) (fun hu => (hom.ref h2 (f2.trans hu)).1)
    (fun hu => (hcm.ref h3 (f3.trans hu)).1) (fun hu => (hom.ref h4 (f4.trans hu)).1) hadd
  have hfield : ∀ {α : Type} {ids : List ℕ} {t t' : Index α} {i : ℕ} {a : Option α} {used : Bool}, Maps ids t t' →
      Ref t i a → a.isSome = used → Ref t' (if used then ids.getD i 0 else i) a := by
    intro α ids t t' i a used hmaps href hused
    cases used with
    | true => exact (hmaps.ref href hused).2
    | false => exact Ref.none hused i
  exact ⟨_, heq, hop, hplain, hfield hcm h1 f1, hfield hom h2 f2, hfield hcm h3 f3, hfield hom h4 f4⟩

omit [LinearOrder γ] [LinearOrder ο] in
private theorem refs_updateAll (hcm : Maps cm colls colls') (hom : Maps om objects objects') {ops : List Op}
    (h : List.Forall₂ (Refs colls objects) ops m) (hformed : ∀ c ∈ m, c.Formed)
    (hadd : ∀ op ∈ ops, op.op = .collAdd → op.destCid < om.length) :
    ∃ ops', ops.mapM (updateOp cm om) = some ops' ∧ List.Forall₂ (Refs colls' objects') ops' m := by
  induction h with
  | nil => exact ⟨[], rfl, .nil⟩
  | @cons op c ops calls href _ ih =>
    obtain ⟨op', hop', href'⟩ := href.update (hformed c mem_cons_self) hcm hom (hadd op mem_cons_self)
    obtain ⟨ops', hops', hrefs'⟩ := ih (forall_mem_cons.1 hformed).2
      fun op ho => hadd op (mem_cons_of_mem _ ho)
    exact ⟨op' :: ops', by simp [hop', hops'], .cons href' hrefs'⟩

/-- Every `OP_COLL_ADD` of the transaction passes the assertion that `append` makes on its destination. -/
def Transaction.Appendable (t : Transaction γ ο δ κ) : Prop :=
  ∀ op ∈ t.opBl, op.op = .collAdd → op.destCid < t.objectIndex.entries.length

instance (t : Transaction γ ο δ κ) : Decidable t.Appendable :=
  inferInstanceAs (Decidable (∀ op ∈ t.opBl, op.op = .collAdd → _))

private theorem Holds.append (ht : Holds t l) (hu : Holds u m) (hadd : u.Appendable) :
    ∃ t', t.append u = some (t', u.forget) ∧ Holds t' (l ++ m) := by
  obtain ⟨c1, c2, c3, c4⟩ := merge_spec ht.colls hu.colls
  obtain ⟨o1, o2, o3, o4⟩ := merge_spec ht.objects hu.objects
  obtain ⟨ops, hmap, hrefs⟩ := refs_updateAll c4 o4 hu.refs hu.formed fun op ho hcode => by
    rw [o3]
    exact hadd op ho hcode
  refine ⟨_, by rw [Transaction.append, hmap]; rfl, c1, o1, ?_, ?_, ?_, ?_⟩
  · simp [ht.ops, hu.ops, hu.refs.length_eq, hrefs.length_eq]
  · exact rel_append (ht.refs.imp fun _ _ hr => hr.mono c2 o2) hrefs
  · simp [ht.data, hu.data]
  · intro c hc
    rcases mem_append.1 hc with hc | hc
    · exact ht.formed c hc
    · exact hu.formed c hc

/-- The transactions that the public methods and earlier appends build. -/
inductive Built : Transaction γ ο δ κ → Prop
  | empty : Built {}
  | run {t : Transaction γ ο δ κ} (m : Method γ ο δ) : Built t → Built (t.run m)
  | append {t u t' u' : Transaction γ ο δ κ} : Built t → Built u → t.append u = some (t', u') → Built t'
  | appended {t u t' u' : Transaction γ ο δ κ} : Built t → Built u → t.append u = some (t', u') → Built u'

omit [LinearOrder γ] [LinearOrder ο] in
private theorem Holds.forget (h : Holds u m) : Holds u.forget m := { h with }

private theorem Holds.appendable_of_append (ht : Holds t l) (hu : Holds u m)
    {r : Transaction γ ο δ κ × Transaction γ ο δ κ} (h : t.append u = some r) : u.Appendable := by
  obtain ⟨-, -, hlen, -⟩ := merge_spec ht.objects hu.objects
  obtain ⟨ops, hops, -⟩ := Option.map_eq_some_iff.1 h
  have hall : ∀ {ops ops' : List Op} {f : Op → Option Op}, ops.mapM f = some ops' → ∀ op ∈ ops, (f op).isSome := by
    intro ops
    induction ops with
    | nil => simp
    | cons a ops ih =>
      intro ops' f hf op hop
      obtain ⟨b, hb, hf⟩ := Option.bind_eq_some_iff.1 (mapM_cons.symm.trans hf)
      obtain ⟨bs, hbs, -⟩ := Option.bind_eq_some_iff.1 hf
      rcases mem_cons.1 hop with rfl | hop
      · simp [hb]
      · exact ih hbs op hop
  intro op hop hcode
  have hsome := hall hops op hop
  rw [updateOp, hcode] at hsome
  simp only at hsome
  split_ifs at hsome with hc
  · exact hlen ▸ hc.2.2
  · simp at hsome

private theorem Built.holds (h : Built t) : ∃ l, Holds t l := by
  induction h with
  | empty => exact ⟨[], holds_empty⟩
  | run m _ ih =>
    obtain ⟨l, hl⟩ := ih
    exact ⟨_, hl.run m⟩
  | append _ _ happ iht ihu =>
    obtain ⟨l, hl⟩ := iht
    obtain ⟨m, hm⟩ := ihu
    obtain ⟨t', ht', hholds⟩ := hl.append hm (hl.appendable_of_append hm happ)
    rw [happ] at ht'
    cases ht'
    exact ⟨_, hholds⟩
  | appended _ _ happ iht ihu =>
    obtain ⟨l, hl⟩ := iht
    obtain ⟨m, hm⟩ := ihu
    obtain ⟨t', ht', -⟩ := hl.append hm (hl.appendable_of_append hm happ)
    rw [happ] at ht'
    cases ht'
    exact ⟨m, hm.forget⟩

/-- Appending concatenates, if the assertion on the destinations of `OP_COLL_ADD` holds: iterating decodes the
operations of both, the other transaction keeps its operations and tables, and whatever is added later comes last. -/
theorem append_concatenates (ht : Built t) (hu : Built u) (hadd : u.Appendable) :
    ∃ l m t' u', t.iterate = some l ∧ u.iterate = some m ∧ t.append u = some (t', u') ∧ t'.iterate = some (l ++ m) ∧
      u'.iterate = some m ∧ u'.opBl = u.opBl ∧ u'.collIndex = u.collIndex ∧ u'.objectIndex = u.objectIndex ∧
      ∀ next : Method γ ο δ, (t'.run next).iterate = some (l ++ m ++ next.calls) := by
  obtain ⟨l, hl⟩ := ht.holds
  obtain ⟨m, hm⟩ := hu.holds
  obtain ⟨t', ht', hholds⟩ := hl.append hm hadd
  exact ⟨l, m, t', _, hl.iterate, hm.iterate, ht', hholds.iterate, hm.forget.iterate, rfl, rfl, rfl,
    fun next => (hholds.run next).iterate⟩

def moved : Transaction ℕ ℕ ℕ ℕ := Transaction.run {} (.collectionMove 1 0 5)

def touchedMoved : Transaction ℕ ℕ ℕ ℕ := (Transaction.run {} (.touch 0 7)).run (.collectionMove 1 0 5)

theorem append_concatenates_touchedMoved : ∃ l m t' u', moved.iterate = some l ∧ touchedMoved.iterate = some m ∧
      moved.append touchedMoved = some (t', u') ∧ t'.iterate = some (l ++ m) := by
  obtain ⟨l, m, t', u', hl, hm, happ, hiter, -⟩ := append_concatenates (Built.empty.run (.collectionMove 1 0 5))
    ((Built.empty.run (.touch 0 7)).run (.collectionMove 1 0 5)) (show touchedMoved.Appendable by decide +kernel)
  exact ⟨l, m, t', u', hl, hm, happ, hiter⟩

/-- The destination of the move has number 1 and the transaction names one object: the assertion fails. -/
theorem append_moved_asserts : (Transaction.append {} moved).isNone = true := by decide +kernel

end Lunule.ObjectStore
