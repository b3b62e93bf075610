import Lunule.Frag.Basic
import Lunule.Lib.Exec
import Lunule.Striper.Basic

/-!
# The purge queue

`PurgeQueue`: items are appended to a journal and read from it in order. The removals of an item run in parallel with those of
other items, and the position up to which the journal may be expired moves when the item with the lowest position in flight
completes. The head of the journal, with that position, is written from time to time; after a crash the queue starts again from
a head that was written.

The journal is the list of its entries. Events carry what the journal and the object store decide: how many entries can be read
at once, up to where entries are safe, which removal completes, which head was last written when the daemon crashed.
-/

namespace Lunule.Purge
open Std (ExtTreeMap)
open Striper (FileLayout getNumObjects)

/-- `PurgeItem::Action`, a byte in the journal. -/
inductive Action where
  | none
  | purgeFile
  | truncateFile
  | purgeDir
  | unknown (value : ℕ)
deriving DecidableEq

/-- `PurgeItem`, without the snap context. Of the fragment tree only the leaves matter, if it is more than the root. -/
structure PurgeItem where
  action : Action
  ino : ℕ
  size : ℕ
  layout : FileLayout
  pool_id : ℤ
  pool_ns : String
  old_pools : List ℤ
  leaves : List Frag

def PurgeItem.Valid (item : PurgeItem) : Prop :=
  item.action = .purgeFile ∨ item.action = .truncateFile ∨ item.action = .purgeDir

instance (item : PurgeItem) : Decidable item.Valid := inferInstanceAs (Decidable (_ ∨ _))

/-- What is asked of the object store: `Filer::purge_range`, `Objecter::remove` and `Filer::zero`. -/
inductive Removal where
  | purgeRange (first num : ℕ)
  | remove (pool : ℤ) (frag : Frag)
  | zero (len : ℕ)
deriving DecidableEq

/-- The removals of an item, the subs of the gather of `_execute_item`; none if the action is not valid. -/
def PurgeItem.removals (item : PurgeItem) (metadata_pool : ℤ) : Option (List Removal) :=
  match item.action with
  | .purgeFile =>
    let data := if 0 < item.size then [Removal.purgeRange 0 (getNumObjects item.layout item.size)] else []
    -- remove the backtrace object if it was not purged
    let backtrace := if data = [] ∨ item.pool_ns ≠ "" then [Removal.remove item.pool_id .root] else []
    some (data ++ backtrace ++ item.old_pools.map fun p => .remove p .root)
  | .purgeDir => some ((item.leaves ++ [Frag.root]).map fun frag => .remove metadata_pool frag)
  | .truncateFile =>
    let num := getNumObjects item.layout item.size
    -- keep backtrace object
    some ((if 1 < num then [.purgeRange 1 (num - 1)] else []) ++ [.zero item.layout.object_size])
  | _ => none

structure Entry where
  start : ℕ
  stop : ℕ
  item : PurgeItem

/-- An item in flight, with its removals that have not completed. -/
structure InFlight where
  item : PurgeItem
  outstanding : List Removal

structure PurgeQueue where
  metadata_pool : ℤ
  journal : List Entry
  write_pos : ℕ
  safe_pos : ℕ
  read_pos : ℕ
  expire_pos : ℕ
  /-- `expire_pos` of the heads that are being written, oldest first. -/
  heads : List ℕ
  /-- `last_committed.expire_pos`. -/
  committed : ℕ
  in_flight : ExtTreeMap ℕ InFlight
  ops_in_flight : ℕ
  max_purge_ops : ℕ
  filer_max_purge_ops : ℕ
  mds_max_purge_files : ℕ
  /-- The ends of the entries whose removals have all completed; not part of the source. -/
  purged : List ℕ

namespace PurgeQueue
variable (pq : PurgeQueue) (item : PurgeItem)

def calculateOps : ℕ :=
  if item.action = .purgeDir then 1 + item.leaves.length
  else
    let num := if 0 < item.size then getNumObjects item.layout item.size else 1
    -- account for removing (or zeroing) backtrace
    let ops_required := min num pq.filer_max_purge_ops + 1
    if item.action ≠ .truncateFile then ops_required + item.old_pools.length else ops_required

def canConsume : Bool :=
  if pq.in_flight.size = 0 ∧ 0 < pq.mds_max_purge_files then true
  else if pq.max_purge_ops ≤ pq.ops_in_flight then false
  else if pq.mds_max_purge_files ≤ pq.in_flight.size then false
  else true

/-- `_execute_item`; an item without removals fails an assertion. -/
def executeItem (expire_to : ℕ) : Option PurgeQueue :=
  let ops := (pq.ops_in_flight + pq.calculateOps item) % 2 ^ 64
  match item.removals pq.metadata_pool with
  | none => some { pq with in_flight := pq.in_flight.erase expire_to, ops_in_flight := ops }  -- dropping it
  | some [] => none
  | some removals => some { pq with in_flight := pq.in_flight.insert expire_to ⟨item, removals⟩, ops_in_flight := ops }

/-- The entries that can be read: those after `read_pos` that are safe. -/
def unread : List Entry := pq.journal.filter fun e => pq.read_pos < e.stop ∧ e.stop ≤ pq.safe_pos

/-- The loop of `_consume`, with the entries that are readable. -/
def consumeLoop : List Entry → PurgeQueue → Option PurgeQueue
  | [], pq => some pq
  | e :: es, pq =>
    if pq.canConsume then
      (executeItem { pq with read_pos := e.stop } e.item e.stop).bind (consumeLoop es)
    else some pq

/-- `_consume`, when `readable` entries are readable. -/
def consume (readable : ℕ) : Option PurgeQueue := consumeLoop (pq.unread.take readable) pq

/-- `push`; the entry takes `len` bytes of the journal. -/
def push (len : ℕ) : PurgeQueue :=
  { pq with journal := pq.journal ++ [⟨pq.write_pos, pq.write_pos + len, item⟩], write_pos := pq.write_pos + len }

def executeItemComplete (expire_to : ℕ) : Option PurgeQueue :=
  match pq.in_flight[expire_to]? with
  | none => none
  | some f =>
    some { pq with
      expire_pos := if pq.in_flight.minKey? = some expire_to then expire_to else pq.expire_pos
      ops_in_flight := (pq.ops_in_flight + 2 ^ 64 - pq.calculateOps f.item) % 2 ^ 64
      in_flight := pq.in_flight.erase expire_to }

def writeHead : PurgeQueue := { pq with heads := pq.heads ++ [pq.expire_pos] }

def removed (expire_to i : ℕ) : Option PurgeQueue :=
  match pq.in_flight[expire_to]? with
  | none => none
  | some f =>
    if i < f.outstanding.length then
      let outstanding := f.outstanding.eraseIdx i
      some { pq with
        in_flight := pq.in_flight.insert expire_to ⟨f.item, outstanding⟩
        purged := if outstanding = [] then expire_to :: pq.purged else pq.purged }
    else none

/-- The finisher of the gather of `_execute_item`, once all removals of the item have completed. -/
def complete (expire_to readable : ℕ) (write_head_needed : Bool) : Option PurgeQueue :=
  match pq.in_flight[expire_to]? with
  | some ⟨_, []⟩ =>
    ((pq.executeItemComplete expire_to).bind (·.consume readable)).map fun pq =>
      if pq.in_flight.isEmpty || write_head_needed then pq.writeHead else pq
  | _ => none

/-- `open` after a crash: the head gives `expire_pos`, and `stop` is where the last whole entry of the journal ends. -/
def recover (head stop : ℕ) : PurgeQueue :=
  { pq with
    journal := pq.journal.filter fun e => e.stop ≤ stop
    write_pos := stop
    safe_pos := stop
    read_pos := head
    expire_pos := head
    heads := []
    committed := head
    in_flight := ∅
    ops_in_flight := 0 }

def Boundary (pos : ℕ) : Prop := pos ≤ pq.write_pos ∧ ∀ e ∈ pq.journal, e.stop ≤ pos ∨ pos ≤ e.start

instance (pq : PurgeQueue) (pos : ℕ) : Decidable (pq.Boundary pos) := inferInstanceAs (Decidable (_ ∧ _))

inductive Event where
  | push (item : PurgeItem) (len readable : ℕ)
  /-- Entries become safe. -/
  | safe (pos : ℕ)
  /-- The journal becomes readable, or the limits were changed. -/
  | consume (readable : ℕ)
  | removed (expire_to i : ℕ)
  | complete (expire_to readable : ℕ) (write_head_needed : Bool)
  | writeHead
  | headWritten
  | limits (max_purge_ops filer_max_purge_ops mds_max_purge_files : ℕ)
  | crash (head stop : ℕ)

def step : Event → Option PurgeQueue
  | .push item len readable => if 0 < len then (pq.push item len).consume readable else none
  | .safe pos => if pq.safe_pos ≤ pos ∧ pq.Boundary pos then some { pq with safe_pos := pos } else none
  | .consume readable => pq.consume readable
  | .removed expire_to i => pq.removed expire_to i
  | .complete expire_to readable write_head_needed => pq.complete expire_to readable write_head_needed
  | .writeHead => some pq.writeHead
  | .headWritten =>
    match pq.heads with
    | [] => none
    | h :: heads => some { pq with heads := heads, committed := h }
  | .limits max_purge_ops filer_max_purge_ops mds_max_purge_files =>
    some { pq with
      max_purge_ops := max_purge_ops
      filer_max_purge_ops := filer_max_purge_ops
      mds_max_purge_files := mds_max_purge_files }
  | .crash head stop =>
    if head ∈ pq.committed :: pq.heads ∧ pq.safe_pos ≤ stop ∧ pq.Boundary stop then some (pq.recover head stop) else none

/-- `create`: an empty journal. -/
def create (metadata_pool : ℤ) (pos max_purge_ops filer_max_purge_ops mds_max_purge_files : ℕ) : PurgeQueue where
  metadata_pool := metadata_pool
  journal := []
  write_pos := pos
  safe_pos := pos
  read_pos := pos
  expire_pos := pos
  heads := []
  committed := pos
  in_flight := ∅
  ops_in_flight := 0
  max_purge_ops := max_purge_ops
  filer_max_purge_ops := filer_max_purge_ops
  mds_max_purge_files := mds_max_purge_files
  purged := []

end PurgeQueue
end Lunule.Purge
