import Lunule.IntervalSet.Basic
import Lunule.Osdc.Stream
import Lunule.Lib.RangeMap

/-!
# The writing side of a journal

`Journaler`, active and not stopping: entries are appended to a buffer, the buffer is written to the objects of the journal, and
contexts wait until what was appended before them is safe. The journal is zeroed ahead of what is written, and no write comes
closer than a period to what has not been zeroed yet. Writes, zero requests and writes of the head complete in any order, without
errors. Reading and trimming are left out.

Positions and lengths do not wrap; amounts passed to `_do_flush` are 32-bit values. Functions return `none` where an assertion
fails. A few fields are not part of the source and record what happened: where the journal starts, the bytes that were appended,
the positions between entries, the completed writes and contexts.
-/

namespace Lunule.Osdc

/-- `Journaler::Header`; before a head is written there is no format (`-1`). -/
structure Header where
  trimmed_pos : ℕ := 0
  expire_pos : ℕ := 0
  write_pos : ℕ := 0
  stream_format : Option StreamFormat := none
deriving DecidableEq

structure Write where
  pos : ℕ
  data : Bytes
deriving DecidableEq

structure Waiter (ι : Type) where
  onsafe : ι
  upTo : ℕ
deriving DecidableEq

/-- `m[k] = v`, for a map as the list of its pairs in the order of the keys. -/
def assign {ν : Type} : List (ℕ × ν) → ℕ → ν → List (ℕ × ν)
  | [], k, v => [(k, v)]
  | p :: m, k, v => if k < p.1 then (k, v) :: p :: m else if k = p.1 then (k, v) :: m else p :: assign m k v

structure Journaler (ι : Type) where
  period : ℕ
  /-- `journaler_prezero_periods`. -/
  prezero_periods : ℕ
  stream_format : StreamFormat
  last_written : Header
  last_committed : Header
  prezeroing_pos : ℕ
  prezero_pos : ℕ
  write_pos : ℕ
  flush_pos : ℕ
  safe_pos : ℕ
  next_safe_pos : ℕ
  write_buf : Bytes
  waiting_for_zero_pos : ℕ
  pending_zero : IntervalSet
  pending_safe : List (ℕ × ℕ)
  waitfor_safe : List (ℕ × List (Waiter ι))
  expire_pos : ℕ
  trimmed_pos : ℕ
  /-- Requests that have not completed. -/
  writes : List Write
  zeros : List (ℕ × ℕ)
  heads : List Header
  /-- What happened. -/
  start : ℕ
  stream : Bytes
  bounds : List ℕ
  written : List Write
  finished : List (Waiter ι)

namespace Journaler
variable {ι : Type} (j : Journaler ι)

def prezeroLoop (period stop : ℕ) : ℕ → ℕ → List (ℕ × ℕ)
  | 0, _ => []
  | n + 1, pos =>
    if pos < stop then
      let len := if pos % period = 0 then period else period - pos % period
      (pos, len) :: prezeroLoop period stop n (pos + len)
    else []

def issuePrezero : Option (Journaler ι) :=
  if j.prezeroing_pos < j.flush_pos then none
  else
    let num_periods := max 2 j.prezero_periods
    let stop := j.write_pos + j.period * num_periods + j.period - 1
    let stop := stop - stop % j.period
    if stop ≤ j.prezeroing_pos then some j
    else
      let zeros := prezeroLoop j.period stop (stop - j.prezeroing_pos) j.prezeroing_pos
      some { j with
        zeros := j.zeros ++ zeros
        prezeroing_pos := zeros.getLast?.elim j.prezeroing_pos fun z => z.1 + z.2 }

/-- `next_safe_pos` after a flush up to `stop` that leaves a part of the buffer: the last waiter that is flushed, if it is found. -/
def nextSafe (stop : ℕ) : ℕ :=
  match RangeMap.lowerBound Prod.fst j.waitfor_safe stop with
  | (_, []) => j.next_safe_pos
  | (before, p :: _) =>
    let key := if stop < p.1 then (before.head?.elim p.1 Prod.fst) else p.1
    if key ≤ stop ∧ j.next_safe_pos < key then key else j.next_safe_pos

def submitted (len : ℕ) : Journaler ι :=
  { j with
    pending_safe := assign j.pending_safe j.flush_pos j.next_safe_pos
    write_buf := j.write_buf.drop len
    next_safe_pos := if len = j.write_buf.length then j.write_pos else j.nextSafe (j.flush_pos + len)
    writes := j.writes ++ [⟨j.flush_pos, j.write_buf.take len⟩]
    flush_pos := j.flush_pos + len }

def submit (len : ℕ) : Option (Journaler ι) :=
  if (j.write_buf.drop len).length ≠ j.write_pos - (j.flush_pos + len) then none else (j.submitted len).issuePrezero

/-- The second half of `_do_flush`: `len` bytes are written, or fewer, or none until more is zeroed. -/
def flushLen (len : ℕ) : Option (Journaler ι) :=
  -- zero at least two full periods ahead
  if j.prezero_pos < j.flush_pos + len + 2 * j.period then
    j.issuePrezero.bind fun j =>
      let newlen : ℤ := j.prezero_pos - j.flush_pos - j.period
      if newlen ≤ 0 then some { j with waiting_for_zero_pos := j.flush_pos + len }
      else if newlen < len then submit { j with waiting_for_zero_pos := j.flush_pos + len } newlen.toNat
      else j.submit len
  else j.submit len

def doFlush (amount : ℕ) : Option (Journaler ι) :=
  if j.write_pos = j.flush_pos then some j
  else if j.write_pos < j.flush_pos then none
  else if j.write_pos - j.flush_pos ≠ j.write_buf.length then none
  else
    let len := j.write_pos - j.flush_pos
    j.flushLen (if amount ≠ 0 ∧ amount < len then amount else len)

def throttleMax : ℕ := 2 ^ 32 - 1 - (2 ^ 32 - 1) >>> 3

/-- The throttle lets `delta` bytes into the buffer. -/
def roomFor (delta : ℕ) : Bool :=
  !((delta ≤ throttleMax ∧ throttleMax < j.write_buf.length + delta) ∨ (throttleMax ≤ delta ∧ throttleMax < j.write_buf.length))

/-- `append_entry`, once the throttle has let it pass. -/
def appendEntry (bl : Bytes) : Option (Journaler ι) :=
  let bytes := j.stream_format.write bl j.write_pos
  let wrote := bytes.length
  let j := { j with
    write_buf := j.write_buf ++ bytes
    write_pos := j.write_pos + wrote
    stream := j.stream ++ bytes
    bounds := j.bounds ++ [j.write_pos + wrote] }
  if j.period = 0 then none
  else if j.write_pos / j.period ≠ j.flush_pos / j.period then
    -- flush previous object
    (j.doFlush ((j.write_buf.length - j.write_pos % j.period) % 2 ^ 32)).map fun j =>
      -- the unflushed data are within this entry
      if 0 < j.write_buf.length ∧ j.write_buf.length ≤ wrote then { j with next_safe_pos := j.write_pos - wrote } else j
  else some j

def waitForFlush (onsafe : Option ι) : Option (Journaler ι) :=
  if j.write_pos = j.safe_pos then
    if j.write_buf ≠ [] then none
    else some { j with finished := j.finished ++ (onsafe.map fun c => ⟨c, j.write_pos⟩).toList }
  else
    match onsafe with
    | none => some j
    | some c =>
      let waiters := ((j.waitfor_safe.find? (·.1 = j.write_pos)).map Prod.snd).getD []
      some { j with waitfor_safe := assign j.waitfor_safe j.write_pos (waiters ++ [⟨c, j.write_pos⟩]) }

def writeHead : Option (Journaler ι) :=
  let h : Header := ⟨j.trimmed_pos, j.expire_pos, j.safe_pos, some j.stream_format⟩
  if h.write_pos < h.expire_pos ∨ h.expire_pos < h.trimmed_pos then none
  else some { j with last_written := h, heads := j.heads ++ [h] }

def flush (onsafe : Option ι) (write_head_needed : Bool) : Option (Journaler ι) :=
  let flushed :=
    if j.write_pos = j.flush_pos then
      if j.write_buf ≠ [] then none
      else some { j with finished := j.finished ++ (onsafe.map fun c => ⟨c, j.write_pos⟩).toList }
    else (j.doFlush 0).bind (·.waitForFlush onsafe)
  flushed.bind fun j => if write_head_needed then j.writeHead else some j

def finishFlush (start : ℕ) : Option (Journaler ι) :=
  if j.flush_pos ≤ start then none
  else if (j.pending_safe.find? (·.1 = start)).isNone then none
  else
    let pending_safe := j.pending_safe.filter (·.1 ≠ start)
    let safe_pos :=
      match pending_safe with
      | [] => j.next_safe_pos
      | p :: _ => p.2
    -- kick waiters <= safe_pos
    let kicked := j.waitfor_safe.takeWhile (·.1 ≤ safe_pos)
    some { j with
      pending_safe := pending_safe
      safe_pos := safe_pos
      waitfor_safe := j.waitfor_safe.dropWhile (·.1 ≤ safe_pos)
      finished := j.finished ++ kicked.flatMap Prod.snd }

def zeroedLoop : List Intervals.Interval → ℕ → ℤ → ℕ × IntervalSet
  | [], prezero_pos, size => (prezero_pos, ⟨[], size⟩)
  | b :: m, prezero_pos, size =>
    if b.1 = prezero_pos then zeroedLoop m (prezero_pos + b.2.toNat) (wrap64 (size - b.2)) else (prezero_pos, ⟨b :: m, size⟩)

def finishPrezero (start len : ℕ) : Option (Journaler ι) :=
  if start = j.prezero_pos then
    let r := zeroedLoop j.pending_zero.m (j.prezero_pos + len) j.pending_zero.size
    let j := { j with prezero_pos := r.1, pending_zero := r.2 }
    if j.flush_pos < j.waiting_for_zero_pos then j.doFlush ((j.waiting_for_zero_pos - j.flush_pos) % 2 ^ 32) else some j
  else (j.pending_zero.insert start len).map fun s => { j with pending_zero := s }

inductive Event (ι : Type) where
  | append (bl : Bytes)
  | flush (onsafe : Option ι) (write_head_needed : Bool)
  | waitForFlush (onsafe : Option ι)
  | writeHead
  /-- The write at a position completes. -/
  | written (pos : ℕ)
  /-- The `i`-th zero request completes. -/
  | zeroed (i : ℕ)
  /-- The `i`-th write of the head completes. -/
  | headWritten (i : ℕ)

def step : Event ι → Option (Journaler ι)
  | .append bl => if j.roomFor (bl.length + j.stream_format.envelopeSize) then j.appendEntry bl else none
  | .flush onsafe write_head_needed => j.flush onsafe write_head_needed
  | .waitForFlush onsafe => j.waitForFlush onsafe
  | .writeHead => j.writeHead
  | .written pos =>
    match j.writes.find? (·.pos = pos) with
    | none => none
    | some w => finishFlush { j with writes := j.writes.filter (·.pos ≠ pos), written := j.written ++ [w] } pos
  | .zeroed i =>
    match j.zeros[i]? with
    | none => none
    | some z => finishPrezero { j with zeros := j.zeros.eraseIdx i } z.1 z.2
  | .headWritten i =>
    match j.heads[i]? with
    | none => none
    | some h => some { j with heads := j.heads.eraseIdx i, last_committed := h }

def create (ι : Type) (period prezero_periods : ℕ) (f : StreamFormat) : Journaler ι where
  period := period
  prezero_periods := prezero_periods
  stream_format := f
  last_written := {}
  last_committed := {}
  prezeroing_pos := period
  prezero_pos := period
  write_pos := period
  flush_pos := period
  safe_pos := period
  next_safe_pos := period
  write_buf := []
  waiting_for_zero_pos := 0
  pending_zero := {}
  pending_safe := []
  waitfor_safe := []
  expire_pos := period
  trimmed_pos := period
  writes := []
  zeros := []
  heads := []
  start := period
  stream := []
  bounds := [period]
  written := []
  finished := []

end Journaler
end Lunule.Osdc
