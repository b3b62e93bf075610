import Mathlib

/-!
# The byte stream of a journal

`JournalStream`: entries in a byte stream, each in an envelope. The legacy envelope is the length of the entry; the resilient one
is a sentinel and the length before the entry, and the position of the entry in the stream after it.
-/

namespace Lunule.Osdc

abbrev Bytes := List UInt8

inductive StreamFormat where
  | legacy
  | resilient
deriving DecidableEq

def sentinel : ℕ := 0x3141592653589793

/-- `::encode` of an unsigned integer of `n` bytes. -/
def encode : ℕ → ℕ → Bytes
  | 0, _ => []
  | n + 1, x => UInt8.ofNat x :: encode n (x / 256)

/-- `::decode` of an unsigned integer. -/
def decode : Bytes → ℕ
  | [] => 0
  | b :: bs => b.toNat + 256 * decode bs

namespace StreamFormat

/-- The bytes of the envelope before the entry. -/
def headSize : StreamFormat → ℕ
  | legacy => 4
  | resilient => 8 + 4

/-- `get_envelope_size`. -/
def envelopeSize : StreamFormat → ℕ
  | legacy => 4
  | resilient => 4 + 8 + 8

variable (f : StreamFormat)

/-- `JournalStream::write`: the bytes that are appended. -/
def write (entry : Bytes) (start_ptr : ℕ) : Bytes :=
  match f with
  | legacy => encode 4 entry.length ++ entry
  | resilient => encode 8 sentinel ++ encode 4 entry.length ++ entry ++ encode 8 start_ptr

/-- `JournalStream::readable`, with `need`; none if the input is malformed. -/
def readable (read_buf : Bytes) : Option (Bool × ℕ) :=
  if f.headSize ≤ read_buf.length then
    let head := read_buf.take f.headSize
    if f = resilient ∧ decode (head.take 8) ≠ sentinel then none
    else
      let entry_size := decode (head.drop (f.headSize - 4))
      let need := f.envelopeSize + entry_size
      some (decide (need ≤ read_buf.length), need)
  else some (false, f.headSize)

/-- `JournalStream::read`: the entry, its start pointer, the bytes consumed and what is left; none if the input ends early or
an assertion fails. -/
def read (buf : Bytes) : Option (Bytes × ℕ × ℕ × Bytes) :=
  if buf.length < f.headSize then none
  else
    let head := buf.take f.headSize
    if f = resilient ∧ decode (head.take 8) ≠ sentinel then none
    else
      let entry_size := decode (head.drop (f.headSize - 4))
      let consumed := f.envelopeSize + entry_size
      if buf.length < consumed then none
      else
        let entry := (buf.drop f.headSize).take entry_size
        let start_ptr := decode ((buf.drop (f.headSize + entry_size)).take (f.envelopeSize - f.headSize))
        some (entry, start_ptr, consumed, buf.drop consumed)

end StreamFormat

private theorem length_encode (n x : ℕ) : (encode n x).length = n := by
  induction n generalizing x with
  | zero => rfl
  | succ n ih => rw [encode, List.length_cons, ih]

theorem StreamFormat.length_write (f : StreamFormat) (entry : Bytes) (start_ptr : ℕ) :
    (f.write entry start_ptr).length = f.envelopeSize + entry.length := by
  cases f with
  | legacy => simp [write, envelopeSize, length_encode]
  | resilient =>
    simp only [write, envelopeSize, length_encode, List.length_append]
    omega

theorem StreamFormat.envelopeSize_pos (f : StreamFormat) : 0 < f.envelopeSize := by
  cases f <;> decide

end Lunule.Osdc
