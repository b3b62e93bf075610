import Lunule.Lib.OrderedCode

/-!
# Object names and their keys in the store

The store keeps the objects of all collections in one ordered map from byte strings. The key of an object is written field
by field: shard and pool with their sign bits flipped, the bit-reversed hash, the namespace, the key or name, a character
that compares the two, the name if it is another, the snapshot and the generation (`objectKey`). Strings are escaped byte by
byte and closed by `!` (`appendEscaped`); the escape compares bytes as `char`, which is signed. `getKeyObject` scans a key
back, and `getObjectKey` asserts that this gives the object again.

Bytes are `Fin 256`. A pointer into a key is the rest of its bytes with the final NUL; reading past that is `none`.
-/

namespace Lunule.ObjectKey
open OrderedCode BitVec

abbrev Byte := Fin 256

/-- `hobject_t`. Its cached keys are functions of the hash. -/
structure Hobject where
  name : List Byte
  snap : BitVec 64
  hash : BitVec 32
  max : Bool
  pool : BitVec 64
  nspace : List Byte
  key : List Byte
deriving DecidableEq

/-- `ghobject_t`. -/
structure Ghobject where
  hobj : Hobject
  generation : BitVec 64
  shard_id : BitVec 8
  max : Bool
deriving DecidableEq

/-- `ghobject_t()`: pool `INT64_MIN`, no generation, no shard. -/
def Ghobject.init : Ghobject := ⟨⟨[], 0#64, 0#32, false, intMin 64, [], []⟩, allOnes 64, allOnes 8, false⟩

def Ghobject.named (key name : List Byte) : Ghobject :=
  { Ghobject.init with hobj := ⟨name, allOnes 64 - 1#64, 0#32, false, 1#64, [], key⟩ }

def reverseBits (v : BitVec 32) : BitVec 32 :=
  if v = 0#32 then v
  else
    let v := ((v >>> 1) &&& 0x55555555#32) ||| ((v &&& 0x55555555#32) <<< 1)
    let v := ((v >>> 2) &&& 0x33333333#32) ||| ((v &&& 0x33333333#32) <<< 2)
    let v := ((v >>> 4) &&& 0x0F0F0F0F#32) ||| ((v &&& 0x0F0F0F0F#32) <<< 4)
    let v := ((v >>> 8) &&& 0x00FF00FF#32) ||| ((v &&& 0x00FF00FF#32) <<< 8)
    (v >>> 16) ||| (v <<< 16)

namespace Hobject
variable (o : Hobject)

def setKey (key : List Byte) : Hobject := { o with key := if key = o.name then [] else key }

def Normalised : Prop := o.key = [] ∨ o.key ≠ o.name

instance (o : Hobject) : Decidable o.Normalised := inferInstanceAs (Decidable (_ ∨ _))

/-- `get_bitwise_key_u32`. -/
def bitwiseKeyU32 : BitVec 32 := reverseBits o.hash

/-- `get_bitwise_key`. -/
def bitwiseKey : ℕ := if o.max then 0x100000000 else o.bitwiseKeyU32.toNat

def effectiveKey : List Byte := if o.key.length ≠ 0 then o.key else o.name

def cmp (l r : Hobject) : ℤ :=
  if l.max < r.max then -1 else if l.max > r.max then 1
  else if l.pool.slt r.pool then -1 else if r.pool.slt l.pool then 1
  else if l.bitwiseKey < r.bitwiseKey then -1 else if l.bitwiseKey > r.bitwiseKey then 1
  else if l.nspace < r.nspace then -1 else if l.nspace > r.nspace then 1
  else if l.effectiveKey < r.effectiveKey then -1 else if l.effectiveKey > r.effectiveKey then 1
  else if l.name < r.name then -1 else if l.name > r.name then 1
  else if l.snap < r.snap then -1 else if l.snap > r.snap then 1
  else 0

end Hobject

def Ghobject.cmp (l r : Ghobject) : ℤ :=
  if l.max < r.max then -1 else if l.max > r.max then 1
  else if l.shard_id.slt r.shard_id then -1 else if r.shard_id.slt l.shard_id then 1
  else if l.hobj.cmp r.hobj ≠ 0 then l.hobj.cmp r.hobj
  else if l.generation < r.generation then -1 else if l.generation > r.generation then 1
  else 0

def Ghobject.Before (l r : Ghobject) : Prop := l.cmp r < 0

instance (l r : Ghobject) : Decidable (l.Before r) := inferInstanceAs (Decidable (_ < _))

/-!
### Writing keys
-/

scoped instance neZeroByte : NeZero 256 := inferInstance

def schar (c : Byte) : ℤ := if c.val < 128 then c.val else c.val - 256

/-- `"0123456789abcdef"[n]`, for `n < 16`. -/
def hexDigit (n : ℕ) : Byte := Fin.ofNat 256 (if n < 10 then 0x30 + n else 0x61 + (n - 10))

/-- What `append_escaped` writes for one byte: 35 is `#` and 126 is `~`. -/
def escapeByte (c : Byte) : List Byte :=
  if schar c ≤ 35 then [35, hexDigit (c.val / 16), hexDigit (c.val % 16)]
  else if schar c ≥ 126 then [126, hexDigit (c.val / 16), hexDigit (c.val % 16)]
  else [c]

/-- `append_escaped`, with the closing `!`. -/
def appendEscaped (s : List Byte) : List Byte := s.flatMap escapeByte ++ [33]

def keyEncodeShard (shard : BitVec 8) : List Byte := bigEndian 1 (shard + 0x80#8).toNat

def keyEncodeU32 (u : BitVec 32) : List Byte := bigEndian 4 u.toNat

def keyEncodeU64 (u : BitVec 64) : List Byte := bigEndian 8 u.toNat

/-- The part of a key for the key and the name: 60, 61 and 62 are `<`, `=` and `>`. -/
def keyAndName (o : Hobject) : List Byte :=
  if o.key.length ≠ 0 then
    appendEscaped o.key ++ if o.key ≠ o.name then (if o.key > o.name then 62 else 60) :: appendEscaped o.name else [61]
  else appendEscaped o.name ++ [61]

/-- The bytes that `get_object_key` writes; 111 is `o`. -/
def objectKey (o : Ghobject) : List Byte :=
  keyEncodeShard o.shard_id ++ keyEncodeU64 (o.hobj.pool + 0x8000000000000000#64) ++
    keyEncodeU32 o.hobj.bitwiseKeyU32 ++ appendEscaped o.hobj.nspace ++ keyAndName o.hobj ++
    keyEncodeU64 o.hobj.snap ++ keyEncodeU64 o.generation ++ [111]

/-!
### Reading keys
-/

/-- `h2i`; 256 for what is no hexadecimal digit. -/
def h2i (c : Byte) : ℕ :=
  if 0x30 ≤ c.val ∧ c.val ≤ 0x39 then c.val - 0x30
  else if 0x61 ≤ c.val ∧ c.val ≤ 0x66 then c.val - 0x61 + 10
  else if 0x41 ≤ c.val ∧ c.val ≤ 0x46 then c.val - 0x41 + 10
  else 256

def toInt32 (n : ℤ) : ℤ := n.bmod (2 ^ 32)

/-- The end of a round of `decode_escaped`: the buffer with the new byte is appended to `out` when it is full. -/
def flush (buff out : List Byte) : List Byte × List Byte := if buff.length > 252 then ([], out ++ buff) else (buff, out)

/-- The loop of `decode_escaped` at `p`, with `n` bytes behind: what it returns and what it has put out; -22 is
`-EINVAL`. -/
def decodeLoop : List Byte → ℕ → List Byte → List Byte → Option (ℤ × List Byte)
  | [], _, _, _ => none
  | c :: p, n, buff, out =>
    if c = 0 ∨ c = 33 then some (toInt32 n, out ++ buff)
    else if c = 35 ∨ c = 126 then
      match p with
      | [] => none
      | h :: p =>
        if h2i h <<< 4 > 255 then some (-22, out)
        else
          match p with
          | [] => none
          | l :: p =>
            if h2i h <<< 4 ||| h2i l > 255 then some (-22, out)
            else
              let r := flush (buff ++ [Fin.ofNat 256 (h2i h <<< 4 ||| h2i l)]) out
              decodeLoop p (n + 3) r.1 r.2
    else
      let r := flush (buff ++ [c]) out
      decodeLoop p (n + 1) r.1 r.2

def decodeEscaped (p : List Byte) : Option (ℤ × List Byte) := decodeLoop p 0 [] []

/-- What reading at a pointer gives: nothing if it leaves the key, an error code, or a value and the pointer behind it. -/
abbrev Scan (α : Type) := Option (Except ℤ (α × List Byte))

variable {α β : Type}

def Scan.andThen (x : Scan α) (f : α → List Byte → Option (Except ℤ β)) : Option (Except ℤ β) :=
  match x with
  | none => none
  | some (.error r) => some (.error r)
  | some (.ok (a, p)) => f a p

@[simp] theorem Scan.andThen_ok (a : α) (p : List Byte) (f : α → List Byte → Option (Except ℤ β)) :
    Scan.andThen (some (.ok (a, p))) f = f a p := rfl

@[simp] theorem Scan.andThen_error (r : ℤ) (f : α → List Byte → Option (Except ℤ β)) :
    Scan.andThen (some (.error r)) f = some (.error r) := rfl

/-- Read an escaped string and step over its terminator, or fail with the given code. -/
def readEscaped (err : ℤ) (p : List Byte) : Scan (List Byte) :=
  match decodeEscaped p with
  | none => none
  | some (r, out) => if r < 0 then some (.error err) else some (.ok (out, p.drop (r.toNat + 1)))

def readNumber (n : ℕ) (p : List Byte) : Scan ℕ :=
  if p.length < n then none else some (.ok (ofBigEndian (p.take n), p.drop n))

def readChar (p : List Byte) : Scan Byte :=
  match p with
  | [] => none
  | c :: p => some (.ok (c, p))

/-- The end of `get_key_object`, after the name. -/
def readTail (oid : Ghobject) (p : List Byte) : Option (Except ℤ Ghobject) :=
  Scan.andThen (readNumber 8 p) fun snap p =>
  Scan.andThen (readNumber 8 p) fun generation p =>
  Scan.andThen (readChar p) fun c p =>
  if c ≠ 111 then some (.error (-7))
  else Scan.andThen (readChar p) fun c _ =>
  if c ≠ 0 then some (.error (-8))
  else
    some (.ok { oid with
      hobj := { oid.hobj with snap := BitVec.ofNat 64 snap }, generation := BitVec.ofNat 64 generation })

/-- The middle of `get_key_object`: the key or name `k` has been read. -/
def readName (oid : Ghobject) (k p : List Byte) : Option (Except ℤ Ghobject) :=
  Scan.andThen (readChar p) fun c p =>
  if c = 61 then readTail { oid with hobj := { oid.hobj with name := k } } p
  else if c = 60 ∨ c = 62 then
    Scan.andThen (readEscaped (-5) p) fun name p =>
    readTail { oid with hobj := { oid.hobj with name := name }.setKey k } p
  else some (.error (-6))

/-- `get_key_object`: the object, or the error code returned. -/
def getKeyObject (key : List Byte) : Option (Except ℤ Ghobject) :=
  if key.length < 1 + 8 + 4 then some (.error (-1))
  else
    Scan.andThen (readNumber 1 (key ++ [0])) fun shard p =>
    Scan.andThen (readNumber 8 p) fun pool p =>
    Scan.andThen (readNumber 4 p) fun hash p =>
    Scan.andThen (readEscaped (-2) p) fun nspace p =>
    Scan.andThen (readEscaped (-3) p) fun k p =>
    readName
      { Ghobject.init with
        shard_id := BitVec.ofNat 8 shard - 0x80#8
        hobj := { Ghobject.init.hobj with
          pool := BitVec.ofNat 64 pool - 0x8000000000000000#64
          hash := reverseBits (BitVec.ofNat 32 hash)
          nspace := nspace } } k p

/-- `get_object_key`, with the assertions that the object is no maximum and that its key scans back to it. -/
def getObjectKey (o : Ghobject) : Option (List Byte) :=
  if o.hobj.max then none
  else if getKeyObject (objectKey o) = some (.ok o) then some (objectKey o)
  else none

/-!
### The reversal of bits
-/

theorem reverseBits_eq_reverse (v : BitVec 32) : reverseBits v = v.reverse := by
  apply eq_of_getLsbD_eq
  intro i hi
  rw [getLsbD_reverse, getMsbD_eq_getLsbD]
  unfold reverseBits
  split
  · rename_i h
    subst h
    simp
  · interval_cases i <;> simp

@[simp] theorem reverseBits_reverseBits (v : BitVec 32) : reverseBits (reverseBits v) = v := by
  rw [reverseBits_eq_reverse, reverseBits_eq_reverse, reverse_reverse_eq]

end Lunule.ObjectKey
