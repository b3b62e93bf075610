import Lunule.ObjectKey.Basic

/-!
# Keys scan back

Scanning a key returns its object (`getKeyObject_objectKey`), one lemma for each kind of field: numbers are read back
because they have fixed width, escaped strings because no code of a byte holds a NUL or the terminator, and each code decodes to
its byte whether or not the buffer is flushed in between.

The length of an escaped string is returned as `int`. From 2 ^ 31 on it comes back negative and is taken for an error, or it
comes back too small and the scan goes on inside the string. What is left there has a length of one less than a multiple of
2 ^ 32, which is -1 as an `int`, and no NUL, so that the scan ends with an error too (`getKeyObject_of_not_fits`).
-/

namespace Lunule.ObjectKey
open OrderedCode List Scan

def escaped (s : List Byte) : List Byte := s.flatMap escapeByte

private theorem appendEscaped_eq (s rest : List Byte) : appendEscaped s ++ rest = escaped s ++ 33 :: rest := by
  simp [appendEscaped, escaped]

private theorem flush_spec (buff out : List Byte) : (flush buff out).2 ++ (flush buff out).1 = out ++ buff := by
  unfold flush
  split <;> simp

private theorem h2i_hexDigits (c : Byte) : ¬h2i (hexDigit (c.val / 16)) <<< 4 > 255 ∧
      h2i (hexDigit (c.val / 16)) <<< 4 ||| h2i (hexDigit (c.val % 16)) = c.val := by
  revert c
  decide +kernel

private theorem decodeLoop_escapeByte (c : Byte) (p : List Byte) (n : ℕ) (buff out : List Byte) :
    decodeLoop (escapeByte c ++ p) n buff out =
      decodeLoop p (n + (escapeByte c).length) (flush (buff ++ [c]) out).1 (flush (buff ++ [c]) out).2 := by
  have hcode : ∀ x : Byte, x = 35 ∨ x = 126 →
      decodeLoop (x :: hexDigit (c.val / 16) :: hexDigit (c.val % 16) :: p) n buff out =
        decodeLoop p (n + 3) (flush (buff ++ [c]) out).1 (flush (buff ++ [c]) out).2 := by
    intro x hx
    obtain ⟨hhigh, hboth⟩ := h2i_hexDigits c
    have hstop : ¬(x = 0 ∨ x = 33) := by rcases hx with rfl | rfl <;> decide
    have hbyte : Fin.ofNat 256 c.val = c := Fin.ext (Nat.mod_eq_of_lt c.isLt)
    have hle : ¬c.val > 255 := by omega
    rw [decodeLoop]
    simp only [hstop, hx, hhigh, hboth, hbyte, hle, if_true, if_false]
  unfold escapeByte
  split
  · exact hcode 35 (.inl rfl)
  split
  · exact hcode 126 (.inr rfl)
  rename_i hlow hhigh
  have hval : 35 < c.val ∧ c.val < 126 := by
    unfold schar at hlow hhigh
    split at hlow <;> omega
  have hne : ∀ x : Byte, x.val ≤ 35 ∨ 126 ≤ x.val → c ≠ x := by
    rintro x hx rfl
    omega
  have hstop : ¬(c = 0 ∨ c = 33) := by
    rintro (h | h)
    · exact hne 0 (.inl (by decide)) h
    · exact hne 33 (.inl (by decide)) h
  have hesc : ¬(c = 35 ∨ c = 126) := by
    rintro (h | h)
    · exact hne 35 (.inl (by decide)) h
    · exact hne 126 (.inr (by decide)) h
  rw [singleton_append, decodeLoop.eq_def]
  simp only [hstop, hesc, if_false, length_singleton]

private theorem decodeLoop_escaped (s rest : List Byte) (n : ℕ) (buff out : List Byte) :
    decodeLoop (escaped s ++ 33 :: rest) n buff out =
      some (toInt32 ((n + (escaped s).length : ℕ) : ℤ), out ++ buff ++ s) := by
  induction s generalizing n buff out with
  | nil =>
    show decodeLoop (33 :: rest) n buff out = _
    rw [decodeLoop.eq_def]
    simp [escaped]
  | cons c s ih =>
    have hcons : escaped (c :: s) = escapeByte c ++ escaped s := flatMap_cons
    rw [hcons, append_assoc, decodeLoop_escapeByte, ih, flush_spec, length_append]
    simp [Nat.add_assoc]

private theorem toInt32_of_lt {n : ℕ} (h : n < 2 ^ 31) : toInt32 n = n := by
  unfold toInt32
  rw [Int.bmod_eq_of_le] <;> omega

private theorem readEscaped_appendEscaped {s : List Byte} (h : (escaped s).length < 2 ^ 31) (err : ℤ)
    (rest : List Byte) : readEscaped err (appendEscaped s ++ rest) = some (.ok (s, rest)) := by
  have hdrop : (escaped s ++ 33 :: rest).drop ((escaped s).length + 1) = rest := by
    rw [drop_append]
    simp
  unfold readEscaped decodeEscaped
  rw [appendEscaped_eq, decodeLoop_escaped]
  simp only [Nat.zero_add, toInt32_of_lt h, Int.toNat_natCast, hdrop]
  rw [if_neg (by omega)]
  simp

private theorem toInt32_neg_iff (n : ℕ) : toInt32 n < 0 ↔ 2 ^ 31 ≤ n % 2 ^ 32 := by
  unfold toInt32
  rw [Int.bmod_def]
  split <;> omega

private theorem readEscaped_of_neg {s : List Byte} (h : 2 ^ 31 ≤ (escaped s).length % 2 ^ 32) (err : ℤ) (rest : List Byte) :
    readEscaped err (appendEscaped s ++ rest) = some (.error err) := by
  unfold readEscaped decodeEscaped
  rw [appendEscaped_eq, decodeLoop_escaped]
  simp only [Nat.zero_add, (toInt32_neg_iff _).2 h, if_true]

/-!
### Inside an escaped string
-/

private theorem escapeByte_hexDigit : ∀ n < 16, escapeByte (hexDigit n) = [hexDigit n] := by decide +kernel

private theorem escapeByte_tail (c : Byte) : ∀ b ∈ (escapeByte c).tail, escapeByte b = [b] := by
  have hdigits : ∀ b ∈ [hexDigit (c.val / 16), hexDigit (c.val % 16)], escapeByte b = [b] := by
    rintro b (_ | ⟨_, _ | ⟨_, ⟨⟩⟩⟩)
    · exact escapeByte_hexDigit _ (by omega)
    · exact escapeByte_hexDigit _ (by omega)
  rw [escapeByte]
  split
  · exact hdigits
  split
  · exact hdigits
  · nofun

private theorem ne_zero_of_mem_escaped {s : List Byte} {b : Byte} (hb : b ∈ escaped s) : b ≠ 0 := by
  rintro rfl
  have hcode : ∀ c : Byte, 0 ∉ escapeByte c := by decide +kernel
  obtain ⟨c, -, hc⟩ := mem_flatMap.1 hb
  exact hcode c hc

private theorem exists_drop_escapeByte (c : Byte) (k : ℕ) : ∃ t, (escapeByte c).drop k = escaped t := by
  cases k with
  | zero => exact ⟨[c], by simp [escaped]⟩
  | succ k =>
    refine ⟨(escapeByte c).tail.drop k, ?_⟩
    have hself : escaped ((escapeByte c).tail.drop k) = ((escapeByte c).tail.drop k).flatMap fun b => [b] :=
      flatMap_congr fun b hb => escapeByte_tail c b (mem_of_mem_drop hb)
    rw [hself, flatMap_singleton', drop_tail]

/-- What is left of an escaped string is one again: the digits of a code stand for themselves. -/
private theorem exists_drop_escaped (s : List Byte) (k : ℕ) : ∃ t, (escaped s).drop k = escaped t := by
  induction s generalizing k with
  | nil => exact ⟨[], by simp [escaped]⟩
  | cons c s ih =>
    have hcons : escaped (c :: s) = escapeByte c ++ escaped s := flatMap_cons
    obtain ⟨t, ht⟩ := exists_drop_escapeByte c k
    obtain ⟨t', ht'⟩ := ih (k - (escapeByte c).length)
    exact ⟨t ++ t', by rw [hcons, drop_append, ht, ht', escaped, escaped, escaped, flatMap_append]⟩

/-- A length that does not come back negative comes back too small by a multiple of `2 ^ 32`. -/
private theorem readEscaped_of_ge {s : List Byte} (h : 2 ^ 31 ≤ (escaped s).length) (err : ℤ) (rest : List Byte) :
    readEscaped err (appendEscaped s ++ rest) = some (.error err) ∨
      ∃ t, readEscaped err (appendEscaped s ++ rest) = some (.ok (s, appendEscaped t ++ rest)) ∧
        (escaped t).length % 2 ^ 32 = 2 ^ 32 - 1 := by
  by_cases hneg : 2 ^ 31 ≤ (escaped s).length % 2 ^ 32
  · exact .inl (readEscaped_of_neg hneg err rest)
  right
  have hint : toInt32 ((escaped s).length : ℤ) = ((escaped s).length % 2 ^ 32 : ℕ) := by
    unfold toInt32
    rw [Int.bmod_def, if_pos (by omega)]
    omega
  obtain ⟨t, ht⟩ := exists_drop_escaped s ((escaped s).length % 2 ^ 32 + 1)
  have hlen := congrArg length ht
  rw [length_drop] at hlen
  refine ⟨t, ?_, by omega⟩
  have hdrop : (escaped s ++ 33 :: rest).drop ((escaped s).length % 2 ^ 32 + 1) = appendEscaped t ++ rest := by
    rw [drop_append_of_le_length (by omega), ht, appendEscaped_eq]
  unfold readEscaped decodeEscaped
  rw [appendEscaped_eq, decodeLoop_escaped]
  simp only [Nat.zero_add, hint, Int.toNat_natCast, hdrop]
  rw [if_neg (by omega)]
  simp

private theorem readTail_inside (oid : Ghobject) {s : List Byte} (h : 18 ≤ (escaped s).length) (rest : List Byte) :
    ∃ e, readTail oid (appendEscaped s ++ rest) = some (.error e) := by
  have hread (n k : ℕ) (hk : n + k ≤ 18) : readNumber n ((escaped s ++ 33 :: rest).drop k) =
      some (.ok (ofBigEndian (((escaped s ++ 33 :: rest).drop k).take n), (escaped s ++ 33 :: rest).drop (k + n))) := by
    unfold readNumber
    rw [if_neg (by simp; omega), drop_drop]
  obtain ⟨t, ht⟩ := exists_drop_escaped s 16
  have hlen := congrArg length ht
  rw [length_drop] at hlen
  unfold readTail
  rw [appendEscaped_eq, ← drop_zero (l := escaped s ++ 33 :: rest), hread 8 0 (by omega), andThen_ok,
    hread 8 8 (by omega), andThen_ok, drop_append_of_le_length (by omega), ht]
  match hesc : escaped t with
  | [] => simp [hesc] at hlen; omega
  | [_] => simp [hesc] at hlen; omega
  | c :: d :: _ =>
    have hd : d ≠ 0 := ne_zero_of_mem_escaped (s := t) (by rw [hesc]; simp)
    by_cases hc : c = 111
    · exact ⟨-8, by simp [readChar, hc, hd]⟩
    · exact ⟨-7, by simp [readChar, hc]⟩

private theorem readName_inside (oid : Ghobject) (k : List Byte) {s : List Byte}
    (h : (escaped s).length % 2 ^ 32 = 2 ^ 32 - 1) (rest : List Byte) :
    ∃ e, readName oid k (appendEscaped s ++ rest) = some (.error e) := by
  obtain ⟨t, ht⟩ := exists_drop_escaped s 1
  match hesc : escaped s with
  | [] => simp [hesc] at h
  | c :: p =>
    obtain rfl : p = escaped t := by rwa [hesc] at ht
    rw [hesc, length_cons] at h
    rw [appendEscaped_eq, hesc, cons_append, ← appendEscaped_eq, readName, readChar, andThen_ok]
    split
    · exact readTail_inside _ (by omega) rest
    split
    · exact ⟨-5, by rw [readEscaped_of_neg (by omega), andThen_error]⟩
    · exact ⟨-6, rfl⟩

private theorem readNumber_bigEndian {n v : ℕ} (hv : v < 256 ^ n) (rest : List Byte) :
    readNumber n (bigEndian n v ++ rest) = some (.ok (v, rest)) := by
  have hlen := length_bigEndian n v
  have htake : (bigEndian n v ++ rest).take n = bigEndian n v := by
    rw [take_append_of_le_length hlen.ge, take_of_length_le hlen.le]
  have hdrop : (bigEndian n v ++ rest).drop n = rest := by
    rw [drop_append]
    simp
  unfold readNumber
  rw [htake, hdrop, ofBigEndian_bigEndian n v hv, if_neg (by simp)]

/-!
### The whole key
-/

private theorem readTail_encoded (oid : Ghobject) (snap generation : BitVec 64) :
    readTail oid (keyEncodeU64 snap ++ (keyEncodeU64 generation ++ [111, 0])) =
      some (.ok { oid with hobj := { oid.hobj with snap := snap }, generation := generation }) := by
  unfold readTail keyEncodeU64
  rw [readNumber_bigEndian snap.isLt, andThen_ok, readNumber_bigEndian generation.isLt, andThen_ok]
  simp [readChar]

private theorem readName_keyAndName {o : Hobject} (hnorm : o.Normalised) (hkey : (escaped o.key).length < 2 ^ 31)
    (hname : (escaped o.name).length < 2 ^ 31) (oid : Ghobject) (hinit : oid.hobj.key = []) (p : List Byte) :
    andThen (readEscaped (-3) (keyAndName o ++ p)) (readName oid) =
      readTail { oid with hobj := { oid.hobj with name := o.name, key := o.key } } p := by
  unfold keyAndName
  split
  · rename_i hlen
    have hne : o.key ≠ o.name := by
      rcases hnorm with h | h
      · simp [h] at hlen
      · exact h
    rw [if_pos hne, append_assoc, readEscaped_appendEscaped hkey, andThen_ok, cons_append, readName,
      readChar, andThen_ok]
    have hset : ({ oid.hobj with name := o.name } : Hobject).setKey o.key =
        { oid.hobj with name := o.name, key := o.key } := by
      simp [Hobject.setKey, hne]
    split
    · rw [if_neg (by decide), if_pos (by decide), readEscaped_appendEscaped hname, andThen_ok, hset]
    · rw [if_neg (by decide), if_pos (by decide), readEscaped_appendEscaped hname, andThen_ok, hset]
  · rename_i hlen
    have hnil : o.key = [] := eq_nil_of_length_eq_zero (not_not.1 hlen)
    rw [append_assoc, readEscaped_appendEscaped hname, andThen_ok, singleton_append, readName,
      readChar, andThen_ok, if_pos rfl, hnil, ← hinit]

private theorem length_objectKey_ge (o : Ghobject) : 13 ≤ (objectKey o).length := by
  unfold objectKey keyEncodeShard keyEncodeU64 keyEncodeU32
  simp only [length_append, length_bigEndian]
  omega

/-- The lengths of the escaped strings are kept by the `int` that returns them. -/
def Ghobject.Fits (o : Ghobject) : Prop :=
  (escaped o.hobj.nspace).length < 2 ^ 31 ∧ (escaped o.hobj.key).length < 2 ^ 31 ∧ (escaped o.hobj.name).length < 2 ^ 31

instance (o : Ghobject) : Decidable o.Fits := inferInstanceAs (Decidable (_ ∧ _))

private theorem getKeyObject_head (o : Ghobject) : getKeyObject (objectKey o) =
      andThen (readEscaped (-2) (appendEscaped o.hobj.nspace ++
          (keyAndName o.hobj ++ (keyEncodeU64 o.hobj.snap ++ (keyEncodeU64 o.generation ++ [111, 0]))))) fun nspace p =>
        andThen (readEscaped (-3) p) (readName { Ghobject.init with
          shard_id := o.shard_id
          hobj := { Ghobject.init.hobj with pool := o.hobj.pool, hash := o.hobj.hash, nspace := nspace } }) := by
  have hlen := length_objectKey_ge o
  have hkey : objectKey o ++ [0] =
      bigEndian 1 (o.shard_id + 0x80#8).toNat ++ (bigEndian 8 (o.hobj.pool + 0x8000000000000000#64).toNat ++
        (bigEndian 4 o.hobj.bitwiseKeyU32.toNat ++ (appendEscaped o.hobj.nspace ++ (keyAndName o.hobj ++
          (keyEncodeU64 o.hobj.snap ++ (keyEncodeU64 o.generation ++ [111, 0])))))) := by
    simp only [objectKey, keyEncodeShard, keyEncodeU64, keyEncodeU32, append_assoc, cons_append, nil_append]
  unfold getKeyObject
  rw [if_neg (by omega), hkey, readNumber_bigEndian (BitVec.isLt _), andThen_ok,
    readNumber_bigEndian (BitVec.isLt _), andThen_ok, readNumber_bigEndian (BitVec.isLt _), andThen_ok]
  simp only [BitVec.ofNat_toNat, BitVec.setWidth_eq, BitVec.add_sub_cancel, Hobject.bitwiseKeyU32,
    reverseBits_reverseBits]

private theorem getKeyObject_objectKey {o : Ghobject} (hmax : o.max = false ∧ o.hobj.max = false)
    (hnorm : o.hobj.Normalised) (hfits : o.Fits) : getKeyObject (objectKey o) = some (.ok o) := by
  obtain ⟨hn, hk, hname⟩ := hfits
  rw [getKeyObject_head, readEscaped_appendEscaped hn, andThen_ok, readName_keyAndName hnorm hk hname _ rfl,
    readTail_encoded]
  obtain ⟨⟨name, snap, hash, max, pool, nspace, key⟩, generation, shard, max'⟩ := o
  obtain ⟨rfl, rfl⟩ := hmax
  rfl

/-- An escaped string of `2 ^ 31` bytes or more ends the scan with an error, at once or at the next string or the tail. -/
theorem getKeyObject_of_not_fits {o : Ghobject} (hnorm : o.hobj.Normalised) (hfits : ¬o.Fits) :
    ∃ e, getKeyObject (objectKey o) = some (.error e) := by
  rw [getKeyObject_head]
  by_cases hn : (escaped o.hobj.nspace).length < 2 ^ 31
  case neg =>
    obtain h | ⟨t, h, ht⟩ := readEscaped_of_ge (not_lt.1 hn) (-2) _
    · exact ⟨-2, by rw [h, andThen_error]⟩
    · exact ⟨-3, by rw [h, andThen_ok, readEscaped_of_neg (by omega), andThen_error]⟩
  rw [readEscaped_appendEscaped hn, andThen_ok]
  have hfirst {s : List Byte} (hs : ¬(escaped s).length < 2 ^ 31) (oid : Ghobject) (rest : List Byte) :
      ∃ e, andThen (readEscaped (-3) (appendEscaped s ++ rest)) (readName oid) = some (.error e) := by
    obtain h | ⟨t, h, ht⟩ := readEscaped_of_ge (not_lt.1 hs) (-3) rest
    · exact ⟨-3, by rw [h, andThen_error]⟩
    · rw [h, andThen_ok]
      exact readName_inside oid s ht rest
  unfold keyAndName
  split
  · rename_i hne
    rw [append_assoc]
    by_cases hk : (escaped o.hobj.key).length < 2 ^ 31
    case neg => exact hfirst hk _ _
    have hname : ¬(escaped o.hobj.name).length < 2 ^ 31 := fun h => hfits ⟨hn, hk, h⟩
    have hne' : o.hobj.key ≠ o.hobj.name := hnorm.resolve_left fun h => hne (by rw [h]; rfl)
    have hchar : (if o.hobj.key > o.hobj.name then (62 : Byte) else 60) = 60 ∨
        (if o.hobj.key > o.hobj.name then (62 : Byte) else 60) = 62 := by split <;> simp
    generalize (if o.hobj.key > o.hobj.name then (62 : Byte) else 60) = c at hchar
    have hc : c ≠ 61 := by rcases hchar with rfl | rfl <;> decide
    rw [if_pos hne', readEscaped_appendEscaped hk, andThen_ok, cons_append, readName, readChar, andThen_ok, if_neg hc,
      if_pos hchar]
    obtain h | ⟨t, h, ht⟩ := readEscaped_of_ge (not_lt.1 hname) (-5) _
    · exact ⟨-5, by rw [h, andThen_error]⟩
    · rw [h, andThen_ok]
      exact readTail_inside _ (by omega) _
  · rename_i hnil
    have hkey : o.hobj.key = [] := eq_nil_of_length_eq_zero (not_not.1 hnil)
    rw [append_assoc]
    exact hfirst (fun h => hfits ⟨hn, by simp [hkey, escaped], h⟩) _ _

/-- The key of an object scans back to it, so that `getObjectKey` returns it and no other such object has it, if the escaped
strings are shorter than `2 ^ 31` bytes. Otherwise the key scans back to no object. -/
theorem objectKey_scans_back (o : Ghobject) (hmax : o.max = false ∧ o.hobj.max = false) (hnorm : o.hobj.Normalised) :
    (getKeyObject (objectKey o) = some (.ok o) ↔ o.Fits) ∧ (getObjectKey o = some (objectKey o) ↔ o.Fits) ∧
      ((∃ o', getKeyObject (objectKey o) = some (.ok o')) → o.Fits) ∧
      ∀ o' : Ghobject, o'.max = false ∧ o'.hobj.max = false → o'.hobj.Normalised → o.Fits → o'.Fits →
        objectKey o' = objectKey o → o' = o := by
  have hfits : (∃ o', getKeyObject (objectKey o) = some (.ok o')) → o.Fits := by
    rintro ⟨o', ho'⟩
    by_contra hfits
    obtain ⟨e, he⟩ := getKeyObject_of_not_fits hnorm hfits
    cases he.symm.trans ho'
  have hscan : getKeyObject (objectKey o) = some (.ok o) ↔ o.Fits :=
    ⟨fun h => hfits ⟨o, h⟩, getKeyObject_objectKey hmax hnorm⟩
  refine ⟨hscan, ?_, hfits, fun o' hmax' hnorm' ho ho' heq => ?_⟩
  · rw [getObjectKey, if_neg (by simp [hmax.2]), ← hscan]
    split <;> simp_all
  · have hscan' := getKeyObject_objectKey hmax' hnorm' ho'
    rw [heq, hscan.2 ho] at hscan'
    cases hscan'
    rfl

theorem objectKey_scans_back_sample : getKeyObject (objectKey (.named [0] [0, 33, 35, 37, 126, 200])) =
      some (.ok (.named [0] [0, 33, 35, 37, 126, 200])) :=
  (objectKey_scans_back (.named [0] [0, 33, 35, 37, 126, 200]) (by decide) (by decide +kernel)).1.2 (by decide +kernel)

private theorem length_escaped_replicate (n : ℕ) : (escaped (List.replicate n 97)).length = n := by
  have h97 : (escapeByte 97).length = 1 := by decide +kernel
  unfold escaped
  rw [length_flatMap, map_replicate, h97]
  simp

/-- The key of an object whose name is 2 ^ 31 plain characters does not scan back: the length of the name is returned as a
negative number, and the assertion of `getObjectKey` fails. -/
theorem objectKey_long_name : getKeyObject (objectKey (.named [] (List.replicate (2 ^ 31) 97))) = some (.error (-3)) ∧
      getObjectKey (.named [] (List.replicate (2 ^ 31) 97)) = none := by
  generalize hname : List.replicate (2 ^ 31) (97 : Byte) = name
  have hlen : (escaped name).length = 2 ^ 31 := by
    rw [← hname]
    exact length_escaped_replicate _
  have hnil : (escaped (Ghobject.named [] name).hobj.nspace).length < 2 ^ 31 := Nat.two_pow_pos 31
  have hkey : keyAndName (Ghobject.named [] name).hobj = appendEscaped name ++ [61] := rfl
  have hscan : getKeyObject (objectKey (.named [] name)) = some (.error (-3)) := by
    rw [getKeyObject_head, readEscaped_appendEscaped hnil, andThen_ok, hkey, append_assoc,
      readEscaped_of_neg (by omega), andThen_error]
  refine ⟨hscan, ?_⟩
  rw [getObjectKey, hscan]
  simp [Ghobject.named]

end Lunule.ObjectKey
