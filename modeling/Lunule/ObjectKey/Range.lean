import Lunule.ObjectKey.Order

/-!
# The key ranges of a collection

The objects of a placement group are found by their keys: shard, pool and the reversed hash come first in a key, and the
hashes of one group, those with the same low bits, are an interval once reversed (`reverse_mem_interval_iff`).
`getCollKeyRange` computes the interval's ends, for the group's pool and for the pool of its temporary objects. An end of
2 ^ 32 does not fit the key and is clamped to 0xffffffff, which is exclusive: the hash 0xffffffff, which belongs to the
group with the last seed, is then in no group's range.
-/

namespace Lunule.ObjectKey
open OrderedCode
open BitVec (allOnes testBit_toNat isLt toInt_inj)

/-- The group a collection is for: `spg_t`, with the parts of `pg_t` that are read. -/
structure Spg where
  pool : BitVec 64
  ps : BitVec 32
  shard : BitVec 8
deriving DecidableEq

/-- `coll_t`: one for a group, or another. -/
inductive Coll
  | pg (pgid : Spg)
  | other
deriving DecidableEq

structure KeyRange where
  temp_start : List Byte
  temp_end : List Byte
  start : List Byte
  stop : List Byte
deriving DecidableEq

/-- `end_hash` of a group, as it is written into the key. -/
def endHash (reverse_hash : BitVec 32) (bits : ℕ) : BitVec 32 :=
  let end_hash := reverse_hash.setWidth 64 + (1#64 <<< (32 - bits))
  (if end_hash > 0xffffffff#64 then 0xffffffff#64 else end_hash).setWidth 32

def getCollKeyRange (cid : Coll) (bits : ℕ) : KeyRange :=
  match cid with
  | .pg pgid =>
    let start := keyEncodeShard pgid.shard ++ keyEncodeU64 (pgid.pool + 0x8000000000000000#64)
    let temp_start := keyEncodeShard pgid.shard ++ keyEncodeU64 ((-2#64 - pgid.pool) + 0x8000000000000000#64)
    let reverse_hash := reverseBits pgid.ps
    let end_hash := endHash reverse_hash bits
    { temp_start := temp_start ++ keyEncodeU32 reverse_hash
      temp_end := temp_start ++ keyEncodeU32 end_hash
      start := start ++ keyEncodeU32 reverse_hash
      stop := start ++ keyEncodeU32 end_hash }
  | .other =>
    let start := keyEncodeShard (allOnes 8) ++ keyEncodeU64 (allOnes 64 + 0x8000000000000000#64)
    let stop := start ++ keyEncodeU32 0xffffffff#32
    { temp_start := stop
      temp_end := stop
      start := start ++ keyEncodeU32 0#32
      stop := stop }

def InRange (lo hi key : List Byte) : Prop := ¬key < lo ∧ key < hi

instance (lo hi key : List Byte) : Decidable (InRange lo hi key) := inferInstanceAs (Decidable (_ ∧ _))

/-!
### Reversed hashes
-/

private theorem testBit_reverseBits (x : BitVec 32) {i : ℕ} (hi : i < 32) :
    (reverseBits x).toNat.testBit i = x.getLsbD (31 - i) := by
  rw [reverseBits_eq_reverse, testBit_toNat, BitVec.getLsbD_reverse, BitVec.getMsbD_eq_getLsbD]
  simp [hi]

variable {bits : ℕ} {ps : BitVec 32}

section
variable (hbits : bits ≤ 32)
include hbits

private theorem reverseBits_div_eq_iff (x y : BitVec 32) :
    (reverseBits x).toNat / 2 ^ (32 - bits) = (reverseBits y).toNat / 2 ^ (32 - bits) ↔
      x.toNat % 2 ^ bits = y.toNat % 2 ^ bits := by
  constructor
  · intro h
    apply Nat.eq_of_testBit_eq
    intro i
    rw [Nat.testBit_mod_two_pow, Nat.testBit_mod_two_pow]
    by_cases hi : i < bits
    · have hbit := congrArg (fun n => n.testBit (bits - 1 - i)) h
      simp only [Nat.testBit_div_two_pow] at hbit
      have hidx : bits - 1 - i + (32 - bits) = 31 - i := by omega
      rw [hidx, testBit_reverseBits x (by omega), testBit_reverseBits y (by omega)] at hbit
      rw [show 31 - (31 - i) = i by omega] at hbit
      rw [testBit_toNat, testBit_toNat, hbit]
    · simp [hi]
  · intro h
    apply Nat.eq_of_testBit_eq
    intro j
    rw [Nat.testBit_div_two_pow, Nat.testBit_div_two_pow]
    by_cases hj : j < bits
    · rw [testBit_reverseBits x (by omega), testBit_reverseBits y (by omega)]
      have hbit := congrArg (fun n => n.testBit (31 - (j + (32 - bits)))) h
      simp only [Nat.testBit_mod_two_pow, show 31 - (j + (32 - bits)) < bits by omega] at hbit
      exact hbit
    · rw [Nat.testBit_lt_two_pow, Nat.testBit_lt_two_pow]
      · exact (reverseBits y).isLt.trans_le (Nat.pow_le_pow_right (by decide) (by omega))
      · exact (reverseBits x).isLt.trans_le (Nat.pow_le_pow_right (by decide) (by omega))

private theorem reverseBits_mod_eq_zero (hps : ps.toNat < 2 ^ bits) :
    (reverseBits ps).toNat % 2 ^ (32 - bits) = 0 := by
  apply Nat.eq_of_testBit_eq
  intro i
  rw [Nat.testBit_mod_two_pow, Nat.zero_testBit]
  by_cases hi : i < 32 - bits
  · rw [testBit_reverseBits ps (by omega)]
    have hbit : ps.getLsbD (31 - i) = false := by
      rw [← testBit_toNat]
      exact Nat.testBit_lt_two_pow (hps.trans_le (Nat.pow_le_pow_right (by decide) (by omega)))
    simp [hbit]
  · simp [hi]

private theorem reverse_mem_interval_iff (hps : ps.toNat < 2 ^ bits) (h : BitVec 32) :
    ((reverseBits ps).toNat ≤ (reverseBits h).toNat ∧
      (reverseBits h).toNat < (reverseBits ps).toNat + 2 ^ (32 - bits)) ↔ h.toNat % 2 ^ bits = ps.toNat := by
  have hpos := Nat.two_pow_pos (32 - bits)
  have hzero := reverseBits_mod_eq_zero hbits hps
  have hdiv := Nat.div_add_mod (reverseBits ps).toNat (2 ^ (32 - bits))
  have hdiv' := Nat.div_add_mod (reverseBits h).toNat (2 ^ (32 - bits))
  have hiff := reverseBits_div_eq_iff hbits h ps
  rw [Nat.mod_eq_of_lt hps] at hiff
  rw [← hiff]
  constructor
  · rintro ⟨hlo, hhi⟩
    apply le_antisymm
    · rw [← Nat.lt_succ_iff, Nat.div_lt_iff_lt_mul hpos, Nat.succ_mul, mul_comm]
      omega
    · exact Nat.div_le_div_right hlo
  · intro heq
    rw [heq] at hdiv'
    omega

private theorem toNat_endHash (r : BitVec 32) :
    (endHash r bits).toNat = min (r.toNat + 2 ^ (32 - bits)) 0xffffffff := by
  have hpow : 2 ^ (32 - bits) ≤ 2 ^ 32 := Nat.pow_le_pow_right (by decide) (by omega)
  have hsum : (r.setWidth 64 + (1#64 <<< (32 - bits))).toNat = r.toNat + 2 ^ (32 - bits) := by
    rw [BitVec.toNat_add, BitVec.toNat_setWidth, BitVec.toNat_shiftLeft, Nat.shiftLeft_eq,
      show (1#64).toNat = 1 from rfl, one_mul, Nat.mod_eq_of_lt (show r.toNat < 2 ^ 64 by omega),
      Nat.mod_eq_of_lt (show 2 ^ (32 - bits) < 2 ^ 64 by omega)]
    exact Nat.mod_eq_of_lt (by omega)
  unfold endHash
  simp only [BitVec.lt_def, hsum]
  split
  · rename_i hbig
    rw [show (0xffffffff#64).toNat = 0xffffffff from rfl] at hbig
    rw [min_eq_right hbig.le]
    rfl
  · rename_i hsmall
    rw [show (0xffffffff#64).toNat = 0xffffffff from rfl] at hsmall
    rw [BitVec.toNat_setWidth, hsum, min_eq_left (by omega)]
    omega

end

/-!
### Ranges of keys
-/

def keyHead (shard : BitVec 8) (pool : BitVec 64) (hash : BitVec 32) : List Byte :=
  keyEncodeShard shard ++ keyEncodeU64 (pool + 0x8000000000000000#64) ++ keyEncodeU32 hash

section
variable {s s' : BitVec 8} {p p' : BitVec 64} {h lo hi lo' hi' : BitVec 32}

private theorem keyHead_lt_iff (s s' : BitVec 8) (p p' : BitVec 64) (h h' : BitVec 32) (t t' : List Byte) :
    keyHead s p h ++ t < keyHead s' p' h' ++ t' ↔
      s.toInt < s'.toInt ∨ s.toInt = s'.toInt ∧
        (p.toInt < p'.toInt ∨ p.toInt = p'.toInt ∧ (h.toNat < h'.toNat ∨ h.toNat = h'.toNat ∧ t < t')) := by
  unfold keyHead keyEncodeShard keyEncodeU64 keyEncodeU32
  simp only [List.append_assoc]
  rw [number_lt_iff 1 (isLt _) (isLt _), number_lt_iff 8 (isLt _) (isLt _), number_lt_iff 4 (isLt _) (isLt _),
    (shard_lt_iff _ _).1, (shard_lt_iff _ _).2, (pool_lt_iff _ _).1, (pool_lt_iff _ _).2]

private theorem inRange_keyHead_iff (t : List Byte) : InRange (keyHead s p lo) (keyHead s p hi) (keyHead s' p' h ++ t) ↔
      s' = s ∧ p' = p ∧ lo.toNat ≤ h.toNat ∧ h.toNat < hi.toNat := by
  have hlo := keyHead_lt_iff s' s p' p h lo t []
  have hhi := keyHead_lt_iff s' s p' p h hi t []
  rw [List.append_nil] at hlo hhi
  have hnil : ¬t < [] := List.not_lt_nil t
  unfold InRange
  rw [hlo, hhi, ← toInt_inj (x := s'), ← toInt_inj (x := p')]
  simp only [hnil, and_false, or_false]
  omega

private theorem not_inRange_of_disjoint (h : s = s' → p = p' → hi.toNat ≤ lo'.toNat ∨ hi'.toNat ≤ lo.toNat)
    (key : List Byte) :
    ¬(InRange (keyHead s p lo) (keyHead s p hi) key ∧ InRange (keyHead s' p' lo') (keyHead s' p' hi') key) := by
  rintro ⟨⟨hlo, hhi⟩, hlo', hhi'⟩
  -- each range would start before the other's end
  have h1 := lt_of_le_of_lt (not_lt.1 hlo) hhi'
  have h2 := lt_of_le_of_lt (not_lt.1 hlo') hhi
  have h1' := keyHead_lt_iff s s' p p' lo hi' [] []
  have h2' := keyHead_lt_iff s' s p' p lo' hi [] []
  rw [List.append_nil, List.append_nil] at h1' h2'
  have h3 := h1'.1 h1
  have h4 := h2'.1 h2
  rw [← toInt_inj, ← toInt_inj (x := p)] at h
  have hnil : ¬([] : List Byte) < [] := List.not_lt_nil []
  simp only [hnil, and_false, or_false] at h3 h4
  omega

end

private theorem objectKey_eq_keyHead (o : Ghobject) :
    ∃ t, objectKey o = keyHead o.shard_id o.hobj.pool o.hobj.bitwiseKeyU32 ++ t :=
  ⟨appendEscaped o.hobj.nspace ++ keyAndName o.hobj ++ keyEncodeU64 o.hobj.snap ++ keyEncodeU64 o.generation ++ [111],
    by simp only [objectKey, keyHead, List.append_assoc]⟩

def Spg.Seed (pgid : Spg) (bits : ℕ) : Prop := bits ≤ 32 ∧ pgid.ps.toNat < 2 ^ bits

instance (pgid : Spg) (bits : ℕ) : Decidable (pgid.Seed bits) := inferInstanceAs (Decidable (_ ∧ _))

section
variable {pgid pgid' : Spg} {bits' : ℕ} {o : Ghobject}

private theorem bitwiseKeyU32_lt_iff : o.hobj.bitwiseKeyU32.toNat < 0xffffffff ↔ o.hobj.hash ≠ 0xffffffff#32 := by
  have hones : o.hobj.bitwiseKeyU32.toNat = 0xffffffff ↔ o.hobj.hash = 0xffffffff#32 := by
    constructor
    · intro heq
      have hrev : reverseBits o.hobj.hash = 0xffffffff#32 := BitVec.eq_of_toNat_eq heq
      rw [← reverseBits_reverseBits o.hobj.hash, hrev]
      decide
    · intro heq
      rw [Hobject.bitwiseKeyU32, heq]
      decide
  rw [ne_eq, ← hones]
  omega

/-- The interval of reversed hashes, with the clamped end: what it loses is one hash. -/
theorem mem_clamped_iff (hseed : pgid.Seed bits) :
    ((reverseBits pgid.ps).toNat ≤ o.hobj.bitwiseKeyU32.toNat ∧
      o.hobj.bitwiseKeyU32.toNat < (endHash (reverseBits pgid.ps) bits).toNat) ↔
      o.hobj.hash.toNat % 2 ^ bits = pgid.ps.toNat ∧ o.hobj.hash ≠ 0xffffffff#32 := by
  have hmem := reverse_mem_interval_iff hseed.1 hseed.2 o.hobj.hash
  rw [toNat_endHash hseed.1, ← hmem, Nat.lt_min, ← bitwiseKeyU32_lt_iff]
  exact and_assoc.symm

/-- The hash of ones belongs to the group with the last seed. -/
theorem ones_mod_iff (hseed : pgid.Seed bits) :
    (0xffffffff#32).toNat % 2 ^ bits = pgid.ps.toNat ↔ pgid.ps.toNat + 1 = 2 ^ bits := by
  have hones : ∀ b < 33, 0xffffffff % 2 ^ b + 1 = 2 ^ b := by decide
  have := hones bits (Nat.lt_succ_of_le hseed.1)
  rw [show (0xffffffff#32).toNat = 0xffffffff from rfl]
  omega

private theorem endHash_le_or (hseed : pgid.Seed bits) (hseed' : pgid'.Seed bits')
    (hdis : ∀ h : BitVec 32, ¬(h.toNat % 2 ^ bits = pgid.ps.toNat ∧ h.toNat % 2 ^ bits' = pgid'.ps.toNat)) :
    (endHash (reverseBits pgid.ps) bits).toNat ≤ (reverseBits pgid'.ps).toNat ∨
      (endHash (reverseBits pgid'.ps) bits').toNat ≤ (reverseBits pgid.ps).toNat := by
  rw [toNat_endHash hseed.1, toNat_endHash hseed'.1]
  by_contra hno
  rw [not_or, not_le, not_le, Nat.lt_min, Nat.lt_min] at hno
  -- otherwise the later of the two seeds is in both intervals
  rcases le_total (reverseBits pgid.ps).toNat (reverseBits pgid'.ps).toNat with hle | hle
  · refine hdis pgid'.ps ⟨(reverse_mem_interval_iff hseed.1 hseed.2 _).1 ⟨hle, hno.1.1⟩, ?_⟩
    exact Nat.mod_eq_of_lt hseed'.2
  · refine hdis pgid.ps ⟨Nat.mod_eq_of_lt hseed.2, ?_⟩
    exact (reverse_mem_interval_iff hseed'.1 hseed'.2 _).1 ⟨hle, hno.2.1⟩

/-- The ranges of a group are exact on all objects but those of hash 0xffffffff in its own shard and pools, if the group
has the last seed: the first range holds the keys of the group's objects in its pool, the second those in its temporary
pool. Groups without common hashes, and groups of other pools or shards, have disjoint ranges. -/
theorem getCollKeyRange_exact (pgid : Spg) (bits : ℕ) (hseed : pgid.Seed bits) :
    (∀ o : Ghobject,
      ((InRange (getCollKeyRange (.pg pgid) bits).start (getCollKeyRange (.pg pgid) bits).stop (objectKey o) ↔
        o.shard_id = pgid.shard ∧ o.hobj.pool = pgid.pool ∧ o.hobj.hash.toNat % 2 ^ bits = pgid.ps.toNat) ∧
      (InRange (getCollKeyRange (.pg pgid) bits).temp_start (getCollKeyRange (.pg pgid) bits).temp_end (objectKey o) ↔
        o.shard_id = pgid.shard ∧ o.hobj.pool = -2#64 - pgid.pool ∧ o.hobj.hash.toNat % 2 ^ bits = pgid.ps.toNat)) ↔
      ¬(o.hobj.hash = 0xffffffff#32 ∧ pgid.ps.toNat + 1 = 2 ^ bits ∧ o.shard_id = pgid.shard ∧
        (o.hobj.pool = pgid.pool ∨ o.hobj.pool = -2#64 - pgid.pool))) ∧
    ∀ (pgid' : Spg) (bits' : ℕ), pgid'.Seed bits' →
      (pgid.shard = pgid'.shard → pgid.pool = pgid'.pool →
        ∀ h : BitVec 32, ¬(h.toNat % 2 ^ bits = pgid.ps.toNat ∧ h.toNat % 2 ^ bits' = pgid'.ps.toNat)) →
      ∀ key, ¬(InRange (getCollKeyRange (.pg pgid) bits).start (getCollKeyRange (.pg pgid) bits).stop key ∧
          InRange (getCollKeyRange (.pg pgid') bits').start (getCollKeyRange (.pg pgid') bits').stop key) ∧
        ¬(InRange (getCollKeyRange (.pg pgid) bits).temp_start (getCollKeyRange (.pg pgid) bits).temp_end key ∧
          InRange (getCollKeyRange (.pg pgid') bits').temp_start (getCollKeyRange (.pg pgid') bits').temp_end key) := by
  refine ⟨fun o => ?_, fun pgid' bits' hseed' hdis key => ⟨?_, ?_⟩⟩
  · obtain ⟨t, ht⟩ := objectKey_eq_keyHead o
    have hrange (p : BitVec 64) : InRange (keyHead pgid.shard p (reverseBits pgid.ps))
          (keyHead pgid.shard p (endHash (reverseBits pgid.ps) bits))
          (keyHead o.shard_id o.hobj.pool o.hobj.bitwiseKeyU32 ++ t) ↔ _ := inRange_keyHead_iff t
    rw [ht]
    change ((InRange (keyHead _ _ _) (keyHead _ _ _) _ ↔ _) ∧ (InRange (keyHead _ _ _) (keyHead _ _ _) _ ↔ _)) ↔ _
    rw [hrange, hrange, mem_clamped_iff hseed, ← ones_mod_iff hseed]
    by_cases hmax : o.hobj.hash = 0xffffffff#32
    · rw [hmax]
      simp only [ne_eq, not_true_eq_false, and_false, false_iff, true_and]
      rw [← not_or, ← and_or_left, ← or_and_right, ← and_rotate]
    · simp [hmax]
  · exact not_inRange_of_disjoint (fun hs hp => endHash_le_or hseed hseed' (hdis hs hp)) key
  · refine not_inRange_of_disjoint (fun hs hp => endHash_le_or hseed hseed' (hdis hs ?_)) key
    exact (BitVec.sub_right_inj _).1 hp

theorem getCollKeyRange_exact_halves : (⟨3#64, 1#32, 0#8⟩ : Spg).Seed 1 ∧ (⟨3#64, 0#32, 0#8⟩ : Spg).Seed 1 ∧
      ∀ key, ¬(InRange (getCollKeyRange (.pg ⟨3#64, 1#32, 0#8⟩) 1).start
            (getCollKeyRange (.pg ⟨3#64, 1#32, 0#8⟩) 1).stop key ∧
          InRange (getCollKeyRange (.pg ⟨3#64, 0#32, 0#8⟩) 1).start
            (getCollKeyRange (.pg ⟨3#64, 0#32, 0#8⟩) 1).stop key) := by
  refine ⟨by decide, by decide, fun key => ?_⟩
  refine ((getCollKeyRange_exact ⟨3#64, 1#32, 0#8⟩ 1 (by decide)).2 ⟨3#64, 0#32, 0#8⟩ 1 (by decide) ?_ key).1
  rintro - - h ⟨h1, h0⟩
  rw [h1] at h0
  exact absurd h0 (by decide)

/-- The object of the group 1 of two whose hash is all ones is in neither range of the group, nor of the other. -/
theorem getCollKeyRange_misses :
    let o : Ghobject := { Ghobject.init with shard_id := 0#8, hobj := ⟨[97], 0#64, 0xffffffff#32, false, 3#64, [], []⟩ }
    o.hobj.hash.toNat % 2 ^ 1 = (1#32).toNat ∧
      ¬InRange (getCollKeyRange (.pg ⟨3#64, 1#32, 0#8⟩) 1).start (getCollKeyRange (.pg ⟨3#64, 1#32, 0#8⟩) 1).stop
        (objectKey o) ∧
      ¬InRange (getCollKeyRange (.pg ⟨3#64, 0#32, 0#8⟩) 1).start (getCollKeyRange (.pg ⟨3#64, 0#32, 0#8⟩) 1).stop
        (objectKey o) := by
  decide +kernel

end
end Lunule.ObjectKey
