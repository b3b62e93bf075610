import Lunule.ObjectKey.Basic

/-!
# Keys and the order of objects

Keys are compared field by field, since every field's code sorts by itself: shard and pool because the flipped sign bit
turns signed into unsigned order, strings because the codes of bytes sort by rank (`Byte.rank`) and the terminator is below all of them.

Two things go wrong. A byte of 0x80 and above is negative as a `char`, so it is escaped with `#` and sorts
before the bytes from 0x24 to 0x7f. And the character between key and name is `>` if the *key* is the larger, so among the
objects of one effective key those with a smaller name come last, although in object order they come first. Apart from
these, keys sort like objects (`objectKey_lt_iff_before`).
-/

namespace Lunule.ObjectKey
open OrderedCode List Ghobject
open BitVec (slt_iff_toInt_lt lt_def isLt toInt_inj)

/-- The place of a byte's code among the codes: the bytes from 0x24 to 0x7f come after all others. -/
def Byte.rank (c : Byte) : ℕ := if 36 ≤ c.val ∧ c.val < 128 then c.val + 256 else c.val

private theorem rank_injective : Function.Injective Byte.rank := by
  intro a b h
  unfold Byte.rank at h
  ext
  split_ifs at h <;> omega

/-- Of the first bytes in which the strings differ, one is 0x80 or above and the other is from 0x24 to 0x7f. -/
def crosses : List Byte → List Byte → Bool
  | a :: s, b :: t =>
    if a = b then crosses s t
    else (128 ≤ a.val ∧ 36 ≤ b.val ∧ b.val < 128) ∨ (128 ≤ b.val ∧ 36 ≤ a.val ∧ a.val < 128)
  | _, _ => false

private theorem map_rank_lt_iff {s t : List Byte} :
    (s.map Byte.rank < t.map Byte.rank ↔ s < t) ↔ crosses s t = false := by
  induction s generalizing t with
  | nil => cases t <;> simp [crosses]
  | cons a s ih =>
    cases t with
    | nil => simp [crosses]
    | cons b t =>
      rw [map_cons, map_cons, cons_lt_cons_iff, cons_lt_cons_iff, crosses]
      by_cases h : a = b
      · simpa [h] using ih
      · have hval := Fin.val_ne_of_ne h
        simp only [h, rank_injective.eq_iff, false_and, or_false, if_false, decide_eq_false_iff_not, Fin.lt_def]
        unfold Byte.rank
        split_ifs <;> omega

private theorem hexDigit_lt {m n : ℕ} (hn : n < 16) (h : m < n) : hexDigit m < hexDigit n := by
  have hall : ∀ n : Fin 16, ∀ m : Fin n, hexDigit m < hexDigit n := by decide
  exact hall ⟨n, hn⟩ ⟨m, h⟩

private theorem hexDigits_lt {a b : Byte} (h : a < b) (s t : List Byte) :
    hexDigit (a.val / 16) :: hexDigit (a.val % 16) :: s < hexDigit (b.val / 16) :: hexDigit (b.val % 16) :: t := by
  have hab : a.val < b.val := h
  rw [cons_lt_cons_iff, cons_lt_cons_iff]
  rcases Nat.lt_or_eq_of_le (Nat.div_le_div_right (c := 16) hab.le) with hlt | heq
  · exact .inl (hexDigit_lt (by omega) hlt)
  · exact .inr ⟨by rw [heq], .inl (hexDigit_lt (by omega) (by omega))⟩

private theorem sorts_escapeByte : Sorts (fun _ => True) Byte.rank escapeByte := by
  intro a b _ _ h s t
  unfold Byte.rank at h
  unfold escapeByte schar
  -- three ranges of codes, each with its own first letter or letters
  split_ifs at h ⊢ <;> first
    | omega
    | exact cons_lt_cons_iff.2 (.inr ⟨rfl, hexDigits_lt (Fin.lt_def.2 (by omega)) s t⟩)
    | exact cons_lt_cons_iff.2 (.inl (Fin.lt_def.2 (by omega)))

private theorem escapeByte_head (c : Byte) : ∃ x l, escapeByte c = x :: l ∧ 33 < x := by
  unfold escapeByte
  split
  · exact ⟨_, _, rfl, by decide⟩
  split
  · exact ⟨_, _, rfl, by decide⟩
  rename_i h _
  refine ⟨_, _, rfl, Fin.lt_def.2 ?_⟩
  unfold schar at h
  split at h <;> omega

private theorem appendEscaped_lt_iff (s t u v : List Byte) : appendEscaped s ++ u < appendEscaped t ++ v ↔
      s.map Byte.rank < t.map Byte.rank ∨ s = t ∧ u < v :=
  (sorts_terminated sorts_escapeByte rank_injective escapeByte_head).append_lt_iff (map_injective_iff.2 rank_injective)
    (fun _ _ => trivial) (fun _ _ => trivial) u v

/-!
### The fields of a key
-/

private theorem toNat_add_intMin {w : ℕ} (hw : 0 < w) (x : BitVec w) :
    ((x + BitVec.intMin w).toNat : ℤ) = x.toInt + 2 ^ (w - 1) := by
  have hpow : 2 ^ w = 2 * 2 ^ (w - 1) := by
    rw [← pow_succ', Nat.sub_add_cancel hw]
  rw [BitVec.toNat_add, BitVec.toNat_intMin, BitVec.toInt_eq_toNat_cond]
  have hmod : 2 ^ (w - 1) % 2 ^ w = 2 ^ (w - 1) := Nat.mod_eq_of_lt (by have := Nat.two_pow_pos (w - 1); omega)
  rw [hmod]
  split
  · rw [Nat.mod_eq_of_lt (by omega)]
    push_cast
    ring
  rw [Nat.mod_eq_sub_mod (by omega), Nat.mod_eq_of_lt (by omega)]
  push_cast [Nat.cast_sub (show 2 ^ w ≤ x.toNat + 2 ^ (w - 1) by omega)]
  have hpow' : (2 : ℤ) ^ w = 2 * 2 ^ (w - 1) := by exact_mod_cast hpow
  rw [hpow']
  ring

private theorem toNat_shard (s : BitVec 8) :
    ((s + 0x80#8).toNat : ℤ) = s.toInt + 128 := toNat_add_intMin (w := 8) (by decide) s

private theorem toNat_pool (p : BitVec 64) : ((p + 0x8000000000000000#64).toNat : ℤ) = p.toInt + 2 ^ 63 :=
  toNat_add_intMin (w := 64) (by decide) p

private theorem keyAndName_eq (o : Hobject) : keyAndName o = appendEscaped o.effectiveKey ++
      if o.effectiveKey = o.name then [61]
      else (if o.effectiveKey > o.name then 62 else 60) :: appendEscaped o.name := by
  unfold keyAndName Hobject.effectiveKey
  split
  · by_cases h : o.key = o.name <;> simp
  · simp

/-- The names are on the same side of their effective keys: both equal to them, both before or both after. -/
def SameSide (a b : Hobject) : Prop :=
  (a.effectiveKey = a.name ↔ b.effectiveKey = b.name) ∧ (a.effectiveKey > a.name ↔ b.effectiveKey > b.name)

instance (a b : Hobject) : Decidable (SameSide a b) := inferInstanceAs (Decidable (_ ∧ _))

variable {a b : Hobject}

/-- Two comparisons by a field and then by the rest agree just if they do on the field and, where it is equal, on the rest. -/
theorem agree_iff {p p' q x y : Prop} (hp : p → ¬q) (hp' : p' → ¬q) :
    ((p ∨ q ∧ x) ↔ (p' ∨ q ∧ y)) ↔ (p ↔ p') ∧ (q → (x ↔ y)) := by
  by_cases hq : q <;> simp_all

private theorem agree_of_lt {α : Type} [LinearOrder α] {v w : α} {x y : Prop} :
    ((v < w ∨ v = w ∧ x) ↔ (v < w ∨ v = w ∧ y)) ↔ (v = w → (x ↔ y)) := by
  rw [agree_iff ne_of_lt ne_of_lt, iff_self, true_and]

private theorem appendEscaped_agree {s t u v : List Byte} {y : Prop} :
    (appendEscaped s ++ u < appendEscaped t ++ v ↔ s < t ∨ s = t ∧ y) ↔ crosses s t = false ∧ (s = t → (u < v ↔ y)) := by
  rw [appendEscaped_lt_iff, agree_iff (fun h heq => h.ne (heq ▸ rfl)) ne_of_lt, map_rank_lt_iff]

private theorem crosses_self (s : List Byte) : crosses s s = false := map_rank_lt_iff.1 (by simp)

private theorem marked_agree (k m n s t : List Byte) :
    ((if k = m then [61] else (if k > m then 62 else 60) :: appendEscaped m) ++ s <
      (if k = n then [61] else (if k > n then 62 else 60) :: appendEscaped n) ++ t ↔ m < n ∨ m = n ∧ s < t) ↔
      ((k = m ↔ k = n) ∧ (k > m ↔ k > n)) ∧ crosses m n = false := by
  -- on different sides the marks say the opposite of the names
  rcases lt_trichotomy m k with hm | rfl | hm
  · rcases lt_trichotomy n k with hn | rfl | hn
    · simp [hm, hn, hm.ne', hn.ne', appendEscaped_agree]
    · simp [hm, hm.ne', cons_lt_cons_iff]
    · simp [hm, hn.not_gt, hm.ne', hn.ne, hm.trans hn, cons_lt_cons_iff]
  · rcases lt_trichotomy n m with hn | rfl | hn
    · simp [hn, hn.ne', hn.not_gt, cons_lt_cons_iff]
    · simp [crosses_self]
    · simp [hn, hn.ne, hn.not_gt, cons_lt_cons_iff]
  · rcases lt_trichotomy n k with hn | rfl | hn
    · simp [hn, hm.not_gt, hm.ne, hn.ne', (hn.trans hm).not_gt, (hn.trans hm).ne', cons_lt_cons_iff]
    · simp [hm.ne, hm.ne', hm.not_gt, cons_lt_cons_iff]
    · simp [hm.not_gt, hn.not_gt, hm.ne, hn.ne, appendEscaped_agree]

private theorem keyAndName_agree (s t : List Byte) : (keyAndName a ++ s < keyAndName b ++ t ↔
      a.effectiveKey < b.effectiveKey ∨
        a.effectiveKey = b.effectiveKey ∧ (a.name < b.name ∨ a.name = b.name ∧ s < t)) ↔
      crosses a.effectiveKey b.effectiveKey = false ∧
        (a.effectiveKey = b.effectiveKey → SameSide a b ∧ crosses a.name b.name = false) := by
  rw [keyAndName_eq, keyAndName_eq, append_assoc, append_assoc, appendEscaped_agree]
  refine and_congr_right fun _ => imp_congr_right fun hkey => ?_
  unfold SameSide
  rw [hkey]
  exact marked_agree ..

/-- The fields of an `hobject_t` in the order in which they are compared, and what decides if all are equal. -/
def Hobject.FieldsBefore (a b : Hobject) (rest : Prop) : Prop :=
  a.pool.toInt < b.pool.toInt ∨ a.pool.toInt = b.pool.toInt ∧
    (a.bitwiseKeyU32.toNat < b.bitwiseKeyU32.toNat ∨ a.bitwiseKeyU32.toNat = b.bitwiseKeyU32.toNat ∧
      (a.nspace < b.nspace ∨ a.nspace = b.nspace ∧
        (a.effectiveKey < b.effectiveKey ∨ a.effectiveKey = b.effectiveKey ∧
          (a.name < b.name ∨ a.name = b.name ∧ (a.snap.toNat < b.snap.toNat ∨ a.snap.toNat = b.snap.toNat ∧ rest)))))

def Ghobject.FieldsBefore (a b : Ghobject) : Prop :=
  a.shard_id.toInt < b.shard_id.toInt ∨ a.shard_id.toInt = b.shard_id.toInt ∧
    a.hobj.FieldsBefore b.hobj (a.generation.toNat < b.generation.toNat)

section
variable {α : Type} [LinearOrder α] {a b : α} [Decidable (a < b)] [Decidable (b < a)] {c : ℤ}

private theorem cmp_step_neg : (if a < b then -1 else if b < a then 1 else c) < 0 ↔ a < b ∨ a = b ∧ c < 0 := by
  rcases lt_trichotomy a b with h | h | h
  · simp [h]
  · simp [h]
  · simp [h, h.not_gt, h.ne']

private theorem cmp_step_eq : (if a < b then -1 else if b < a then 1 else c) = 0 ↔ a = b ∧ c = 0 := by
  rcases lt_trichotomy a b with h | h | h
  · simp [h, h.ne]
  · simp [h]
  · simp [h, h.not_gt, h.ne']

end

private theorem cmp_neg_iff (ha : a.max = false) (hb : b.max = false) : a.cmp b < 0 ↔ a.FieldsBefore b False := by
  unfold Hobject.cmp Hobject.FieldsBefore
  simp only [ha, hb, lt_irrefl, if_false, slt_iff_toInt_lt, lt_def, Hobject.bitwiseKey]
  rw [cmp_step_neg, cmp_step_neg, cmp_step_neg, cmp_step_neg, cmp_step_neg, cmp_step_neg]
  simp

private theorem fieldsBefore_iff (ha : a.max = false) (hb : b.max = false) (rest : Prop) :
    a.FieldsBefore b rest ↔ a.FieldsBefore b False ∨ a.cmp b = 0 ∧ rest := by
  have hstep : ∀ {p q x y e : Prop}, (x ↔ y ∨ e ∧ rest) → ((p ∨ q ∧ x) ↔ (p ∨ q ∧ y) ∨ (q ∧ e) ∧ rest) := by
    intro p q x y e h
    rw [h]
    tauto
  have hlast : rest ↔ False ∨ True ∧ rest := by simp
  have hzero : a.cmp b = 0 ↔
      a.pool.toInt = b.pool.toInt ∧ a.bitwiseKeyU32.toNat = b.bitwiseKeyU32.toNat ∧ a.nspace = b.nspace ∧
        a.effectiveKey = b.effectiveKey ∧ a.name = b.name ∧ a.snap.toNat = b.snap.toNat ∧ True := by
    unfold Hobject.cmp
    simp only [ha, hb, lt_irrefl, if_false, slt_iff_toInt_lt, lt_def, Hobject.bitwiseKey]
    rw [cmp_step_eq, cmp_step_eq, cmp_step_eq, cmp_step_eq, cmp_step_eq, cmp_step_eq]
    simp
  rw [hzero]
  exact hstep (hstep (hstep (hstep (hstep (hstep hlast)))))

private theorem before_iff_fields {a b : Ghobject} (ha : a.max = false ∧ a.hobj.max = false)
    (hb : b.max = false ∧ b.hobj.max = false) : a.Before b ↔ a.FieldsBefore b := by
  unfold Ghobject.Before Ghobject.cmp Ghobject.FieldsBefore
  simp only [ha.1, hb.1, lt_irrefl, if_false, slt_iff_toInt_lt, lt_def]
  rw [cmp_step_neg, fieldsBefore_iff ha.2 hb.2, ← cmp_neg_iff ha.2 hb.2]
  refine or_congr_right (and_congr_right fun _ => ?_)
  by_cases hzero : a.hobj.cmp b.hobj = 0
  · rw [if_neg (not_not.2 hzero), cmp_step_neg, hzero]
    simp
  · rw [if_pos hzero]
    simp [hzero]

/-!
### Keys
-/

/-- Where objects of one shard, pool and hash differ first, in a string, no byte of 0x80 or above meets one from 0x24 to
0x7f; and objects of one effective key have their names on the same side of it. -/
def Ghobject.InStep (a b : Ghobject) : Prop :=
  a.shard_id = b.shard_id → a.hobj.pool = b.hobj.pool → a.hobj.hash = b.hobj.hash →
    crosses a.hobj.nspace b.hobj.nspace = false ∧ (a.hobj.nspace = b.hobj.nspace →
      crosses a.hobj.effectiveKey b.hobj.effectiveKey = false ∧ (a.hobj.effectiveKey = b.hobj.effectiveKey →
        SameSide a.hobj b.hobj ∧ crosses a.hobj.name b.hobj.name = false))

instance (a b : Ghobject) : Decidable (a.InStep b) := inferInstanceAs (Decidable (_ → _))

theorem number_lt_iff (n : ℕ) {v w : ℕ} (hv : v < 256 ^ n) (hw : w < 256 ^ n) (s t : List Byte) :
    bigEndian n v ++ s < bigEndian n w ++ t ↔ v < w ∨ v = w ∧ s < t :=
  (sorts_bigEndian n).append_lt_iff Function.injective_id hv hw s t

private theorem bitwiseKeyU32_inj : a.bitwiseKeyU32.toNat = b.bitwiseKeyU32.toNat ↔ a.hash = b.hash := by
  refine ⟨fun h => ?_, fun h => by rw [Hobject.bitwiseKeyU32, h, Hobject.bitwiseKeyU32]⟩
  have hrev : reverseBits a.hash = reverseBits b.hash := BitVec.eq_of_toNat_eq h
  rw [← reverseBits_reverseBits a.hash, hrev, reverseBits_reverseBits]

theorem shard_lt_iff (s s' : BitVec 8) : ((s + 0x80#8).toNat < (s' + 0x80#8).toNat ↔ s.toInt < s'.toInt) ∧
      ((s + 0x80#8).toNat = (s' + 0x80#8).toNat ↔ s.toInt = s'.toInt) := by
  have h := toNat_shard s
  have h' := toNat_shard s'
  omega

theorem pool_lt_iff (p p' : BitVec 64) :
    ((p + 0x8000000000000000#64).toNat < (p' + 0x8000000000000000#64).toNat ↔ p.toInt < p'.toInt) ∧
      ((p + 0x8000000000000000#64).toNat = (p' + 0x8000000000000000#64).toNat ↔ p.toInt = p'.toInt) := by
  have h := toNat_pool p
  have h' := toNat_pool p'
  omega

/-- The keys of two objects sort like the objects just if these are in step. -/
theorem objectKey_lt_iff_before (a b : Ghobject) (ha : a.max = false ∧ a.hobj.max = false)
    (hb : b.max = false ∧ b.hobj.max = false) : (objectKey a < objectKey b ↔ a.Before b) ↔ a.InStep b := by
  rw [before_iff_fields ha hb]
  unfold objectKey Ghobject.FieldsBefore Hobject.FieldsBefore Ghobject.InStep keyEncodeShard keyEncodeU64 keyEncodeU32
  simp only [append_assoc]
  rw [number_lt_iff 1 (isLt _) (isLt _), (shard_lt_iff _ _).1, (shard_lt_iff _ _).2, agree_of_lt, toInt_inj]
  refine imp_congr_right fun _ => ?_
  rw [number_lt_iff 8 (isLt _) (isLt _), (pool_lt_iff _ _).1, (pool_lt_iff _ _).2, agree_of_lt, toInt_inj]
  refine imp_congr_right fun _ => ?_
  rw [number_lt_iff 4 (isLt _) (isLt _), agree_of_lt, bitwiseKeyU32_inj]
  refine imp_congr_right fun _ => ?_
  rw [appendEscaped_agree]
  refine and_congr_right fun _ => imp_congr_right fun _ => ?_
  rw [← keyAndName_agree (bigEndian 8 a.hobj.snap.toNat ++ (bigEndian 8 a.generation.toNat ++ [111]))
      (bigEndian 8 b.hobj.snap.toNat ++ (bigEndian 8 b.generation.toNat ++ [111])),
    number_lt_iff 8 (isLt a.hobj.snap) (isLt _), number_lt_iff 8 (isLt a.generation) (isLt _)]
  simp

theorem objectKey_lt_iff_before_sample : (named [107] [97]).InStep (named [107] [98]) ∧
      (objectKey (.named [107] [97]) < objectKey (.named [107] [98]) ↔ (named [107] [97]).Before (.named [107] [98])) :=
  ⟨by decide +kernel, (objectKey_lt_iff_before _ _ (by decide) (by decide)).mpr (by decide +kernel)⟩

/-- The object named by the byte 0x80 comes after `a`, and its key before that of `a`; the object `a` under the key `b`
comes before the object `b`, and its key after that of `b`. -/
theorem objectKey_out_of_order :
    ((named [] [97]).Before (.named [] [128]) ∧ objectKey (.named [] [128]) < objectKey (.named [] [97])) ∧
      (named [98] [97]).Before (.named [] [98]) ∧ (named [98] [97]).hobj.Normalised ∧
      objectKey (.named [] [98]) < objectKey (.named [98] [97]) := by
  decide +kernel

end Lunule.ObjectKey
