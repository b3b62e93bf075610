import Lunule.Lib.LinearHash

/-!
# Placement groups and their splitting

A pool of `pg_num` placement groups maps an object's 32-bit hash to a group by `cephStableMod`, with a mask computed in
one of two ways: `calcPgMasks` for the pool and `(1 << cbits pg_num) - 1` in the methods of `pg_t`. Both are linear
hashing over `pg_num` bins (`stableMod_pgNumMask`, `stableMod_bitsMask`), so the facts about growing such a table carry
over: `getAncestor`, the enumeration of children in `isSplit` and the number of bits in `getSplitBits` all describe the
same partition of the hashes.

Words are `BitVec 32`: comparisons of `int` values are signed, those of `unsigned` values are not, and shifts wrap.
-/

namespace Lunule.Pg
open LinearHash
open BitVec (lt_def toNat_sub toNat_shiftLeft eq_of_toNat_eq le_def)

/-- The number of bits up to the highest one set: `32 - __builtin_clz(v)`, with 0 apart. -/
def cbits (v : BitVec 32) : ℕ := if v = 0#32 then 0 else 32 - v.clz.toNat

def maskOf (bits : ℕ) : BitVec 32 := (1#32 <<< bits) - 1#32

/-- Of `int` arguments: the comparison is signed and the shift arithmetic. -/
def cephStableMod (x b bmask : BitVec 32) : BitVec 32 :=
  if (x &&& bmask).slt b then x &&& bmask else x &&& bmask.sshiftRight 1

structure PgT where
  m_pool : BitVec 64
  m_seed : BitVec 32
  m_preferred : BitVec 32
deriving DecidableEq

def PgT.getAncestor (pg : PgT) (old_pg_num : BitVec 32) : PgT :=
  { pg with m_seed := cephStableMod pg.m_seed old_pg_num (maskOf (cbits old_pg_num)) }

/-- The loop of `is_split`, from the value `n` of its counter on: what it has collected at the `break`, or nothing when
the fuel runs out first. -/
def PgT.isSplitLoop (pg : PgT) (old_pg_num new_pg_num : BitVec 32) :
    ℕ → BitVec 32 → Bool × Finset PgT → Option (Bool × Finset PgT)
  | 0, _, _ => none
  | fuel + 1, n, (split, children) =>
    let next_bit := n <<< (cbits old_pg_num - 1)
    let s := next_bit ||| pg.m_seed
    if s < old_pg_num ∨ s = pg.m_seed then
      pg.isSplitLoop old_pg_num new_pg_num fuel (n + 1#32) (split, children)
    else if s ≥ new_pg_num then
      some (split, children)
    else if cephStableMod s old_pg_num (maskOf (cbits old_pg_num)) = pg.m_seed then
      pg.isSplitLoop old_pg_num new_pg_num fuel (n + 1#32) (true, insert ⟨pg.m_pool, s, pg.m_preferred⟩ children)
    else
      pg.isSplitLoop old_pg_num new_pg_num fuel (n + 1#32) (split, children)

/-- The result and the children that `is_split` puts into an empty set. -/
def PgT.isSplit (pg : PgT) (old_pg_num new_pg_num : BitVec 32) (fuel : ℕ) : Option (Bool × Finset PgT) :=
  if pg.m_seed < old_pg_num then
    if new_pg_num ≤ old_pg_num then some (false, ∅)
    else pg.isSplitLoop old_pg_num new_pg_num fuel 1#32 (false, ∅)
  else none

def PgT.getSplitBits (pg : PgT) (pg_num : BitVec 32) : Option ℕ :=
  if pg_num = 1#32 then some 0
  else if pg_num > 1#32 then
    let p := cbits pg_num
    if p = 0 then none
    else if pg.m_seed % (1#32 <<< (p - 1)) < pg_num % (1#32 <<< (p - 1)) then some p
    else some (p - 1)
  else none

/-- `pg_num_mask` as `pg_pool_t::calc_pg_masks` sets it. -/
def pgNumMask (pg_num : BitVec 32) : BitVec 32 := maskOf (cbits (pg_num - 1#32))

/-- `pg_pool_t::raw_pg_to_pg`, for the pool's current `pg_num`. -/
def rawPgToPg (pg_num : BitVec 32) (pg : PgT) : PgT :=
  { pg with m_seed := cephStableMod pg.m_seed pg_num (pgNumMask pg_num) }

/-!
### The two masks
-/

variable {b x : BitVec 32} {pg : PgT} {k : ℕ}

private theorem cbits_eq (hb : 0 < b.toNat) : cbits b = b.toNat.log2 + 1 := by
  have hne : b ≠ 0#32 := by
    rintro rfl
    exact absurd hb (by decide)
  have hlow := BitVec.two_pow_sub_clz_le_toNat_of_ne_zero (by decide) hne
  have hhigh : b.toNat < 2 ^ (32 - b.clz.toNat) := BitVec.toNat_lt_two_pow_sub_clz
  have hclz : b.clz.toNat < 32 := lt_def.1 (BitVec.clz_lt_iff_ne_zero.2 hne)
  have hlog : b.toNat.log2 = 32 - 1 - b.clz.toNat := by
    rw [Nat.log2_eq_iff hb.ne']
    refine ⟨hlow, ?_⟩
    rw [show 32 - 1 - b.clz.toNat + 1 = 32 - b.clz.toNat by omega]
    exact hhigh
  unfold cbits
  rw [if_neg hne, hlog]
  omega

private theorem toNat_maskOf (hk : k ≤ 31) : (maskOf k).toNat = 2 ^ k - 1 := by
  have hpow : 2 ^ k ≤ 2 ^ 31 := Nat.pow_le_pow_right (by decide) hk
  have hpos := Nat.two_pow_pos k
  unfold maskOf
  rw [toNat_sub, toNat_shiftLeft, Nat.shiftLeft_eq, show (1#32).toNat = 1 from rfl]
  omega

theorem toNat_and_maskOf (hk : k ≤ 31) : (x &&& maskOf k).toNat = x.toNat % 2 ^ k := by
  rw [BitVec.toNat_and, toNat_maskOf hk, Nat.and_two_pow_sub_one_eq_mod]

private theorem maskOf_sshiftRight (hk : k ≤ 31) : (maskOf k).sshiftRight 1 = maskOf (k - 1) := by
  have hpow : 2 ^ k ≤ 2 ^ 31 := Nat.pow_le_pow_right (by decide) hk
  have hmsb : (maskOf k).msb = false := by
    rw [BitVec.msb_eq_false_iff_two_mul_lt, toNat_maskOf hk]
    omega
  apply eq_of_toNat_eq
  rw [BitVec.sshiftRight_eq_of_msb_false hmsb, BitVec.toNat_ushiftRight, toNat_maskOf hk, toNat_maskOf (by omega),
    Nat.shiftRight_eq_div_pow]
  cases k with
  | zero => rfl
  | succ k =>
    rw [pow_succ, Nat.add_sub_cancel]
    omega

private theorem toNat_stableMod (hk : k ≤ 31) (hb : b.toNat < 2 ^ 31) : (cephStableMod x b (maskOf k)).toNat =
      if x.toNat % 2 ^ k < b.toNat then x.toNat % 2 ^ k else x.toNat % 2 ^ (k - 1) := by
  have hpow : 2 ^ k ≤ 2 ^ 31 := Nat.pow_le_pow_right (by decide) hk
  have hslt : (x &&& maskOf k).slt b = decide (x.toNat % 2 ^ k < b.toNat) := by
    rw [BitVec.slt_eq_decide, BitVec.toInt_eq_toNat_of_lt (by rw [toNat_and_maskOf hk]; omega),
      BitVec.toInt_eq_toNat_of_lt (by omega), toNat_and_maskOf hk]
    exact decide_eq_decide.2 Int.ofNat_lt
  unfold cephStableMod
  rw [hslt, maskOf_sshiftRight hk]
  split
  · rename_i h
    rw [toNat_and_maskOf hk, if_pos (of_decide_eq_true h)]
  · rename_i h
    rw [toNat_and_maskOf (by omega), if_neg (of_decide_eq_false (Bool.eq_false_iff.2 h))]

section
variable (hb : 0 < b.toNat)
include hb

theorem log2_lt_of_lt (hb' : b.toNat < 2 ^ 31) : b.toNat.log2 < 31 := (Nat.log2_lt hb.ne').2 hb'

private theorem stableMod_bitsMask (hb' : b.toNat < 2 ^ 31) :
    (cephStableMod x b (maskOf (cbits b))).toNat = bin b.toNat x.toNat := by
  have hlog := log2_lt_of_lt hb hb'
  rw [cbits_eq hb, toNat_stableMod hlog hb']
  rfl

private theorem toNat_sub_one : (b - 1#32).toNat = b.toNat - 1 := by
  rw [toNat_sub, show (1#32).toNat = 1 from rfl]
  omega

/-- The pool's mask has one bit less when `pg_num` is a power of two: then all its hashes stay below `pg_num`. -/
theorem stableMod_pgNumMask (hb' : b.toNat < 2 ^ 31) :
    (cephStableMod x b (pgNumMask b)).toNat = bin b.toNat x.toNat := by
  have hlog := log2_lt_of_lt hb hb'
  have hlow := Nat.log2_self_le hb.ne'
  have hhigh := @Nat.lt_log2_self b.toNat
  have hsub := toNat_sub_one hb
  unfold pgNumMask
  rcases lt_or_eq_of_le hlow with hlt | heq
  · have hlog' : (b - 1#32).toNat.log2 = b.toNat.log2 := by
      rw [hsub, Nat.log2_eq_iff (by omega)]
      omega
    rw [cbits_eq (by omega), hlog', toNat_stableMod hlog hb']
    rfl
  have hbits : cbits (b - 1#32) = b.toNat.log2 := by
    rcases eq_zero_or_pos b.toNat.log2 with h0 | hpos
    · have hone : b - 1#32 = 0#32 := eq_of_toNat_eq (by rw [hsub, ← heq, h0]; rfl)
      rw [hone, h0]
      rfl
    have hpow : 2 ^ b.toNat.log2 = 2 ^ (b.toNat.log2 - 1) * 2 := by
      rw [← pow_succ, Nat.sub_add_cancel hpos]
    have hlog' : (b - 1#32).toNat.log2 = b.toNat.log2 - 1 := by
      rw [hsub, Nat.log2_eq_iff (by omega), Nat.sub_add_cancel hpos]
      omega
    rw [cbits_eq (by omega), hlog']
    omega
  rw [hbits, toNat_stableMod (by omega) hb', if_pos (by omega)]
  unfold bin
  split
  · rename_i hin
    rcases mod_two_pow_succ_cases x.toNat b.toNat.log2 with h | h
    · exact h.symm
    · omega
  · rfl

theorem stableMod_masks (hb' : b.toNat < 2 ^ 31) (x : BitVec 32) :
    cephStableMod x b (maskOf (cbits b)) = cephStableMod x b (pgNumMask b) :=
  eq_of_toNat_eq (by rw [stableMod_bitsMask hb hb', stableMod_pgNumMask hb hb'])

end

theorem getAncestor_rawPgToPg {old new : BitVec 32} (h1 : 0 < old.toNat) (h2 : old.toNat ≤ new.toNat)
    (h3 : new.toNat < 2 ^ 31) (pg : PgT) : (rawPgToPg new pg).getAncestor old = rawPgToPg old pg := by
  have hseed : ((rawPgToPg new pg).getAncestor old).m_seed = (rawPgToPg old pg).m_seed := by
    apply eq_of_toNat_eq
    simp only [PgT.getAncestor, rawPgToPg]
    rw [stableMod_bitsMask h1 (by omega), stableMod_pgNumMask (by omega) h3, stableMod_pgNumMask h1 (by omega),
      bin_bin h1 h2]
  calc (rawPgToPg new pg).getAncestor old
      = { pg with m_seed := ((rawPgToPg new pg).getAncestor old).m_seed } := rfl
    _ = rawPgToPg old pg := by rw [hseed]; rfl

/-!
### The bits of a child
-/

theorem getSplitBits_eq (hb : 0 < b.toNat) (hb' : b.toNat < 2 ^ 31) :
    pg.getSplitBits b = some (width b.toNat pg.m_seed.toNat) := by
  have hlog := log2_lt_of_lt hb hb'
  unfold PgT.getSplitBits
  split
  · rename_i hone
    subst hone
    have hlog1 : Nat.log2 1 = 0 := by decide
    have hw : width 1 pg.m_seed.toNat = 0 := by simp [width, hlog1]
    exact congrArg some hw.symm
  rename_i hne
  have hgt : 1 < b.toNat := by
    have : b.toNat ≠ 1 := fun h => hne (eq_of_toNat_eq h)
    omega
  rw [if_pos (lt_def.2 (show (1#32).toNat < b.toNat from hgt))]
  have hshift : ((1#32) <<< b.toNat.log2).toNat = 2 ^ b.toNat.log2 := by
    rw [toNat_shiftLeft, Nat.shiftLeft_eq]
    have := Nat.pow_le_pow_right (show 0 < 2 by decide) hlog.le
    rw [show (1#32).toNat = 1 from rfl, one_mul]
    exact Nat.mod_eq_of_lt (by omega)
  simp only [cbits_eq hb, lt_def]
  unfold width
  split <;> split <;> simp_all

/-- A hash is in a group exactly if it agrees with the group's seed on the low `getSplitBits` bits. -/
theorem stableMod_eq_iff {bits : ℕ} (hb : 0 < b.toNat) (hb' : b.toNat < 2 ^ 31) (hc : pg.m_seed < b)
    (hbits : pg.getSplitBits b = some bits) :
    cephStableMod x b (pgNumMask b) = pg.m_seed ↔ x.toNat % 2 ^ bits = pg.m_seed.toNat := by
  rw [getSplitBits_eq hb hb'] at hbits
  obtain rfl := Option.some.inj hbits
  rw [← BitVec.toNat_inj, stableMod_pgNumMask hb hb', bin_eq_iff (lt_def.1 hc)]

/-!
### The children

`n` counts through the candidates `n << (old_bits - 1) | m_seed`. What is left to find from `n` on are the children whose
bits above the low `old_bits - 1` are at least `n`.
-/

/-- The groups that split off `pg` when the pool grows from `old` to `new`. -/
def PgT.Child (pg : PgT) (old new : BitVec 32) (c : PgT) : Prop :=
  c.m_pool = pg.m_pool ∧ c.m_preferred = pg.m_preferred ∧ old ≤ c.m_seed ∧ c.m_seed < new ∧
    cephStableMod c.m_seed old (pgNumMask old) = pg.m_seed

instance (pg : PgT) (old new : BitVec 32) (c : PgT) : Decidable (pg.Child old new c) :=
  inferInstanceAs (Decidable (_ ∧ _ ∧ _ ∧ _ ∧ _))

section
variable {old new n : BitVec 32} {c : PgT}

private theorem toNat_candidate (hn : n.toNat <<< k < 2 ^ 32) :
    (n <<< k ||| pg.m_seed).toNat = n.toNat <<< k ||| pg.m_seed.toNat := by
  rw [BitVec.toNat_or, toNat_shiftLeft, Nat.mod_eq_of_lt hn]

private theorem PgT.Child.toNat_seed (h1 : 0 < old.toNat) (h3 : old.toNat < 2 ^ 31) (hc : pg.Child old new c) :
    c.m_seed.toNat = (c.m_seed.toNat >>> old.toNat.log2) <<< old.toNat.log2 ||| pg.m_seed.toNat := by
  obtain ⟨-, -, -, -, hmod⟩ := hc
  rw [← hmod, stableMod_pgNumMask h1 h3]
  exact eq_shiftLeft_or_bin old.toNat c.m_seed.toNat

/-- The children still to be found when the counter is `n`. -/
def PgT.Rest (pg : PgT) (old new : BitVec 32) (n : ℕ) (c : PgT) : Prop :=
  pg.Child old new c ∧ n ≤ c.m_seed.toNat >>> old.toNat.log2

section
variable {s : BitVec 32} (h1 : 0 < old.toNat) (h2 : old.toNat < new.toNat) (h3 : new.toNat < 2 ^ 31)
  (hs : s.toNat = n.toNat <<< old.toNat.log2 ||| pg.m_seed.toNat)

include h1 h2 h3 hs

private theorem PgT.Child.seed_eq (hc : pg.Child old new c) (heq : c.m_seed.toNat >>> old.toNat.log2 = n.toNat) :
    c.m_seed = s := by
  apply eq_of_toNat_eq
  rw [hc.toNat_seed h1 (by omega), heq, hs]

private theorem rest_of_not_child (hno : ∀ c, pg.Child old new c → c.m_seed ≠ s) (c : PgT) :
    pg.Rest old new n.toNat c ↔ pg.Rest old new (n.toNat + 1) c := by
  constructor
  · rintro ⟨hc, hge⟩
    have hne : c.m_seed.toNat >>> old.toNat.log2 ≠ n.toNat := fun h => hno c hc (hc.seed_eq h1 h2 h3 hs h)
    exact ⟨hc, by omega⟩
  · rintro ⟨hc, hge⟩
    exact ⟨hc, by omega⟩

private theorem rest_of_child (hchild : pg.Child old new ⟨pg.m_pool, s, pg.m_preferred⟩) (c : PgT) :
    pg.Rest old new n.toNat c ↔ c = ⟨pg.m_pool, s, pg.m_preferred⟩ ∨ pg.Rest old new (n.toNat + 1) c := by
  constructor
  · rintro ⟨hc, hge⟩
    by_cases heq : c.m_seed.toNat >>> old.toNat.log2 = n.toNat
    · have hseed := hc.seed_eq h1 h2 h3 hs heq
      obtain ⟨hp, hpr, -⟩ := hc
      exact .inl (by cases c; simp_all)
    · exact .inr ⟨hc, by omega⟩
  · rintro (rfl | ⟨hc, hge⟩)
    · refine ⟨hchild, ?_⟩
      rw [Nat.shiftRight_eq_div_pow, Nat.le_div_iff_mul_le (Nat.two_pow_pos _), ← Nat.shiftLeft_eq, hs]
      exact Nat.left_le_or
    · exact ⟨hc, by omega⟩

private theorem not_rest_of_ge (hm : pg.m_seed < old) (hend : new.toNat ≤ s.toNat) (c : PgT) :
    ¬pg.Rest old new n.toNat c := by
  rintro ⟨hc, hge⟩
  have hmono := shiftLeft_or_mono ((lt_def.1 hm).trans Nat.lt_log2_self) hge
  rw [← hs, ← hc.toNat_seed h1 (by omega)] at hmono
  have hlt := lt_def.1 hc.2.2.2.1
  omega

private theorem succ_of_candidate_lt (hlt : s.toNat < new.toNat) :
    (n + 1#32).toNat = n.toNat + 1 ∧ n.toNat < new.toNat ∧ (n.toNat + 1) <<< old.toNat.log2 < 2 ^ 32 := by
  have hle : n.toNat <<< old.toNat.log2 ≤ s.toNat := by
    rw [hs]
    exact Nat.left_le_or
  have hnle : n.toNat ≤ n.toNat <<< old.toNat.log2 := Nat.le_shiftLeft
  have hpow := Nat.log2_self_le h1.ne'
  refine ⟨?_, by omega, ?_⟩
  · rw [BitVec.toNat_add, show (1#32).toNat = 1 from rfl]
    omega
  · rw [Nat.shiftLeft_eq] at hle ⊢
    rw [add_mul]
    omega

end

private theorem isSplitLoop_spec (h1 : 0 < old.toNat) (h2 : old.toNat < new.toNat) (h3 : new.toNat < 2 ^ 31)
    (hm : pg.m_seed < old) (fuel : ℕ) (n : BitVec 32) (split : Bool) (children : Finset PgT)
    (hfuel : new.toNat < n.toNat + fuel) (hn : n.toNat ≤ new.toNat) (hshift : n.toNat <<< old.toNat.log2 < 2 ^ 32)
    (hsplit : split = true ↔ children.Nonempty) :
    ∃ split' children', pg.isSplitLoop old new fuel n (split, children) = some (split', children') ∧
      (split' = true ↔ children'.Nonempty) ∧ ∀ c, c ∈ children' ↔ c ∈ children ∨ pg.Rest old new n.toNat c := by
  induction fuel generalizing n split children with
  | zero => omega
  | succ fuel ih =>
    generalize hs : n <<< (cbits old - 1) ||| pg.m_seed = s
    have hsN : s.toNat = n.toNat <<< old.toNat.log2 ||| pg.m_seed.toNat := by
      rw [← hs, cbits_eq h1, Nat.add_sub_cancel, toNat_candidate hshift]
    have hskip : s.toNat < new.toNat → (∀ c, pg.Child old new c → c.m_seed ≠ s) →
        ∃ split' children', pg.isSplitLoop old new fuel (n + 1#32) (split, children) = some (split', children') ∧
          (split' = true ↔ children'.Nonempty) ∧
          ∀ c, c ∈ children' ↔ c ∈ children ∨ pg.Rest old new n.toNat c := by
      intro hlt hno
      obtain ⟨hn1, hn', hshift1⟩ := succ_of_candidate_lt h1 h2 h3 hsN hlt
      obtain ⟨split', children', hrun, hne, hmem⟩ :=
        ih (n + 1#32) split children (by omega) (by omega) (by rwa [hn1]) hsplit
      refine ⟨split', children', hrun, hne, fun c => ?_⟩
      rw [hmem c, hn1, rest_of_not_child h1 h2 h3 hsN hno]
    simp only [PgT.isSplitLoop, hs]
    split
    · -- below the old groups, or the group itself
      rename_i hsmall
      have hlt : s.toNat < old.toNat := by
        rcases hsmall with h | h
        · exact lt_def.1 h
        · rw [h]
          exact lt_def.1 hm
      refine hskip (by omega) fun c hc heq => ?_
      have hlow := le_def.1 hc.2.2.1
      rw [heq] at hlow
      omega
    · rename_i hbig
      split
      · rename_i hend
        have hend' := le_def.1 hend
        exact ⟨split, children, rfl, hsplit, fun c => (or_iff_left (not_rest_of_ge h1 h2 h3 hsN hm hend' c)).symm⟩
      rename_i hend
      have hlt : s.toNat < new.toNat := by
        rw [ge_iff_le, le_def] at hend
        omega
      rw [stableMod_masks h1 (by omega)]
      split
      · rename_i hmod
        have hchild : pg.Child old new ⟨pg.m_pool, s, pg.m_preferred⟩ := by
          refine ⟨rfl, rfl, ?_, lt_def.2 hlt, hmod⟩
          rw [not_or] at hbig
          exact le_def.2 (by simpa [lt_def] using hbig.1)
        obtain ⟨hn1, hn', hshift1⟩ := succ_of_candidate_lt h1 h2 h3 hsN hlt
        obtain ⟨split', children', hrun, hne, hmem⟩ :=
          ih (n + 1#32) true (insert ⟨pg.m_pool, s, pg.m_preferred⟩ children) (by omega) (by omega)
            (by rwa [hn1]) (by simp)
        refine ⟨split', children', hrun, hne, fun c => ?_⟩
        rw [hmem c, hn1, Finset.mem_insert, rest_of_child h1 h2 h3 hsN hchild, or_assoc, or_left_comm]
      · rename_i hmod
        refine hskip hlt fun c hc heq => hmod ?_
        rw [← heq]
        exact hc.2.2.2.2

/-- `isSplit` terminates, with exactly the children, and says whether there are any. -/
theorem isSplit_spec (h1 : 0 < old.toNat) (h3 : new.toNat < 2 ^ 31) (hm : pg.m_seed < old) :
    ∃ split children, (∀ fuel, new.toNat ≤ fuel → pg.isSplit old new fuel = some (split, children)) ∧
      (split = true ↔ children.Nonempty) ∧ ∀ c, c ∈ children ↔ pg.Child old new c := by
  rcases Nat.lt_or_ge old.toNat new.toNat with hlt | hge
  · have hrun : ∀ fuel, new.toNat ≤ fuel → pg.isSplit old new fuel = pg.isSplitLoop old new fuel 1#32 (false, ∅) := by
      intro fuel _
      unfold PgT.isSplit
      rw [if_pos hm, if_neg (by rw [le_def]; omega)]
    have hone : (1#32).toNat = 1 := rfl
    have hshift : (1#32).toNat <<< old.toNat.log2 < 2 ^ 32 := by
      have := Nat.log2_self_le h1.ne'
      rw [hone, Nat.shiftLeft_eq]
      omega
    have hspec := fun fuel hfuel =>
      isSplitLoop_spec h1 hlt h3 hm fuel 1#32 false ∅ hfuel (by omega) hshift (by simp)
    obtain ⟨split, children, hres, hne, hmem⟩ := hspec new.toNat (by omega)
    refine ⟨split, children, fun fuel hfuel => ?_, hne, fun c => ?_⟩
    · -- the result does not depend on the fuel: both runs hold the same children
      obtain ⟨split', children', hres', hne', hmem'⟩ := hspec fuel (by omega)
      have hch : children' = children := by
        ext c
        rw [hmem c, hmem' c]
      subst hch
      rw [hrun fuel hfuel, hres', Bool.eq_iff_iff.2 (hne'.trans hne.symm)]
    · rw [hmem c]
      constructor
      · rintro (h | ⟨hc, -⟩)
        · simp at h
        · exact hc
      intro hc
      have hold := BitVec.le_def.1 hc.2.2.1
      refine .inr ⟨hc, ?_⟩
      rw [hone, Nat.shiftRight_eq_div_pow, Nat.le_div_iff_mul_le (Nat.two_pow_pos _)]
      have := Nat.log2_self_le h1.ne'
      omega
  · refine ⟨false, ∅, fun fuel _ => ?_, by simp, fun c => ?_⟩
    · unfold PgT.isSplit
      rw [if_pos hm, if_pos (le_def.2 hge)]
    constructor
    · intro h
      simp at h
    · rintro ⟨-, -, hlo, hhi, -⟩
      have := le_def.1 hlo
      have := lt_def.1 hhi
      omega

end
end Lunule.Pg
