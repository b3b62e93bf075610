import Lunule.Freelist.Basic

/-!
# The enumeration gives the free space

`bit` reads the bit of a block, whether its key is stored or not, and `xor_spec` says that `xor` flips the bits of its range
and no others; so after any run the bits are those of the allocated blocks and of the blocks past the end.

The enumeration is followed by the number of the block its cursor is at (`At`). `skipSet` goes over set bits to a clear one,
which is in a key, between two keys or behind the last; `skipClear` goes on to the next set bit. One call takes the cursor
from block `a` to the end of the first free extent at or after `a`, and the calls add up by induction on what is left of the
device. All this is for devices that end a whole key below `2 ^ 64`: behind the last key of a larger one the cursor's
offset wraps around to 0.
-/

namespace Lunule.Freelist
open Exec List Option Config
open Finset (mem_union mem_Ico mem_sdiff)
variable {c : Config} {s : Store} {κ b : ℕ} {v bl : Bits}

theorem Config.block_pos (c : Config) : 0 < c.bytes_per_block := by
  obtain ⟨p, hp⟩ := c.block_pow
  rw [hp]
  exact Nat.two_pow_pos p

theorem Config.key_pos (c : Config) : 0 < c.blocks_per_key := by
  obtain ⟨q, hq⟩ := c.key_pow
  rw [hq]
  exact Nat.two_pow_pos _

private theorem Config.bytes_pos (c : Config) : 0 < c.bytes_per_key := Nat.mul_pos c.block_pos c.key_pos

private theorem Config.size_eq (c : Config) : c.units * c.bytes_per_block = c.size := Nat.div_mul_cancel c.aligned

private theorem Config.size_pos (c : Config) {b : ℕ} (h : b < c.units) : 0 < c.size := by
  rw [← c.size_eq]
  exact mul_pos (by omega) c.block_pos

/-! ## The bits of the store -/

def valueAt (k : ℕ) : Store → Bits
  | [] => []
  | (k', v) :: s => if k' = k then v else valueAt k s

variable (c) in
def bit (s : Store) (b : ℕ) : Bool :=
  (valueAt (b / c.blocks_per_key * c.bytes_per_key) s).getD (b % c.blocks_per_key) false

variable (c) in
structure Formed (s : Store) : Prop where
  sorted : s.Pairwise (·.1 < ·.1)
  keys : ∀ e ∈ s, e.2.length = c.blocks_per_key ∧ ∃ κ, e.1 = κ * c.bytes_per_key ∧ κ * c.blocks_per_key < c.units

private theorem valueAt_of_ne {k : ℕ} (h : ∀ e ∈ s, e.1 ≠ k) : valueAt k s = [] := by
  induction s with
  | nil => rfl
  | cons e s ih =>
    rw [forall_mem_cons] at h
    rw [valueAt, if_neg h.1, ih h.2]

private theorem valueAt_of_mem (hs : s.Pairwise (·.1 < ·.1)) {k : ℕ} (h : (k, v) ∈ s) : valueAt k s = v := by
  induction s with
  | nil => cases h
  | cons e s ih =>
    obtain ⟨hlt, hs⟩ := pairwise_cons.1 hs
    obtain rfl | h := mem_cons.1 h
    · rw [valueAt, if_pos rfl]
    · rw [valueAt, if_neg (hlt (k, v) h).ne, ih hs h]

private theorem getD_xor {v v' : Bits} (h : v'.length = v.length) (i : ℕ) :
    (zipWith Bool.xor v' v).getD i false = (v'.getD i false ^^ v.getD i false) := by
  induction v' generalizing v i with
  | nil =>
    obtain rfl : v = [] := length_eq_zero_iff.1 h.symm
    rfl
  | cons x v' ih =>
    obtain _ | ⟨y, v⟩ := v
    · cases h
    · cases i with
      | zero => rfl
      | succ i => simpa using ih (by simpa using h) i

private theorem getD_merge (hs : s.Pairwise (·.1 < ·.1)) (hlen : ∀ e ∈ s, e.2.length = v.length) (k k' i : ℕ) :
    (valueAt k' (merge k v s)).getD i false = ((valueAt k' s).getD i false ^^ (decide (k = k') && v.getD i false)) := by
  induction s with
  | nil => by_cases h : k = k' <;> simp [merge, valueAt, h]
  | cons e s ih =>
    obtain ⟨hlt, hs'⟩ := pairwise_cons.1 hs
    rw [forall_mem_cons] at hlen
    obtain ⟨k0, v0⟩ := e
    unfold merge
    split_ifs with hk hk
    · by_cases h : k = k'
      · have hnone : valueAt k' ((k0, v0) :: s) = [] := by
          refine valueAt_of_ne fun e he => ?_
          obtain rfl | he := mem_cons.1 he
          · simp only
            omega
          · have := hlt e he
            omega
        rw [hnone]
        simp [valueAt, h]
      · simp [valueAt, h]
    · subst hk
      by_cases h : k = k'
      · simpa [valueAt, h] using getD_xor hlen.1 i
      · simp [valueAt, h]
    · by_cases h : k0 = k'
      · have hne : k ≠ k' := by omega
        simp [valueAt, h, hne]
      · simpa [valueAt, h] using ih hs' hlen.2

private theorem mem_merge {k : ℕ} {e : ℕ × Bits} (h : e ∈ merge k v s) :
    e ∈ s ∨ (e.1 = k ∧ (e.2 = v ∨ ∃ v', (k, v') ∈ s ∧ e.2 = zipWith Bool.xor v' v)) := by
  induction s with
  | nil =>
    obtain rfl := mem_singleton.1 h
    exact .inr ⟨rfl, .inl rfl⟩
  | cons e0 s ih =>
    obtain ⟨k0, v0⟩ := e0
    unfold merge at h
    split_ifs at h with h1 h2
    · obtain rfl | h := mem_cons.1 h
      · exact .inr ⟨rfl, .inl rfl⟩
      · exact .inl h
    · obtain rfl | h := mem_cons.1 h
      · exact .inr ⟨rfl, .inr ⟨v0, by simp [h2], rfl⟩⟩
      · exact .inl (mem_cons_of_mem _ h)
    obtain rfl | h := mem_cons.1 h
    · exact .inl mem_cons_self
    · refine (ih h).imp (mem_cons_of_mem _) fun h => h.imp_right fun h => h.imp_right ?_
      rintro ⟨v', hv', heq⟩
      exact ⟨v', mem_cons_of_mem _ hv', heq⟩

private theorem sorted_merge (hs : s.Pairwise (·.1 < ·.1)) (k : ℕ) (v : Bits) : (merge k v s).Pairwise (·.1 < ·.1) := by
  induction s with
  | nil => simp [merge]
  | cons e s ih =>
    obtain ⟨hlt, hs'⟩ := pairwise_cons.1 hs
    unfold merge
    split_ifs with h1 h2
    · refine pairwise_cons.2 ⟨fun e he => ?_, hs⟩
      obtain rfl | he := mem_cons.1 he
      · exact h1
      · exact h1.trans (hlt e he)
    · exact pairwise_cons.2 ⟨fun e he => h2 ▸ hlt e he, hs'⟩
    refine pairwise_cons.2 ⟨fun e he => ?_, ih hs'⟩
    obtain he | ⟨he, -⟩ := mem_merge he
    · exact hlt e he
    · rw [he]
      omega

private theorem Formed.merge (h : Formed c s) (hv : v.length = c.blocks_per_key) (hκ : κ * c.blocks_per_key < c.units) :
    Formed c (merge (κ * c.bytes_per_key) v s) ∧ ∀ b, bit c (merge (κ * c.bytes_per_key) v s) b =
      (bit c s b ^^ (decide (κ = b / c.blocks_per_key) && v.getD (b % c.blocks_per_key) false)) := by
  refine ⟨⟨sorted_merge h.sorted _ _, fun e he => ?_⟩, fun b => ?_⟩
  · obtain he | ⟨he, hv'⟩ := mem_merge he
    · exact h.keys e he
    · refine ⟨?_, κ, he, hκ⟩
      obtain hv' | ⟨v', hmem, hv'⟩ := hv'
      · rw [hv', hv]
      · rw [hv', length_zipWith, hv, (h.keys _ hmem).1, min_self]
  · unfold bit
    rw [getD_merge h.sorted (fun e he => (h.keys e he).1.trans hv.symm)]
    congr 3
    exact propext (Nat.mul_left_inj c.bytes_pos.ne')

private theorem length_mask (i j : ℕ) : (c.mask i j).length = c.blocks_per_key := by
  unfold mask
  rw [length_map, length_range]

private theorem getD_mask (i j b : ℕ) : (c.mask i j).getD (b % c.blocks_per_key) false =
    decide (i ≤ b % c.blocks_per_key ∧ b % c.blocks_per_key < j) := by
  have hlt := Nat.mod_lt b c.key_pos
  simp [mask, getElem?_range hlt]

/-! ## Flipping a range -/

variable (c) in
private theorem block_le_iff (a b : ℕ) : a ≤ b ↔ a / c.blocks_per_key < b / c.blocks_per_key ∨
    (a / c.blocks_per_key = b / c.blocks_per_key ∧ a % c.blocks_per_key ≤ b % c.blocks_per_key) := by
  have ha := Nat.div_add_mod a c.blocks_per_key
  have hb := Nat.div_add_mod b c.blocks_per_key
  obtain hlt | heq | hlt := lt_trichotomy (a / c.blocks_per_key) (b / c.blocks_per_key)
  · have := Nat.lt_of_div_lt_div hlt
    omega
  · rw [heq] at ha
    omega
  · have := Nat.lt_of_div_lt_div hlt
    omega

private theorem decide_xor {P Q : Prop} [Decidable P] [Decidable Q] (h : P → ¬ Q) :
    (decide P ^^ decide Q) = decide (P ∨ Q) := by
  by_cases hP : P
  · simp [h hP]
  · simp [hP]

private theorem middle_spec (h : Formed c s) (first m : ℕ) (hm : ∀ k, k < first + m → k * c.blocks_per_key < c.units) :
    Formed c ((range' first m).foldl (fun s k => merge (k * c.bytes_per_key) (c.mask 0 c.blocks_per_key) s) s) ∧
      ∀ b, bit c ((range' first m).foldl (fun s k => merge (k * c.bytes_per_key) (c.mask 0 c.blocks_per_key) s) s) b =
        (bit c s b ^^ decide (first ≤ b / c.blocks_per_key ∧ b / c.blocks_per_key < first + m)) := by
  induction m generalizing first s with
  | zero =>
    refine ⟨h, fun b => ?_⟩
    have hfalse : ¬ (first ≤ b / c.blocks_per_key ∧ b / c.blocks_per_key < first + 0) := by omega
    rw [decide_eq_false hfalse, Bool.xor_false]
    rfl
  | succ m ih =>
    obtain ⟨hform, hbit⟩ := h.merge (length_mask 0 c.blocks_per_key) (hm first (by omega))
    rw [range'_succ, foldl_cons]
    obtain ⟨hform', hbit'⟩ := ih hform (first + 1) fun k _ => hm k (by omega)
    refine ⟨hform', fun b => ?_⟩
    have hlt := Nat.mod_lt b c.key_pos
    rw [hbit', hbit, getD_mask, Bool.xor_assoc]
    congr 1
    rw [← Bool.decide_and, decide_xor (by omega)]
    refine decide_eq_decide.2 ?_
    omega

theorem Config.last_block (c : Config) (a : ℕ) {n : ℕ} (hn : 0 < n) :
    (a * c.bytes_per_block + n * c.bytes_per_block - 1) / c.bytes_per_block = a + n - 1 := by
  have hp := c.block_pos
  rw [← add_mul, Nat.div_eq_iff hp]
  have : (a + n - 1) * c.bytes_per_block + c.bytes_per_block = (a + n) * c.bytes_per_block := by
    rw [← Nat.succ_mul]
    congr 1
    omega
  omega

private theorem xor_spec (h : Formed c s) {a n : ℕ} (hn : 0 < n)
    (hkeys : ∀ k, k ≤ (a + n - 1) / c.blocks_per_key → k * c.blocks_per_key < c.units) :
    ∃ s', xor c (a * c.bytes_per_block) (n * c.bytes_per_block) s = some s' ∧ Formed c s' ∧
      ∀ b, bit c s' b = (bit c s b ^^ decide (a ≤ b ∧ b < a + n)) := by
  -- the first and the last block of the range, and the key and the bit of each
  have hp := c.block_pos
  have hfirst : a * c.bytes_per_block / c.bytes_per_block = a := Nat.mul_div_cancel _ hp
  have hlast := c.last_block a hn
  have hmem (b : ℕ) := block_le_iff c a b
  have hmem' (b : ℕ) := block_le_iff c b (a + n - 1)
  have hlt (b : ℕ) := Nat.mod_lt b c.key_pos
  have hle : a / c.blocks_per_key ≤ (a + n - 1) / c.blocks_per_key := Nat.div_le_div_right (by omega)
  unfold xor bytes_per_key
  simp only [Nat.mul_mod_left, and_self, ↓reduceIte, ← Nat.div_div_eq_div_mul, Nat.mod_mul_right_div_self, hfirst, hlast]
  split_ifs with hkey
  · obtain ⟨hform, hbit⟩ := h.merge (length_mask (a % c.blocks_per_key) ((a + n - 1) % c.blocks_per_key + 1))
      (hkeys _ hle)
    refine ⟨_, rfl, hform, fun b => (hbit b).trans ?_⟩
    rw [getD_mask]
    congr 1
    have := hmem b
    have := hmem' b
    rw [← Bool.decide_and]
    refine decide_eq_decide.2 ?_
    omega
  · obtain ⟨hform, hbit⟩ := h.merge (length_mask (a % c.blocks_per_key) c.blocks_per_key) (hkeys _ hle)
    obtain ⟨hform', hbit'⟩ := middle_spec hform (a / c.blocks_per_key + 1)
      ((a + n - 1) / c.blocks_per_key - a / c.blocks_per_key - 1) fun k _ => hkeys k (by omega)
    obtain ⟨hform'', hbit''⟩ := hform'.merge (length_mask 0 ((a + n - 1) % c.blocks_per_key + 1)) (hkeys _ le_rfl)
    refine ⟨_, rfl, hform'', fun b => (hbit'' b).trans ?_⟩
    rw [hbit', hbit, getD_mask, getD_mask, Bool.xor_assoc, Bool.xor_assoc]
    congr 1
    have := hmem b
    have := hmem' b
    have := hlt b
    rw [← Bool.decide_and, ← Bool.decide_and, decide_xor (by omega), decide_xor (by omega)]
    refine decide_eq_decide.2 ?_
    omega

variable (c) in
def Past (b : ℕ) : Prop := c.units ≤ b ∧ b / c.blocks_per_key * c.blocks_per_key < c.units

instance : Decidable (Past c b) := inferInstanceAs (Decidable (_ ∧ _))

variable {w : Bool}

private theorem nextBit_some {start pos : ℕ} (h : nextBit w bl start = some pos) :
    start ≤ pos ∧ bl[pos]? = some w ∧ ∀ i, start ≤ i → i < pos → bl[i]? ≠ some w := by
  obtain ⟨j, hj, rfl⟩ := map_eq_some_iff.1 h
  obtain ⟨hlt, hw, hbefore⟩ := findIdx?_eq_some_iff_getElem.1 hj
  refine ⟨Nat.le_add_right _ _, ?_, fun i _ _ => ?_⟩
  · rw [← getElem?_drop, getElem?_eq_getElem hlt]
    simpa using hw
  intro hw'
  obtain ⟨hi', heq⟩ := List.getElem?_eq_some_iff.1 hw'
  have hne := hbefore (i - start) (by omega)
  rw [getElem_drop] at hne
  have hidx : start + (i - start) = i := by omega
  simp [hidx, heq] at hne

private theorem nextBit_none {start : ℕ} (h : nextBit w bl start = none) {i : ℕ} (hi : start ≤ i) :
    bl[i]? ≠ some w := by
  intro hw
  have hnone := findIdx?_eq_none_iff.1 (map_eq_none_iff.1 h) w
  have hmem : w ∈ bl.drop start := by
    refine mem_of_getElem? (i := i - start) ?_
    rw [getElem?_drop, Nat.add_sub_cancel' hi, hw]
  simpa using hnone hmem

private theorem block_div {i : ℕ} (hi : i < c.blocks_per_key) : (κ * c.blocks_per_key + i) / c.blocks_per_key = κ := by
  rw [mul_comm, Nat.mul_add_div c.key_pos, Nat.div_eq_of_lt hi, add_zero]

private theorem Formed.bit_of_mem (h : Formed c s) (hmem : (κ * c.bytes_per_key, bl) ∈ s) {i : ℕ}
    (hi : i < c.blocks_per_key) : bl[i]? = some (bit c s (κ * c.blocks_per_key + i)) := by
  have hlen : bl.length = c.blocks_per_key := (h.keys _ hmem).1
  have hmod : (κ * c.blocks_per_key + i) % c.blocks_per_key = i := by
    rw [mul_comm, Nat.mul_add_mod, Nat.mod_eq_of_lt hi]
  unfold bit
  rw [block_div hi, hmod, valueAt_of_mem h.sorted hmem, getD_eq_getElem?_getD, getElem?_eq_getElem (by omega),
    getD_some]

variable {rest : Store}

private theorem Formed.bit_gap (h : Formed c s) (hsuf : (κ * c.bytes_per_key, bl) :: rest <:+ s)
    (hb : (κ + 1) * c.blocks_per_key ≤ b) (hrest : ∀ e ∈ rest, b / c.blocks_per_key * c.bytes_per_key < e.1) :
    bit c s b = false := by
  obtain ⟨l, rfl⟩ := hsuf
  have hκ := mul_lt_mul_of_pos_right ((Nat.le_div_iff_mul_le c.key_pos).2 hb) c.bytes_pos
  unfold bit
  rw [valueAt_of_ne fun e he => ?_, getD_nil]
  obtain he | he := mem_append.1 he
  · have := (pairwise_append.1 h.sorted).2.2 e he _ mem_cons_self
    omega
  · obtain rfl | he := mem_cons.1 he
    · exact hκ.ne
    · exact (hrest e he).ne'

variable (c s) in
def Run (w : Bool) (a b : ℕ) : Prop := ∀ x, a ≤ x → x < b → bit c s x = w

private theorem Run.append {a b d : ℕ} (h : Run c s w a b) (h' : Run c s w b d) : Run c s w a d := by
  intro x hx hxd
  by_cases hb : x < b
  · exact h x hx hb
  · exact h' x (by omega) hxd

private theorem Run.append_rest {a b : ℕ} (h : Run c s w a b) (h' : ∀ x, b ≤ x → bit c s x = w) {x : ℕ} (hx : a ≤ x) :
    bit c s x = w :=
  h.append (fun x hx _ => h' x hx) x hx x.lt_succ_self

private theorem Formed.nextBit (h : Formed c s) (hmem : (κ * c.bytes_per_key, bl) ∈ s) (w : Bool) (pos : ℕ) :
    (∃ pos', nextBit w bl pos = some pos' ∧ pos ≤ pos' ∧ pos' < c.blocks_per_key ∧ bit c s (κ * c.blocks_per_key + pos') = w ∧
        Run c s (!w) (κ * c.blocks_per_key + pos) (κ * c.blocks_per_key + pos')) ∨
      (nextBit w bl pos = none ∧ Run c s (!w) (κ * c.blocks_per_key + pos) ((κ + 1) * c.blocks_per_key)) := by
  have hlen := (h.keys _ hmem).1
  have hother {b : ℕ} (hb : κ * c.blocks_per_key + pos ≤ b) (hlt : b - κ * c.blocks_per_key < c.blocks_per_key)
      (hne : bl[b - κ * c.blocks_per_key]? ≠ some w) : bit c s b = !w := by
    rw [h.bit_of_mem hmem hlt, Nat.add_sub_cancel' (by omega)] at hne
    simpa [Bool.eq_not_iff] using hne
  cases hnext : Freelist.nextBit w bl pos with
  | some pos' =>
    obtain ⟨hle, hw, hbefore⟩ := nextBit_some hnext
    have hlt : pos' < c.blocks_per_key := hlen ▸ (List.getElem?_eq_some_iff.1 hw).1
    refine Or.inl ⟨pos', rfl, hle, hlt, ?_, fun b hb hb' => hother hb (by omega) (hbefore _ (by omega) (by omega))⟩
    rw [h.bit_of_mem hmem hlt] at hw
    exact some.inj hw
  | none =>
    refine Or.inr ⟨rfl, fun b hb hb' => ?_⟩
    rw [add_mul, one_mul] at hb'
    exact hother hb (by omega) (nextBit_none hnext (by omega))

variable (c s) in
/-- The cursor is at block `a`, in a stored key. -/
def At (cur : Cursor) (a : ℕ) : Prop :=
  ∃ κ pos bl rest, cur = ⟨κ * c.bytes_per_key, pos, bl, some rest⟩ ∧ (κ * c.bytes_per_key, bl) :: rest <:+ s ∧
    pos ≤ c.blocks_per_key ∧ a = κ * c.blocks_per_key + pos

/-- The store of a device that ends a key below `2 ^ 64`. -/
structure Fits (c : Config) (s : Store) : Prop extends Formed c s where
  past : ∀ b, Past c b → bit c s b = true
  room : c.size + c.bytes_per_key ≤ 2 ^ 64

private theorem Formed.key_of_suffix (h : Formed c s) (hsuf : (κ * c.bytes_per_key, v) :: rest <:+ s) :
    κ * c.blocks_per_key < c.units ∧ ∀ e ∈ rest, κ * c.bytes_per_key < e.1 := by
  obtain ⟨-, κ', hκ, hlt⟩ := h.keys _ (hsuf.mem mem_cons_self)
  obtain rfl : κ = κ' := Nat.eq_of_mul_eq_mul_right c.bytes_pos hκ
  exact ⟨hlt, (pairwise_cons.1 (h.sorted.sublist hsuf.sublist)).1⟩

private theorem Formed.next_of_suffix (h : Formed c s) {e : ℕ × Bits}
    (hsuf : (κ * c.bytes_per_key, bl) :: e :: rest <:+ s) :
    ∃ κ' v, e = (κ' * c.bytes_per_key, v) ∧ κ < κ' ∧ (κ' * c.bytes_per_key, v) :: rest <:+ s ∧
      κ' * c.blocks_per_key < c.units ∧ Run c s false ((κ + 1) * c.blocks_per_key) (κ' * c.blocks_per_key) := by
  obtain ⟨k, v⟩ := e
  have hsuf' : (k, v) :: rest <:+ s := (suffix_cons _ _).trans hsuf
  obtain ⟨-, κ', hκ', -⟩ := h.keys _ (hsuf'.mem mem_cons_self)
  obtain rfl : k = κ' * c.bytes_per_key := hκ'
  obtain ⟨hlt, hrest⟩ := h.key_of_suffix hsuf'
  refine ⟨κ', v, rfl, Nat.lt_of_mul_lt_mul_right ((h.key_of_suffix hsuf).2 _ mem_cons_self), hsuf', hlt, ?_⟩
  intro b hb hb'
  have hbκ' := mul_lt_mul_of_pos_right ((Nat.div_lt_iff_lt_mul c.key_pos).2 hb') c.bytes_pos
  refine h.bit_gap hsuf hb fun e he => ?_
  obtain rfl | he := mem_cons.1 he
  · exact hbκ'
  · exact hbκ'.trans (hrest e he)

private theorem key_offset (κ i : ℕ) :
    κ * c.bytes_per_key + i * c.bytes_per_block = (κ * c.blocks_per_key + i) * c.bytes_per_block := by
  rw [bytes_per_key, add_mul, mul_assoc, mul_comm c.bytes_per_block]

private theorem key_lt_size (hκ : κ * c.blocks_per_key < c.units) : κ * c.bytes_per_key < c.size := by
  have hoffset := key_offset (c := c) κ 0
  rw [zero_mul, add_zero, add_zero] at hoffset
  rw [hoffset, ← c.size_eq]
  exact mul_lt_mul_of_pos_right hκ c.block_pos

variable (c s) in
/-- Where `skipSet` stops: at a free block in a key or before the key of the cursor, or behind all keys. -/
def Stops (cur : Cursor) (o : ℕ) : Prop :=
  (∃ a, At c s cur a ∧ o ≤ a ∧ Run c s false o a ∧ bit c s o = false ∧ o < c.units) ∨
    (cur.it = none ∧ cur.offset = o * c.bytes_per_block ∧ ∀ b, o ≤ b → bit c s b = false)

private theorem Fits.skipSet (h : Fits c s) {κ pos : ℕ} {bl : Bits} {rest : Store}
    (hsuf : (κ * c.bytes_per_key, bl) :: rest <:+ s) (hpos : pos ≤ c.blocks_per_key) :
    ∃ o cur, skipSet c (κ * c.bytes_per_key) pos bl rest = (o * c.bytes_per_block, cur) ∧ κ * c.blocks_per_key + pos ≤ o ∧
      Run c s true (κ * c.blocks_per_key + pos) o ∧ Stops c s cur o := by
  have hlt := (h.key_of_suffix hsuf).1
  have hsucc : (κ + 1) * c.blocks_per_key = κ * c.blocks_per_key + c.blocks_per_key := Nat.succ_mul _ _
  have hend : (κ + 1) * c.bytes_per_key = (κ + 1) * c.blocks_per_key * c.bytes_per_block := by
    simpa using key_offset (c := c) (κ + 1) 0
  have hnext : (κ * c.bytes_per_key + c.bytes_per_key) % 2 ^ 64 = (κ + 1) * c.bytes_per_key := by
    have := key_lt_size hlt
    have := h.room
    rw [Nat.mod_eq_of_lt (by omega), Nat.succ_mul]
  unfold Freelist.skipSet
  obtain ⟨pos', hpos', hle, hlt', hbit, hrun⟩ | ⟨hnone, hrun⟩ := h.nextBit (hsuf.mem mem_cons_self) false pos
  · rw [hpos']
    refine ⟨_, _, congrArg (·, _) (key_offset κ pos'), by omega, hrun, .inl ⟨_, ⟨κ, pos', bl, rest, rfl, hsuf, hlt'.le, rfl⟩,
      le_rfl, fun x _ _ => by omega, hbit, ?_⟩⟩
    by_contra hpast
    have := h.past _ ⟨Nat.le_of_not_lt hpast, (block_div hlt').symm ▸ hlt⟩
    rw [hbit] at this
    cases this
  · rw [hnone]
    rw [hnext]
    cases rest with
    | nil => exact ⟨_, _, congrArg (·, _) hend, by omega, hrun, .inr ⟨rfl, hend, fun b hb => h.bit_gap hsuf hb (by simp)⟩⟩
    | cons e rest =>
      obtain ⟨κ', v, rfl, hκκ', hsuf', hlt', hclear⟩ := h.next_of_suffix hsuf
      simp only [Nat.mul_lt_mul_right c.bytes_pos]
      split_ifs with hfar
      · have hfar' := mul_lt_mul_of_pos_right hfar c.key_pos
        exact ⟨_, _, congrArg (·, _) hend, by omega, hrun, .inl ⟨_, ⟨κ', 0, v, rest, rfl, hsuf', Nat.zero_le _, rfl⟩,
          hfar'.le, hclear, hclear _ le_rfl hfar', by omega⟩⟩
      · obtain rfl : κ' = κ + 1 := by omega
        obtain ⟨o, cur, heq, hle, hrun', hstops⟩ := Fits.skipSet h hsuf' (Nat.zero_le _)
        exact ⟨o, cur, heq, by omega, hrun.append hrun', hstops⟩
termination_by rest.length

private theorem Fits.skipClear (h : Fits c s) {κ pos : ℕ} {bl : Bits} {rest : Store}
    (hsuf : (κ * c.bytes_per_key, bl) :: rest <:+ s) (hpos : pos ≤ c.blocks_per_key) :
    ∃ stop cur, skipClear c (κ * c.bytes_per_key) pos bl rest = (stop, cur) ∧
      ((∃ e, stop = some (e * c.bytes_per_block) ∧ κ * c.blocks_per_key + pos ≤ e ∧
          Run c s false (κ * c.blocks_per_key + pos) e ∧ bit c s e = true ∧ At c s cur e) ∨
        (stop = none ∧ cur.offset < c.size ∧ ∀ b, κ * c.blocks_per_key + pos ≤ b → bit c s b = false)) := by
  unfold Freelist.skipClear
  obtain ⟨pos', hpos', hle, hlt', hbit, hrun⟩ | ⟨hnone, hrun⟩ := h.nextBit (hsuf.mem mem_cons_self) true pos
  · rw [hpos']
    exact ⟨_, _, rfl, .inl ⟨_, congrArg some (key_offset κ pos'), by omega, hrun, hbit, κ, pos', bl, rest, rfl, hsuf, hlt'.le, rfl⟩⟩
  rw [hnone]
  cases rest with
  | nil =>
    have hclear (b : ℕ) (hb : (κ + 1) * c.blocks_per_key ≤ b) : bit c s b = false := h.bit_gap hsuf hb (by simp)
    exact ⟨_, _, rfl, .inr ⟨rfl, key_lt_size (h.key_of_suffix hsuf).1, fun b hb => hrun.append_rest hclear hb⟩⟩
  | cons e rest =>
    obtain ⟨κ', v, rfl, hκκ', hsuf', -, hclear⟩ := h.next_of_suffix hsuf
    have hle' : κ * c.blocks_per_key + pos ≤ κ' * c.blocks_per_key := by
      have := Nat.mul_le_mul_right c.blocks_per_key hκκ'
      rw [Nat.succ_mul] at this
      omega
    obtain ⟨stop, cur, heq, ⟨e, he, hle, hclear', hend⟩ | ⟨hstop, hoff, hclear'⟩⟩ := Fits.skipClear h hsuf' (Nat.zero_le _)
    · exact ⟨stop, cur, heq, .inl ⟨e, he, hle'.trans hle, (hrun.append hclear).append hclear', hend⟩⟩
    · exact ⟨stop, cur, heq, .inr ⟨hstop, hoff, fun b hb => (hrun.append hclear).append_rest hclear' hb⟩⟩
termination_by rest.length

/-- One call from block `a` on: the next free extent with the cursor at its end, or no more of them. -/
theorem Fits.next (h : Fits c s) {cur : Cursor} {a : ℕ} (hcur : At c s cur a) : ∃ r cur', cur.next c = (r, cur') ∧
      ((∃ o e, r = some (o * c.bytes_per_block, (e - o) * c.bytes_per_block) ∧ a ≤ o ∧ o < e ∧ e ≤ c.units ∧
          Run c s true a o ∧ Run c s false o e ∧
          ((bit c s e = true ∧ At c s cur' e) ∨ (e = c.units ∧ c.size ≤ cur'.offset ∧ 0 < cur'.offset))) ∨
        (r = none ∧ Run c s true a c.units)) := by
  obtain ⟨κ, pos, bl, rest, rfl, hsuf, hpos, rfl⟩ := hcur
  obtain ⟨o, cur, hskip, hle, hset, hstops⟩ := h.skipSet hsuf hpos
  unfold Cursor.next
  simp only [getD_some, hskip]
  obtain ⟨a, ⟨κ', pos', bl', rest', rfl, hsuf', hpos', rfl⟩, hoa, hclear, hbit, ho⟩ | ⟨hit, hoff, hclear⟩ := hstops
  · obtain ⟨-, cur, hskip', ⟨e, rfl, hle', hclear', hset', hat⟩ | ⟨rfl, hoff, hclear'⟩⟩ := h.skipClear hsuf' hpos'
    · -- the first block past the end is set, or no key reaches it
      have he : e ≤ c.units := by
        by_contra hlt
        obtain ⟨κ2, pos2, bl2, rest2, -, hsuf2, hpos2, rfl⟩ := hat
        have hlt3 := (h.key_of_suffix hsuf2).1
        have hdiv : c.units / c.blocks_per_key = κ2 := by
          have := block_div (c := c) (κ := κ2) (i := c.units - κ2 * c.blocks_per_key) (by omega)
          rwa [Nat.add_sub_cancel' hlt3.le] at this
        have hunits := h.past c.units ⟨le_rfl, hdiv.symm ▸ hlt3⟩
        rw [hclear.append hclear' c.units ho.le (by omega)] at hunits
        cases hunits
      have hoe : o ≠ e := by
        rintro rfl
        rw [hbit] at hset'
        cases hset'
      simp only [hskip']
      refine ⟨_, _, rfl, .inl ⟨o, e, ?_, hle, by omega, he, hset, hclear.append hclear', .inl ⟨hset', hat⟩⟩⟩
      rw [min_eq_right (Nat.mul_le_mul_right _ he), Nat.sub_mul]
    · simp only [hskip', hoff]
      exact ⟨_, _, rfl, .inl ⟨o, c.units, by rw [Nat.sub_mul], hle, ho, le_rfl, hset,
        hclear.append fun x hx _ => hclear' x hx, .inr ⟨rfl, le_rfl, c.size_pos ho⟩⟩⟩
  · have hsize : o * c.bytes_per_block < c.size ↔ o < c.units := by rw [← c.size_eq, Nat.mul_lt_mul_right c.block_pos]
    simp only [hit, hoff, hsize]
    split_ifs with ho
    · exact ⟨_, _, rfl, .inl ⟨o, c.units, by rw [Nat.sub_mul], hle, ho, le_rfl, hset, fun x hx _ => hclear x hx,
        Or.inr ⟨rfl, le_rfl, c.size_pos ho⟩⟩⟩
    · exact ⟨_, _, rfl, .inr ⟨rfl, fun x hx _ => hset x hx (by omega)⟩⟩

/-- The extents from block `a` on. -/
structure Extents (c : Config) (s : Store) (a : ℕ) (l : List (ℕ × ℕ)) : Prop where
  apart : l.Pairwise (·.2 < ·.1)
  bounds : ∀ x ∈ l, a ≤ x.1 ∧ x.1 < x.2 ∧ x.2 ≤ c.units
  free : ∀ b, a ≤ b → b < c.units → (bit c s b = false ↔ ∃ x ∈ l, x.1 ≤ b ∧ b < x.2)

def Config.inBytes (c : Config) (x : ℕ × ℕ) : ℕ × ℕ := (x.1 * c.bytes_per_block, (x.2 - x.1) * c.bytes_per_block)

private theorem Extents.cons {a o e : ℕ} {l : List (ℕ × ℕ)} (h : Extents c s e l) (hao : a ≤ o) (hoe : o < e)
    (he : e ≤ c.units)
    (hset : Run c s true a o) (hclear : Run c s false o e) (hapart : ∀ x ∈ l, e < x.1) : Extents c s a ((o, e) :: l) := by
  refine ⟨pairwise_cons.2 ⟨hapart, h.apart⟩, ?_, fun b hab hb => ?_⟩
  · rw [forall_mem_cons]
    refine ⟨⟨hao, hoe, he⟩, fun x hx => ?_⟩
    have := h.bounds x hx
    omega
  rw [exists_mem_cons_iff]
  by_cases hbe : b < e
  · have hnone : ¬ ∃ x ∈ l, x.1 ≤ b ∧ b < x.2 := by
      rintro ⟨x, hx, hxb, -⟩
      have := hapart x hx
      omega
    by_cases hbo : b < o
    · simp [hset b hab hbo, hnone]
      omega
    · simp [hclear b (by omega) hbe, hbe, Nat.le_of_not_lt hbo]
  · rw [h.free b (by omega) hb]
    constructor
    · exact .inr
    · rintro (⟨-, hlt⟩ | hx)
      · exact absurd hlt hbe
      · exact hx

private theorem Fits.enumerate (h : Fits c s) {cur cur' : Cursor} {a : ℕ} (hopen : cur.open s = some cur')
    (hat : At c s cur' a) (fuel : ℕ) (hfuel : c.units ≤ a + fuel) : ∃ l, Extents c s a l ∧
      enumerate c s (fuel + 1) cur = some (l.map c.inBytes) := by
  obtain ⟨κ, pos, bl, rest, rfl, hsuf, hpos, -⟩ := id hat
  have hsize := not_le.2 (key_lt_size (h.key_of_suffix hsuf).1)
  rw [Freelist.enumerate, enumerateNext, hopen, map_some, if_neg hsize, bind_some]
  obtain ⟨r, cur2, hnext, ⟨o, e, rfl, hao, hoe, he, hset, hclear, hend⟩ | ⟨rfl, hset⟩⟩ := h.next hat
  · rw [hnext]
    -- something was left, and less is left now
    obtain ⟨fuel, rfl⟩ : ∃ k, fuel = k + 1 := ⟨fuel - 1, by omega⟩
    obtain ⟨hbit, hat2⟩ | ⟨rfl, hover, hpos⟩ := hend
    · have hopen2 : cur2.open s = some cur2 := by
        obtain ⟨κ2, pos2, -, -, rfl, -, -, he2⟩ := id hat2
        refine if_neg fun h0 => ?_
        have hκ2 : κ2 = 0 := (mul_eq_zero.1 h0.1).resolve_right c.bytes_pos.ne'
        have : pos2 = 0 := h0.2
        subst hκ2
        omega
      obtain ⟨l, hl, heq⟩ := Fits.enumerate h hopen2 hat2 fuel (by omega)
      refine ⟨(o, e) :: l, hl.cons hao hoe he hset hclear fun x hx => ?_, ?_⟩
      · obtain ⟨hle, hlt', hle'⟩ := hl.bounds x hx
        have hfree := (hl.free x.1 hle (by omega)).2 ⟨x, hx, le_rfl, hlt'⟩
        refine lt_of_le_of_ne hle fun heq => ?_
        rw [← heq, hbit] at hfree
        cases hfree
      · simp [heq, inBytes]
    · have hnil : Extents c s c.units [] := ⟨.nil, by simp, fun b hb hb' => by omega⟩
      refine ⟨[(o, c.units)], hnil.cons hao hoe he hset hclear (by simp), ?_⟩
      have hopen2 : cur2.open s = some cur2 := if_neg (by omega)
      simp [Freelist.enumerate, enumerateNext, hopen2, hover, inBytes]
  · rw [hnext]
    exact ⟨[], ⟨.nil, by simp, fun b hb hb' => by simp [hset b hb hb']⟩, rfl⟩
termination_by fuel

/-! ## Whole runs -/

structure State.Ok (c : Config) (st : State) : Prop where
  formed : Formed c st.store
  bits : ∀ b, bit c st.store b = decide (b ∈ st.used ∨ Past c b)
  below : ∀ b ∈ st.used, b < c.units

theorem Formed.xor (h : Formed c s) {offset length : ℕ} (hr : c.Range offset length) :
    ∃ a n s', c.blocks offset length = Finset.Ico a (a + n) ∧ a + n ≤ c.units ∧ offset = a * c.bytes_per_block ∧ 0 < n ∧
      xor c offset length s = some s' ∧ Formed c s' ∧
      ∀ b, bit c s' b = (bit c s b ^^ decide (a ≤ b ∧ b < a + n)) := by
  have hp := c.block_pos
  obtain ⟨⟨a, rfl⟩, ⟨n, rfl⟩, hpos, hle⟩ := hr
  have hn : 0 < n := Nat.pos_of_mul_pos_left hpos
  have hunits : a + n ≤ c.units := by
    rwa [← c.size_eq, ← mul_add, mul_comm, Nat.mul_le_mul_right_iff hp] at hle
  have hkeys (k : ℕ) (hk : k ≤ (a + n - 1) / c.blocks_per_key) : k * c.blocks_per_key < c.units := by
    have := (Nat.le_div_iff_mul_le c.key_pos).1 hk
    omega
  obtain ⟨s', hs, hform, hbit⟩ := xor_spec h hn hkeys
  refine ⟨a, n, s', ?_, hunits, mul_comm _ _, hn, ?_, hform, hbit⟩
  · rw [blocks, ← mul_add, Nat.mul_div_cancel_left _ hp, Nat.mul_div_cancel_left _ hp]
  · rw [mul_comm _ a, mul_comm _ n, hs]

private theorem State.Ok.step {st : State} (h : st.Ok c) {ev : Event} (hev : Valid c st ev) :
    ∃ st', step c st ev = some st' ∧ st'.Ok c ∧ (0 ∈ st.used → 0 ∈ st'.used) := by
  cases ev with
  | allocate offset length =>
    obtain ⟨hr, hdisj⟩ := hev
    obtain ⟨a, n, s, hblocks, hle, -, -, hs, hform, hbit⟩ := h.formed.xor hr
    simp only [h.bits] at hbit
    rw [hblocks, Finset.disjoint_left] at hdisj
    refine ⟨⟨s, _⟩, by rw [Freelist.step, hs, map_some], ⟨hform, fun b => (hbit b).trans ?_, fun b hb => ?_⟩,
      fun h0 => Finset.mem_union_left _ h0⟩
    · rw [decide_xor]
      · refine decide_eq_decide.2 ?_
        rw [mem_union, hblocks, mem_Ico, or_right_comm]
      · rintro (hb | ⟨hb, -⟩) hrange
        · exact hdisj hb (mem_Ico.2 hrange)
        · omega
    · rw [mem_union, hblocks, mem_Ico] at hb
      obtain hb | hb := hb
      · exact h.below b hb
      · omega
  | release offset length =>
    obtain ⟨hr, hsub, hfirst⟩ := hev
    obtain ⟨a, n, s, hblocks, hle, hoffset, -, hs, hform, hbit⟩ := h.formed.xor hr
    simp only [h.bits] at hbit
    refine ⟨⟨s, _⟩, by rw [Freelist.step, hs, map_some], ⟨hform, fun b => (hbit b).trans ?_, fun b hb => ?_⟩,
      fun h0 => mem_sdiff.2 ⟨h0, ?_⟩⟩
    · simp only [hblocks]
      by_cases hrange : a ≤ b ∧ b < a + n
      · have hused : b ∈ st.used := hsub (hblocks ▸ mem_Ico.2 hrange)
        have hpast : ¬ Past c b := fun hpast => by
          have := hpast.1
          omega
        simp [hrange, hused, hpast]
      · simp [hrange]
    · exact h.below b (mem_sdiff.1 hb).1
    · rw [hblocks, mem_Ico]
      rintro ⟨ha, -⟩
      obtain rfl : a = 0 := by omega
      exact hfirst (by rw [hoffset, Nat.zero_mul])

private theorem run_ok {st : State} (h : st.Ok c) {evs : List Event} (hevs : AllSteps (step c) (Valid c) st evs) :
    ∃ st', exec (step c) st evs = some st' ∧ st'.Ok c ∧ (0 ∈ st.used → 0 ∈ st'.used) := by
  refine exec_total (I := fun t => t.Ok c ∧ (0 ∈ st.used → 0 ∈ t.used)) (fun t _ ht hev => ?_) ⟨h, id⟩ hevs
  obtain ⟨t', heq, hok, h0⟩ := ht.1.step hev
  exact ⟨t', heq, hok, h0 ∘ ht.2⟩

private theorem Extents.bytes {l : List (ℕ × ℕ)} (h : Extents c s 0 l) :
    (l.map c.inBytes).Pairwise (fun x y => x.1 + x.2 < y.1) ∧
    (∀ x ∈ l.map c.inBytes, 0 < x.2) ∧
    ∀ y, (∃ x ∈ l.map c.inBytes, x.1 ≤ y ∧ y < x.1 + x.2) ↔ y < c.size ∧ bit c s (y / c.bytes_per_block) = false := by
  have hp := c.block_pos
  have hend {x : ℕ × ℕ} (hx : x ∈ l) : (c.inBytes x).1 + (c.inBytes x).2 = x.2 * c.bytes_per_block := by
    rw [inBytes, ← add_mul, Nat.add_sub_cancel' (h.bounds x hx).2.1.le]
  refine ⟨pairwise_map.2 (h.apart.imp_of_mem fun {x y} hx _ hxy => ?_), ?_, fun y => ?_⟩
  · rw [hend hx]
    exact mul_lt_mul_of_pos_right hxy hp
  · intro x hx
    obtain ⟨z, hz, rfl⟩ := mem_map.1 hx
    have := (h.bounds z hz).2.1
    exact mul_pos (by omega) hp
  have hunits : y < c.size ↔ y / c.bytes_per_block < c.units := by rw [← c.size_eq, Nat.div_lt_iff_lt_mul hp]
  have hmem : (∃ x ∈ l.map c.inBytes, x.1 ≤ y ∧ y < x.1 + x.2) ↔
      ∃ x ∈ l, x.1 ≤ y / c.bytes_per_block ∧ y / c.bytes_per_block < x.2 := by
    simp only [List.mem_map, exists_exists_and_eq_and]
    refine exists_congr fun x => and_congr_right fun hx => ?_
    rw [hend hx, inBytes, Nat.le_div_iff_mul_le hp, Nat.div_lt_iff_lt_mul hp]
  rw [hmem, hunits]
  constructor
  · rintro ⟨x, hx, hxy⟩
    have hlt := lt_of_lt_of_le hxy.2 (h.bounds x hx).2.2
    exact ⟨hlt, (h.free _ (Nat.zero_le _) hlt).2 ⟨x, hx, hxy⟩⟩
  · rintro ⟨hlt, hbit⟩
    exact (h.free _ (Nat.zero_le _) hlt).1 hbit

def created (c : Config) : State := ⟨(create c).getD [], ∅⟩

end Lunule.Freelist
