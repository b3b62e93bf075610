import Mathlib

/-!
# Directory fragments

`frag_t`, the encoded word of a fragment: the number of bits in the high byte, the value in the low 24 bits, of which
only the first `bits` may be set. A fragment stands for the set of the 24-bit values that start with its bits. `path`
lists these bits; on well-formed fragments it is a bijection with the bit strings of length at most 24, under which
containment is the prefix relation, a child is an extension and the parent drops the last bit.
-/

namespace Lunule
open List

/-- `frag_t`. -/
structure Frag where
  enc : Nat
deriving DecidableEq

namespace Frag

def make (b v : Nat) : Frag := ⟨(b <<< 24) ||| (v &&& (0xffffff <<< (24 - b)) &&& 0xffffff)⟩

def root : Frag := ⟨0⟩

def bits (f : Frag) : Nat := f.enc >>> 24

def value (f : Frag) : Nat := f.enc &&& 0xffffff

def mask (f : Frag) : Nat := (0xffffff <<< (24 - f.bits)) &&& 0xffffff

/-- `ceph_frag_contains_value`. -/
def containsValue (f : Frag) (v : Nat) : Bool := (v &&& f.mask) == f.value

/-- `ceph_frag_contains_frag`. -/
def contains (f sub : Frag) : Bool := decide (f.bits ≤ sub.bits) && (sub.value &&& f.mask) == f.value

/-- `ceph_frag_parent`. -/
def parent (f : Frag) : Frag := make (f.bits - 1) (f.value &&& (f.mask <<< 1))

def makeChild (f : Frag) (nb i : Nat) : Frag := make (f.bits + nb) (f.value ||| (i <<< (24 - (f.bits + nb))))

def split (f : Frag) (nb : Nat) : List Frag := (range (2 ^ nb)).map (f.makeChild nb)

/-- What `make` builds: at most 24 bits, and no bit of the value beyond them. -/
def WF (f : Frag) : Prop := f.bits ≤ 24 ∧ make f.bits f.value = f

instance (f : Frag) : Decidable f.WF := inferInstanceAs (Decidable (_ ∧ _))

/-! ### The bits of a word -/

private theorem testBit_ffffff (j : Nat) : Nat.testBit 0xffffff j = decide (j < 24) := Nat.testBit_two_pow_sub_one 24 j

theorem bits_make (b v : Nat) : (make b v).bits = b := by
  apply Nat.eq_of_testBit_eq
  intro j
  have h : ¬ 24 + j < 24 := by omega
  simp [make, bits, testBit_ffffff]

private theorem testBit_value_make (b v j : Nat) :
    (make b v).value.testBit j = (decide (24 - b ≤ j ∧ j < 24) && v.testBit j) := by
  have h : ∀ hj : j < 24, ¬ 24 ≤ j := by omega
  by_cases hj : j < 24
  · have hs : 24 - b ≤ j → j - (24 - b) < 24 := by omega
    by_cases hb : 24 - b ≤ j
    · simp [make, value, testBit_ffffff, hj, hb, hs hb]
    · simp [make, value, hj, hb]
  · simp [value, testBit_ffffff, hj]

private theorem testBit_mask (f : Frag) (j : Nat) : f.mask.testBit j = decide (24 - f.bits ≤ j ∧ j < 24) := by
  by_cases hj : j < 24
  · have hs : 24 - f.bits ≤ j → j - (24 - f.bits) < 24 := by omega
    by_cases hb : 24 - f.bits ≤ j
    · simp [mask, testBit_ffffff, hs hb]
    · simp [mask, hb]
  · simp [mask, testBit_ffffff, hj]

private theorem enc_eq (f : Frag) : f.enc = f.bits * 2 ^ 24 + f.value := by
  have hv : f.value = f.enc % 2 ^ 24 := Nat.and_two_pow_sub_one_eq_mod f.enc 24
  have hb : f.bits = f.enc / 2 ^ 24 := Nat.shiftRight_eq_div_pow f.enc 24
  rw [hv, hb]
  omega

variable {f g : Frag}

private theorem ext_of (hb : f.bits = g.bits) (hv : f.value = g.value) : f = g := by
  have h : f.enc = g.enc := by rw [enc_eq, enc_eq, hb, hv]
  cases f
  cases g
  simpa using h

/-- The first `b` bits of a 24-bit value. -/
def valuePath (v b : Nat) : List Bool := (range b).map fun k => v.testBit (23 - k)

def path (f : Frag) : List Bool := valuePath f.value f.bits

@[simp] theorem length_valuePath (v b : Nat) : (valuePath v b).length = b := by simp [valuePath]

@[simp] theorem length_path (f : Frag) : f.path.length = f.bits := length_valuePath _ _

theorem valuePath_eq_iff {v w b : Nat} (hb : b ≤ 24) :
    valuePath v b = valuePath w b ↔ ∀ j, 24 - b ≤ j → j < 24 → v.testBit j = w.testBit j := by
  simp only [valuePath, map_inj_left, mem_range]
  constructor
  · intro h j _ _
    have := h (23 - j) (by omega)
    rwa [show 23 - (23 - j) = j by omega] at this
  · intro h k _
    exact h (23 - k) (by omega) (by omega)

theorem valuePath_take {v b b' : Nat} (h : b ≤ b') : (valuePath v b').take b = valuePath v b := by
  simp [valuePath, ← map_take, min_eq_left h]

theorem path_make {b : Nat} (hb : b ≤ 24) (v : Nat) : (make b v).path = valuePath v b := by
  unfold path
  rw [bits_make, valuePath_eq_iff hb]
  intro j hj hj'
  simp [testBit_value_make, hj, hj']

theorem wf_make {b : Nat} (hb : b ≤ 24) (v : Nat) : (make b v).WF := by
  refine ⟨by rw [bits_make]; exact hb, ?_⟩
  rw [bits_make]
  refine ext_of (by simp [bits_make]) ?_
  apply Nat.eq_of_testBit_eq
  intro j
  simp only [testBit_value_make]
  cases decide (24 - b ≤ j ∧ j < 24) <;> simp

theorem wf_root : root.WF := by decide

@[simp] theorem path_root : root.path = [] := rfl

private theorem WF.testBit (h : f.WF) (j : Nat) :
    f.value.testBit j = (decide (24 - f.bits ≤ j ∧ j < 24) && f.value.testBit j) := by
  have hv := testBit_value_make f.bits f.value j
  rw [h.2] at hv
  exact hv

private theorem WF.testBit_eq_false (h : f.WF) {j : Nat} (hj : j < 24 - f.bits ∨ 24 ≤ j) :
    f.value.testBit j = false := by
  have hout : ¬ (24 - f.bits ≤ j ∧ j < 24) := by omega
  rw [h.testBit j, decide_eq_false hout, Bool.false_and]

theorem path_injective (hf : f.WF) (hg : g.WF) (h : f.path = g.path) : f = g := by
  have hb : f.bits = g.bits := by rw [← length_path, h, length_path]
  refine ext_of hb ?_
  unfold path at h
  rw [← hb, valuePath_eq_iff hf.1] at h
  apply Nat.eq_of_testBit_eq
  intro j
  by_cases hj : 24 - f.bits ≤ j ∧ j < 24
  · exact h j hj.1 hj.2
  · rw [hf.testBit_eq_false (by omega), hg.testBit_eq_false (by omega)]

theorem eq_root (hf : f.WF) (h0 : f.bits = 0) : f = root := by
  have hp : f.path = [] := length_eq_zero_iff.1 (by rw [length_path, h0])
  exact path_injective hf wf_root (hp.trans path_root.symm)

/-! ### Containment -/

private theorem and_mask_eq_iff (hf : f.WF) (v : Nat) :
    v &&& f.mask = f.value ↔ ∀ j, 24 - f.bits ≤ j → j < 24 → v.testBit j = f.value.testBit j := by
  constructor
  · intro h j hj hj'
    rw [← h, Nat.testBit_and, testBit_mask]
    simp [hj, hj']
  intro h
  apply Nat.eq_of_testBit_eq
  intro j
  rw [Nat.testBit_and, testBit_mask]
  by_cases hj : 24 - f.bits ≤ j ∧ j < 24
  · simp [hj, h j hj.1 hj.2]
  · rw [hf.testBit_eq_false (by omega), decide_eq_false hj, Bool.and_false]

theorem containsValue_iff (hf : f.WF) (v : Nat) : f.containsValue v = true ↔ f.path <+: valuePath v 24 := by
  unfold containsValue
  rw [beq_iff_eq, and_mask_eq_iff hf, prefix_iff_eq_take, length_path, valuePath_take hf.1, eq_comm, path,
    valuePath_eq_iff hf.1]

theorem contains_iff (hf : f.WF) : f.contains g = true ↔ f.path <+: g.path := by
  unfold contains
  rw [Bool.and_eq_true, decide_eq_true_iff, beq_iff_eq, and_mask_eq_iff hf, prefix_iff_eq_take, length_path]
  constructor
  · rintro ⟨hb, h⟩
    rw [path, path, valuePath_take hb, eq_comm, valuePath_eq_iff hf.1]
    exact h
  intro h
  have hb : f.bits ≤ g.bits := by
    have := congrArg length h
    rw [length_take, length_path, length_path] at this
    omega
  rw [path, path, valuePath_take hb, eq_comm, valuePath_eq_iff hf.1] at h
  exact ⟨hb, h⟩

/-! ### Children and parents -/

def word (nb i : Nat) : List Bool := (range nb).map fun k => i.testBit (nb - 1 - k)

private theorem path_makeChild (hf : f.WF) {nb i : Nat} (hb : f.bits + nb ≤ 24) (hi : i < 2 ^ nb) :
    (f.makeChild nb i).path = f.path ++ word nb i := by
  unfold makeChild
  rw [path_make hb]
  simp only [valuePath, range_add, map_append, map_map]
  congr 1
  · refine map_congr_left fun k hk => ?_
    rw [mem_range] at hk
    have hhigh : i.testBit (23 - k - (24 - (f.bits + nb))) = false := by
      apply Nat.testBit_eq_false_of_lt
      exact lt_of_lt_of_le hi (Nat.pow_le_pow_right (by omega) (by omega))
    rw [Nat.testBit_or, Nat.testBit_shiftLeft, hhigh]
    simp
  · refine map_congr_left fun k hk => ?_
    rw [mem_range] at hk
    have hlow : f.value.testBit (23 - (f.bits + k)) = false := hf.testBit_eq_false (by omega)
    have hle : 24 - (f.bits + nb) ≤ 23 - (f.bits + k) := by omega
    have hidx : 23 - (f.bits + k) - (24 - (f.bits + nb)) = nb - 1 - k := by omega
    simp only [Function.comp_apply, Nat.testBit_or, Nat.testBit_shiftLeft, hlow, hle, hidx]
    simp

private theorem wf_makeChild {nb i : Nat} (hb : f.bits + nb ≤ 24) : (f.makeChild nb i).WF := wf_make hb _

@[simp] theorem bits_makeChild (f : Frag) (nb i : Nat) : (f.makeChild nb i).bits = f.bits + nb := bits_make _ _

theorem path_parent (hf : f.WF) : f.parent.path = f.path.dropLast := by
  have h24 := hf.1
  unfold parent
  rw [path_make (by omega), dropLast_eq_take, length_path, path, valuePath_take (by omega), valuePath_eq_iff (by omega)]
  intro j _ _
  have hmask : f.mask.testBit (j - 1) = true ∨ f.bits = 0 := by
    by_cases h0 : f.bits = 0
    · exact .inr h0
    · rw [testBit_mask]
      exact .inl (decide_eq_true (by omega))
  rcases hmask with hmask | h0
  · have h1 : 1 ≤ j := by
      by_contra h1
      rw [testBit_mask] at hmask
      omega
    simp [hmask, h1]
  · omega

theorem wf_parent (hf : f.WF) : f.parent.WF := wf_make (by have := hf.1; omega) _

@[simp] theorem bits_parent (f : Frag) : f.parent.bits = f.bits - 1 := bits_make _ _

/-! ### Strings of bits as fragments -/

variable (w : List Bool)

def natOf : Nat := w.foldl (fun a b => 2 * a + b.toNat) 0

private theorem natOf_snoc (b : Bool) : natOf (w ++ [b]) = 2 * natOf w + b.toNat := by
  simp [natOf]

theorem natOf_lt : natOf w < 2 ^ w.length := by
  induction w using reverseRecOn with
  | nil => decide
  | append_singleton w b ih =>
    have hb : b.toNat ≤ 1 := Bool.toNat_le b
    rw [natOf_snoc, length_append, length_singleton, pow_succ]
    omega

private theorem word_natOf : word w.length (natOf w) = w := by
  induction w using reverseRecOn with
  | nil => rfl
  | append_singleton w b ih =>
    rw [natOf_snoc, length_append, length_singleton]
    unfold word
    rw [range_succ, map_append]
    have hlast : (2 * natOf w + b.toNat).testBit 0 = b := by cases b <;> simp
    congr 1
    · conv_rhs => rw [← ih, word]
      refine map_congr_left fun k hk => ?_
      rw [mem_range] at hk
      have hb : b.toNat ≤ 1 := Bool.toNat_le b
      rw [show w.length + 1 - 1 - k = (w.length - 1 - k) + 1 by omega, Nat.testBit_succ,
        show (2 * natOf w + b.toNat) / 2 = natOf w by omega]
    · simp [hlast]

private theorem word_injective {nb i j : Nat} (hi : i < 2 ^ nb) (hj : j < 2 ^ nb) (h : word nb i = word nb j) :
    i = j := by
  simp only [word, map_inj_left, mem_range] at h
  apply Nat.eq_of_testBit_eq
  intro k
  by_cases hk : k < nb
  · have := h (nb - 1 - k) (by omega)
    rwa [show nb - 1 - (nb - 1 - k) = k by omega] at this
  · have hpow : 2 ^ nb ≤ 2 ^ k := Nat.pow_le_pow_right (by omega) (by omega)
    rw [Nat.testBit_eq_false_of_lt (by omega), Nat.testBit_eq_false_of_lt (by omega)]

def ofPath (s : List Bool) : Frag := make s.length (natOf s <<< (24 - s.length))

@[simp] theorem bits_ofPath (s : List Bool) : (ofPath s).bits = s.length := bits_make _ _

theorem path_ofPath {s : List Bool} (hs : s.length ≤ 24) : (ofPath s).path = s := by
  unfold ofPath
  rw [path_make hs]
  conv_rhs => rw [← word_natOf s]
  refine map_congr_left fun k hk => ?_
  rw [mem_range] at hk
  have hle : 24 - s.length ≤ 23 - k := by omega
  rw [Nat.testBit_shiftLeft, decide_eq_true hle, Bool.true_and,
    show 23 - k - (24 - s.length) = s.length - 1 - k by omega]

theorem wf_ofPath {s : List Bool} (hs : s.length ≤ 24) : (ofPath s).WF := wf_make hs _

theorem ofPath_path (hf : f.WF) : ofPath f.path = f := by
  have hlen : f.path.length ≤ 24 := by rw [length_path]; exact hf.1
  exact path_injective (wf_ofPath hlen) hf (path_ofPath hlen)

theorem mem_split (hf : f.WF) {nb : Nat} (hb : f.bits + nb ≤ 24) :
    g ∈ f.split nb ↔ g.WF ∧ f.path <+: g.path ∧ g.bits = f.bits + nb := by
  simp only [split, mem_map, mem_range]
  constructor
  · rintro ⟨i, hi, rfl⟩
    exact ⟨wf_makeChild hb, path_makeChild hf hb hi ▸ prefix_append _ _, bits_makeChild f nb i⟩
  rintro ⟨hg, ⟨w, hw⟩, hlen⟩
  have hwl : w.length = nb := by
    have := congrArg length hw
    rw [length_append, length_path, length_path] at this
    omega
  subst hwl
  refine ⟨natOf w, natOf_lt w, path_injective (wf_makeChild hb) hg ?_⟩
  rw [path_makeChild hf hb (natOf_lt w), word_natOf, hw]

theorem nodup_split (hf : f.WF) {nb : Nat} (hb : f.bits + nb ≤ 24) : (f.split nb).Nodup := by
  refine List.Nodup.map_on (fun i hi j hj h => ?_) nodup_range
  rw [mem_range] at hi hj
  have hp := congrArg path h
  rw [path_makeChild hf hb hi, path_makeChild hf hb hj] at hp
  exact word_injective hi hj (append_cancel_left hp)

theorem length_split (f : Frag) (nb : Nat) : (f.split nb).length = 2 ^ nb := by simp [split]

end Frag
end Lunule
