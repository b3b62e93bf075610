import Mathlib

/-!
# Words as sets of bits

A word of width `w` stands for the set of its bits. `Within x y` is written as C code tests it: no bit of
`x` is left after masking with the complement of `y`. `within_iff` is the pointwise reading, from which the order and
lattice facts follow.
-/

namespace Lunule.BitSet
variable {w : Nat} {x y z : BitVec w}

def Within (x y : BitVec w) : Prop := x &&& ~~~y = 0#w

instance (x y : BitVec w) : Decidable (Within x y) := inferInstanceAs (Decidable (_ = _))

theorem within_iff : Within x y ↔ ∀ i, x.getLsbD i = true → y.getLsbD i = true := by
  constructor
  · intro h i hi
    have hb : (x &&& ~~~y).getLsbD i = false := by rw [show x &&& ~~~y = 0#w from h]; simp
    have hw : i < w := BitVec.lt_of_getLsbD hi
    simpa [hi, hw] using hb
  · intro h
    refine BitVec.eq_of_getLsbD_eq fun i hw => ?_
    have hi := h i
    cases hx : x.getLsbD i <;> simp_all

theorem Within.refl (x : BitVec w) : Within x x := within_iff.2 fun _ h => h

theorem Within.trans (hxy : Within x y) (hyz : Within y z) : Within x z :=
  within_iff.2 fun i h => within_iff.1 hyz i (within_iff.1 hxy i h)

theorem Within.antisymm (hxy : Within x y) (hyx : Within y x) : x = y := by
  refine BitVec.eq_of_getLsbD_eq fun i _ => ?_
  exact Bool.eq_iff_iff.2 ⟨within_iff.1 hxy i, within_iff.1 hyx i⟩

theorem and_within_left (x y : BitVec w) : Within (x &&& y) x := within_iff.2 fun i h => by simp at h; exact h.1

theorem and_within_right (x y : BitVec w) : Within (x &&& y) y := within_iff.2 fun i h => by simp at h; exact h.2

theorem within_and (hxy : Within x y) (hxz : Within x z) : Within x (y &&& z) :=
  within_iff.2 fun i h => by simp [within_iff.1 hxy i h, within_iff.1 hxz i h]

theorem within_or_left (x y : BitVec w) : Within x (x ||| y) := within_iff.2 fun i h => by simp [h]

theorem within_or_right (x y : BitVec w) : Within y (x ||| y) := within_iff.2 fun i h => by simp [h]

theorem or_eq_of_within (h : Within x y) : x ||| y = y := by
  refine Within.antisymm (within_iff.2 fun i hi => ?_) (within_or_right x y)
  rcases Bool.or_eq_true_iff.1 (by simpa using hi) with hx | hy
  · exact within_iff.1 h i hx
  · exact hy

theorem and_eq_of_within (h : Within y x) : x &&& y = y :=
  Within.antisymm (and_within_right x y) (within_and h (Within.refl y))

end Lunule.BitSet
