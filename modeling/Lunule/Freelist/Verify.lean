import Lunule.Freelist.Exact

/-!
# The self-check of the bitmap

With `bluestore_debug_freelist` set, `_verify_range` reads the bits of a range before `xor` flips them, and aborts if one
differs from what it should be. Its loops are those of `xor` but for the last: in a range of several keys that one stops
short of the last block.
-/

namespace Lunule.Freelist
open List Config
variable {c : Config} {s : Store} {κ i j offset length : ℕ} {val : Bool}

/-- The blocks that count as errors in a check of those from `a` to `z`: the ones with another bit than `val`, of a key that
is not stored only the first, and of a stored one not `z`, if it is not the key of `a`. -/
def Config.Counted (c : Config) (a z : ℕ) (val : Bool) (s : Store) (b : ℕ) : Prop :=
  bit c s b ≠ val ∧ if valueAt (b / c.blocks_per_key * c.bytes_per_key) s = [] then b = a ∨ b % c.blocks_per_key = 0
    else a / c.blocks_per_key = z / c.blocks_per_key ∨ b ≠ z

instance (a z : ℕ) : DecidablePred (c.Counted a z val s) := fun _ => inferInstanceAs (Decidable (_ ∧ _))

def Config.counted (c : Config) (offset length : ℕ) (val : Bool) (s : Store) : List ℕ :=
  (range' (offset / c.bytes_per_block) (length / c.bytes_per_block)).filter fun b =>
    c.Counted (offset / c.bytes_per_block) ((offset + length - 1) / c.bytes_per_block) val s b

end Lunule.Freelist
