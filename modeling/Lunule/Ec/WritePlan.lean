import Lunule.IntervalSet.Refine

/-!
# Write plans of erasure-coded objects

`ECTransaction::get_write_plan` for one operation on one object that has no source object: which stripes have to be
read before the operation can be encoded, which will be written, and how large the object will be. Offsets are
`uint64_t`; `u64` is where a sum can wrap. Extent sets are the interval sets of `interval_set.h`.

`reads`, `writes`, `left`, `Changed`, `Whole` and `Covers` say what a plan has to cover. The rest is about rounding to
stripes and about sets of whole stripes.
-/

namespace Lunule.Ec
open Intervals IntervalSet

def u64 (x : ℤ) : ℤ := x % 2 ^ 64

/-- `stripe_info_t`: the number of data chunks and the width of a stripe. -/
structure StripeInfo where
  stripeSize : ℤ
  stripeWidth : ℤ
  size_pos : 0 < stripeSize := by decide
  width_pos : 0 < stripeWidth := by decide
  dvd : stripeSize ∣ stripeWidth := by decide

namespace StripeInfo
variable (si : StripeInfo)

def chunkSize : ℤ := si.stripeWidth / si.stripeSize

/-- `logical_to_prev_stripe_offset`. -/
def prev (x : ℤ) : ℤ := x - x % si.stripeWidth

/-- `logical_to_next_stripe_offset`. -/
def next (x : ℤ) : ℤ := if x % si.stripeWidth = 0 then x else u64 (x - x % si.stripeWidth + si.stripeWidth)

/-- `get_projected_total_logical_size` of a `HashInfo` with this projected chunk size. -/
def logicalSize (chunks : ℤ) : ℤ := u64 (chunks * (si.stripeWidth / si.chunkSize))

end StripeInfo

inductive BufferUpdate where
  | write
  | zero
  | cloneRange
  deriving DecidableEq

/-- An operation without source object. The buffer updates are an `interval_map`: non-empty and in order. -/
structure ObjectOperation where
  deletesFirst : Bool := false
  truncate : Option (ℤ × ℤ) := none
  bufferUpdates : List (Interval × BufferUpdate)
  ordered : bufferUpdates.Pairwise (fun a b => stop a.1 ≤ b.1.1) := by decide
  nonempty : ∀ e ∈ bufferUpdates, 0 ≤ e.1.1 ∧ 0 < e.1.2 := by decide
  truncate_nonneg : ∀ t ∈ truncate, 0 ≤ t.1 ∧ 0 ≤ t.2 := by decide

/-- The plan for the object; there is no entry in `to_read` until something is to be read. -/
structure Plan where
  projectedSize : ℤ
  toRead : Option IntervalSet := none
  willWrite : IntervalSet := {}

variable (plan : Plan)

def Plan.read (off len : ℤ) : Option Plan :=
  ((plan.toRead.getD {}).unionInsert off len).map fun s => { plan with toRead := some s }

def Plan.write (off len : ℤ) : Option Plan :=
  (plan.willWrite.unionInsert off len).map fun s => { plan with willWrite := s }

/-- A truncate to `size`: the stripe that it cuts is read and written. -/
def planCut (si : StripeInfo) (size : ℤ) : Option Plan :=
  let plan : Plan := { projectedSize := si.next size }
  if size % si.stripeWidth = 0 then some plan
  else (plan.read (si.prev size) si.stripeWidth).bind fun plan => plan.write (si.prev size) si.stripeWidth

def planTruncate (si : StripeInfo) (truncate : Option (ℤ × ℤ)) (size : ℤ) : Option Plan :=
  match truncate with
  | none => some { projectedSize := size }
  | some (first, _) => if first < size then planCut si first else some { projectedSize := size }

def rawWriteSet (updates : List (Interval × BufferUpdate)) : Option IntervalSet :=
  updates.foldlM (fun s e => if e.2 = .cloneRange then none else s.insert e.1.1 e.1.2) {}

/-- Reading a partial head or tail stripe, with the assertions made there. -/
def planStripe (si : StripeInfo) (orig start finish : ℤ) (needed : Prop) [Decidable needed] (plan : Plan) :
    Option Plan :=
  if needed ∧ start < orig then
    if finish ≤ orig ∧ finish - start = si.stripeWidth then plan.read start si.stripeWidth else none
  else some plan

/-- The body of the loop over the raw write set. -/
def planExtent (si : StripeInfo) (orig : ℤ) (plan : Plan) (extent : Interval) : Option Plan :=
  let headFinish := si.next extent.1
  let headStart := if si.prev extent.1 > plan.projectedSize then plan.projectedSize else si.prev extent.1
  let tailStart := si.prev (u64 (extent.1 + extent.2))
  let tailFinish := si.next (u64 (extent.1 + extent.2))
  (planStripe si orig headStart headFinish (headStart ≠ headFinish) plan).bind fun plan =>
    (planStripe si orig tailStart tailFinish
        (tailStart ≠ tailFinish ∧ (headStart = headFinish ∨ tailStart ≠ headStart)) plan).bind fun plan =>
      if headStart ≠ tailFinish then
        if u64 (tailFinish - headStart) % si.stripeWidth = 0 then
          (plan.write headStart (u64 (tailFinish - headStart))).map fun plan =>
            { plan with projectedSize := max plan.projectedSize tailFinish }
        else none
      else if tailFinish ≤ plan.projectedSize then some plan else none

/-- The last truncate of the pair. -/
def planGrow (si : StripeInfo) (truncate : Option (ℤ × ℤ)) (plan : Plan) : Option Plan :=
  match truncate with
  | none => some plan
  | some (_, second) =>
    if second > plan.projectedSize then
      (plan.write plan.projectedSize (u64 (si.next second - plan.projectedSize))).map fun plan =>
        { plan with projectedSize := si.next second }
    else some plan

/-- The plan and the new projected chunk size, from the present one. -/
def getWritePlan (si : StripeInfo) (chunks : ℤ) (op : ObjectOperation) : Option (Plan × ℤ) :=
  let size := if op.deletesFirst then 0 else si.logicalSize chunks
  (planTruncate si op.truncate size).bind fun plan =>
    (rawWriteSet op.bufferUpdates).bind fun raw =>
      (raw.m.foldlM (planExtent si plan.projectedSize) plan).bind fun plan =>
        (planGrow si op.truncate plan).bind fun plan =>
          if plan.projectedSize % si.stripeWidth = 0 ∧ plan.toRead.all (fun s => !s.m.isEmpty) then
            some (plan, u64 (plan.projectedSize / si.stripeWidth * si.chunkSize))
          else none

/-! ### What a plan has to cover -/

def Plan.reads : Finset ℤ := elems (plan.toRead.getD {}).m

def Plan.writes : Finset ℤ := elems plan.willWrite.m

variable (op : ObjectOperation)

def ObjectOperation.updated : Finset ℤ := elems (op.bufferUpdates.map Prod.fst)

def ObjectOperation.left (size : ℤ) : ℤ :=
  let size := if op.deletesFirst then 0 else size
  match op.truncate with
  | none => size
  | some (first, _) => min first size

/-- The stripe at `a` is changed by an update, or cut by the truncate that leaves `left` bytes. -/
def Changed (si : StripeInfo) (op : ObjectOperation) (left a : ℤ) : Prop :=
  (∃ x ∈ span a si.stripeWidth, x ∈ op.updated) ∨ a < left ∧ left < a + si.stripeWidth

def Whole (si : StripeInfo) (S : Finset ℤ) : Prop := ∀ x ∈ S, ∀ y, y / si.stripeWidth = x / si.stripeWidth → y ∈ S

/-- `size` holds the bytes that survive, every update and the size of the last truncate. -/
def Covers (left size : ℤ) : Prop :=
  left ≤ size ∧ (∀ e ∈ op.bufferUpdates, stop e.1 ≤ size) ∧ ∀ t ∈ op.truncate, t.2 ≤ size

/-! ### Rounding -/

section
variable (si : StripeInfo) {a b x y : ℤ}

theorem prev_dvd (x : ℤ) : si.stripeWidth ∣ si.prev x := Int.dvd_self_sub_emod

theorem prev_le (x : ℤ) : si.prev x ≤ x := by
  have := Int.emod_nonneg x si.width_pos.ne'
  unfold StripeInfo.prev
  omega

private theorem lt_prev_add (x : ℤ) : x < si.prev x + si.stripeWidth := by
  have := Int.emod_lt_of_pos x si.width_pos
  unfold StripeInfo.prev
  omega

theorem add_width_le {si : StripeInfo} (ha : si.stripeWidth ∣ a) (hb : si.stripeWidth ∣ b) (hlt : a < b) :
    a + si.stripeWidth ≤ b := by
  have := Int.le_of_dvd (by omega) (Int.dvd_sub hb ha)
  omega

theorem prev_eq (ha : si.stripeWidth ∣ a) (hle : a ≤ x) (hlt : x < a + si.stripeWidth) : si.prev x = a := by
  have h1 := prev_le si x
  have h2 := lt_prev_add si x
  rcases lt_trichotomy (si.prev x) a with h | h | h
  · have := add_width_le (prev_dvd si x) ha h
    omega
  · exact h
  · have := add_width_le ha (prev_dvd si x) h
    omega

theorem prev_nonneg (hx : 0 ≤ x) : 0 ≤ si.prev x := by
  by_contra hneg
  have h1 := add_width_le (prev_dvd si x) (Int.dvd_zero _) (by omega)
  have h2 := lt_prev_add si x
  omega

theorem prev_mono (hxy : x ≤ y) : si.prev x ≤ si.prev y := by
  by_contra hlt
  have h1 := add_width_le (prev_dvd si y) (prev_dvd si x) (by omega)
  have h2 := lt_prev_add si y
  have h3 := prev_le si x
  omega

theorem u64_of_lt (h0 : 0 ≤ x) (h : x < 2 ^ 64) : u64 x = x := Int.emod_eq_of_lt h0 h

theorem next_of_dvd (hx : si.stripeWidth ∣ x) : si.next x = x := if_pos (Int.emod_eq_zero_of_dvd hx)

private theorem prev_of_dvd (hx : si.stripeWidth ∣ x) : si.prev x = x := by
  rw [StripeInfo.prev, Int.emod_eq_zero_of_dvd hx, sub_zero]

theorem next_of_not_dvd (h0 : 0 ≤ x) (hfits : x + si.stripeWidth ≤ 2 ^ 63) (hx : ¬si.stripeWidth ∣ x) :
    si.next x = si.prev x + si.stripeWidth := by
  have h1 := prev_nonneg si h0
  have h2 := prev_le si x
  have hw := si.width_pos
  rw [StripeInfo.next, if_neg fun h => hx (Int.dvd_of_emod_eq_zero h)]
  exact u64_of_lt (by unfold StripeInfo.prev at h1; omega) (by unfold StripeInfo.prev at h2; omega)

variable (h0 : 0 ≤ x) (hfits : x + si.stripeWidth ≤ 2 ^ 63)

include h0 hfits

theorem next_of_ne (hne : si.prev x ≠ si.next x) : si.next x = si.prev x + si.stripeWidth :=
  next_of_not_dvd si h0 hfits fun hd => hne (by rw [prev_of_dvd si hd, next_of_dvd si hd])

theorem round_inside (ha : si.stripeWidth ∣ a) (hlt : a < x) (hlt' : x < a + si.stripeWidth) :
    si.prev x = a ∧ si.next x = a + si.stripeWidth := by
  have hprev : si.prev x = a := prev_eq si ha hlt.le hlt'
  refine ⟨hprev, hprev ▸ next_of_not_dvd si h0 hfits fun hd => ?_⟩
  have := add_width_le ha hd hlt
  omega

theorem next_dvd : si.stripeWidth ∣ si.next x := by
  by_cases hx : si.stripeWidth ∣ x
  · rwa [next_of_dvd si hx]
  · rw [next_of_not_dvd si h0 hfits hx]
    exact Int.dvd_add (prev_dvd si x) (Int.dvd_refl _)

theorem le_next : x ≤ si.next x ∧ si.next x < x + si.stripeWidth := by
  have hw := si.width_pos
  by_cases hx : si.stripeWidth ∣ x
  · rw [next_of_dvd si hx]
    omega
  rw [next_of_not_dvd si h0 hfits hx]
  have h1 := lt_prev_add si x
  have h2 := prev_le si x
  have h3 : si.prev x ≠ x := fun h => hx (h ▸ prev_dvd si x)
  omega

theorem next_le {q : ℤ} (hq : si.stripeWidth ∣ q) (hle : x ≤ q) : si.next x ≤ q := by
  have h1 := le_next si h0 hfits
  by_contra hlt
  have h2 := add_width_le hq (next_dvd si h0 hfits) (by omega)
  omega

end

/-! ### Sets of stripes -/

section
variable {si : StripeInfo} {S T : Finset ℤ} {a len : ℤ}

theorem Whole.union (hS : Whole si S) (hT : Whole si T) : Whole si (S ∪ T) := by
  intro x hx y hy
  rcases Finset.mem_union.1 hx with hx | hx
  · exact Finset.mem_union_left _ (hS x hx y hy)
  · exact Finset.mem_union_right _ (hT x hx y hy)

theorem whole_empty : Whole si ∅ := by simp [Whole]

theorem whole_span (ha : si.stripeWidth ∣ a) (hlen : si.stripeWidth ∣ len) : Whole si (span a len) := by
  intro x hx y hy
  -- aligned bounds do not separate two offsets of one stripe
  have hprev : si.prev y = si.prev x := by
    have hx' := Int.mul_ediv_add_emod x si.stripeWidth
    have hy' := Int.mul_ediv_add_emod y si.stripeWidth
    rw [hy] at hy'
    unfold StripeInfo.prev
    omega
  have h1 := prev_le si y
  have h2 := lt_prev_add si y
  rw [mem_between] at hx ⊢
  constructor
  · have : a ≤ si.prev x := by
      by_contra hlt
      have := add_width_le (prev_dvd si x) ha (by omega)
      have := lt_prev_add si x
      omega
    omega
  · have hlt : si.prev x < a + len := lt_of_le_of_lt (prev_le si x) hx.2
    have := add_width_le (prev_dvd si x) (Int.dvd_add ha hlen) hlt
    omega

def limit : ℤ := 2 ^ 63 - 1

theorem span_subset (h0 : 0 ≤ a) (hle : a + len ≤ limit) : span a len ⊆ between 0 limit := by
  intro x hx
  rw [mem_between] at hx ⊢
  omega

theorem card_lt (hS : S ⊆ between 0 limit) : S.card < 2 ^ 63 := by
  have h := Finset.card_le_card hS
  rw [card_between] at h
  exact lt_of_le_of_lt h (by decide)

end
end Lunule.Ec
