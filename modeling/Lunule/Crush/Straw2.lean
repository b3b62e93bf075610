import Lunule.Crush.Ln
import Lunule.Lib.FirstMax

/-!
# straw2 buckets

Every item of a straw2 bucket draws a number that depends on its own id and weight only, and the first of the largest
draws wins. An item's draw is the logarithm of a hash, at most zero, divided by its weight, so it grows with the
weight (`straw2Draw_mono`), and an item of weight zero draws less than all others. Hence a change to one item moves
the choice to that item or away from it, and leaves all other choices alone (`straw2_moves_only`).

The hash is arbitrary. Allocations in the builder functions succeed.
-/

namespace Lunule.Crush
open FirstMax List

/-- `crush_bucket_straw2`: the two arrays have the bucket's size. -/
structure Straw2Bucket where
  items : List ℤ
  item_weights : List ℕ
  weight : ℕ
  length_eq : item_weights.length = items.length

/-- `crush_choose_arg`: other ids and weights to use, the latter by position; `none` is a null pointer. -/
structure ChooseArg where
  ids : Option (List ℤ)
  weight_set : Option (List (List ℕ))

def getChooseArgWeights (item_weights : List ℕ) (arg : Option ChooseArg) (position : ℕ) : List ℕ :=
  match arg.bind ChooseArg.weight_set with
  | none => item_weights
  | some ws => ws.getD (if position ≥ ws.length then ws.length - 1 else position) []

def getChooseArgIds (items : List ℤ) (arg : Option ChooseArg) : List ℤ := (arg.bind ChooseArg.ids).getD items

/-- What an item draws, for the hash function `hash3` of the bucket. -/
def straw2Draw (hash3 : ℤ → ℤ → ℤ → ℕ) (x r id : ℤ) (w : ℕ) : ℤ :=
  if w ≠ 0 then
    let u := hash3 x id r &&& 0xffff
    let ln : ℤ := crushLn u - 0x1000000000000
    ln.tdiv w
  else -2 ^ 63

/-- The index at which the loop of `bucket_straw2_choose` ends. -/
def straw2High (hash3 : ℤ → ℤ → ℤ → ℕ) (ids : List ℤ) (weights : List ℕ) (x r : ℤ) : ℕ :=
  scan (zipWith (straw2Draw hash3 x r) ids weights) 0 0 0

/-- `bucket_straw2_choose`; there is no result for an empty bucket. -/
def bucketStraw2Choose (hash3 : ℤ → ℤ → ℤ → ℕ) (bucket : Straw2Bucket) (x r : ℤ) (arg : Option ChooseArg)
    (position : ℕ) : Option ℤ :=
  bucket.items[straw2High hash3 (getChooseArgIds bucket.items arg)
    (getChooseArgWeights bucket.item_weights arg position) x r]?

def crushAdditionIsUnsafe (a b : ℕ) : Bool := 2 ^ 32 - 1 - b < a

variable (bucket : Straw2Bucket)

/-- `crush_add_straw2_bucket_item`; -34 is `-ERANGE`. -/
def crushAddStraw2BucketItem (item : ℤ) (weight : ℕ) : Straw2Bucket × ℤ :=
  if crushAdditionIsUnsafe bucket.weight weight then (bucket, -34)
  else
    (⟨bucket.items ++ [item], bucket.item_weights ++ [weight], bucket.weight + weight, by simp [bucket.length_eq]⟩, 0)

/-- `crush_remove_straw2_bucket_item`; -2 is `-ENOENT`. -/
def crushRemoveStraw2BucketItem (item : ℤ) : Straw2Bucket × ℤ :=
  match bucket.items.findIdx? (· = item) with
  | none => (bucket, -2)
  | some i =>
    (⟨bucket.items.eraseIdx i, bucket.item_weights.eraseIdx i,
      if bucket.item_weights.getD i 0 < bucket.weight then bucket.weight - bucket.item_weights.getD i 0 else 0,
      by rw [length_eraseIdx, length_eraseIdx, bucket.length_eq]⟩, 0)

/-!
### Draws
-/

variable (hash3 : ℤ → ℤ → ℤ → ℕ) (x r : ℤ) {arg arg' : Option ChooseArg} {b b' : Straw2Bucket} {weights : List ℕ}
  {ids : List ℤ}

private theorem straw2Draw_mono (id : ℤ) {w w' : ℕ} (h : w ≤ w') :
    straw2Draw hash3 x r id w ≤ straw2Draw hash3 x r id w' := by
  have hu : hash3 x id r &&& 0xffff < 2 ^ 16 := by
    rw [show 0xffff = 2 ^ 16 - 1 from rfl, Nat.and_two_pow_sub_one_eq_mod]
    exact Nat.mod_lt _ (by decide)
  have hle := crushLn_le hu
  obtain ⟨n, hn, -⟩ : ∃ n : ℕ, ((crushLn (hash3 x id r &&& 0xffff) : ℤ) - 0x1000000000000 = -n) ∧ n ≤ 2 ^ 48 :=
    ⟨2 ^ 48 - crushLn (hash3 x id r &&& 0xffff), by omega, by omega⟩
  have hdraw : ∀ v, v ≠ 0 → straw2Draw hash3 x r id v = -((n / v : ℕ) : ℤ) := by
    intro v hv
    unfold straw2Draw
    simp only [ne_eq, hv, hn, Int.neg_tdiv]
    rfl
  by_cases hw : w = 0
  · subst hw
    by_cases hw' : w' = 0
    · rw [hw']
    · have hdiv := Nat.div_le_self n w'
      rw [hdraw w' hw']
      simp only [straw2Draw]
      omega
  · rw [hdraw w hw, hdraw w' (by omega)]
    have hdiv : n / w' ≤ n / w := Nat.div_le_div_left h (by omega)
    omega

private theorem straw2Draw_pos (id : ℤ) {w : ℕ} (hw : 0 < w) : -2 ^ 63 < straw2Draw hash3 x r id w := by
  refine lt_of_lt_of_le ?_ (straw2Draw_mono hash3 x r id hw)
  simp only [straw2Draw, Nat.cast_succ, Nat.cast_zero, zero_add, Int.tdiv_one]
  omega

private theorem zipWith_set (f : ℤ → ℕ → ℤ) (ids : List ℤ) (weights : List ℕ) (j : ℕ) (w : ℕ) {id : ℤ}
    (hid : ids[j]? = some id) : zipWith f ids (weights.set j w) = (zipWith f ids weights).set j (f id w) := by
  induction ids generalizing weights j with
  | nil => simp at hid
  | cons i ids ih =>
    cases weights with
    | nil => simp
    | cons v weights =>
      cases j with
      | zero =>
        simp only [getElem?_cons_zero, Option.some.injEq] at hid
        simp [hid]
      | succ j =>
        simp [ih weights j hid]

private theorem zipWith_eraseIdx (f : ℤ → ℕ → ℤ) (ids : List ℤ) (weights : List ℕ) (j : ℕ) :
    zipWith f (ids.eraseIdx j) (weights.eraseIdx j) = (zipWith f ids weights).eraseIdx j := by
  induction ids generalizing weights j with
  | nil => simp
  | cons i ids ih =>
    cases weights with
    | nil => simp
    | cons v weights =>
      cases j with
      | zero => rfl
      | succ j => simp [ih weights j]

section
variable (hlen : weights.length = ids.length)
include hlen

private theorem straw2High_isFirstMax (hne : ids ≠ []) :
    ∃ m, IsFirstMax (zipWith (straw2Draw hash3 x r) ids weights) (straw2High hash3 ids weights x r) m := by
  refine scan_isFirstMax ?_ 0 0
  cases ids with
  | nil => exact absurd rfl hne
  | cons i ids =>
    cases weights with
    | nil => simp at hlen
    | cons w weights => simp

theorem straw2High_pos (hpos : ∃ w ∈ weights, 0 < w) : 0 < weights.getD (straw2High hash3 ids weights x r) 0 := by
  obtain ⟨w, hw, hpos⟩ := hpos
  obtain ⟨i, hi, rfl⟩ := getElem_of_mem hw
  obtain ⟨m, hm⟩ := straw2High_isFirstMax hash3 x r hlen (ne_nil_of_length_pos (by omega))
  have hlt := hm.lt_length
  have hat := hm.at_index
  have hle := hm.le i _ (by rw [getElem?_eq_getElem (by simp; omega), getElem_zipWith])
  rw [length_zipWith, hlen, min_self] at hlt
  rw [getElem?_eq_getElem (by simp; omega), getElem_zipWith, Option.some.injEq] at hat
  rw [getD_eq_getElem _ _ (by omega)]
  by_contra h0
  have hdraw := straw2Draw_pos hash3 x r ids[i] hpos
  have hzero : ∀ id, straw2Draw hash3 x r id 0 = -2 ^ 63 := fun _ => if_neg (not_not.2 rfl)
  rw [← hat, Nat.eq_zero_of_not_pos h0, hzero] at hle
  omega

private theorem straw2High_set (hne : ids ≠ []) {j w w₀ : ℕ} (hj : weights[j]? = some w₀) (hw : w₀ ≤ w) :
    straw2High hash3 ids (weights.set j w) x r = j ∨
      straw2High hash3 ids (weights.set j w) x r = straw2High hash3 ids weights x r := by
  obtain ⟨id, hid⟩ : ∃ id, ids[j]? = some id := by
    have hlt := (List.getElem?_eq_some_iff.1 hj).1
    exact ⟨ids[j], getElem?_eq_getElem (by omega)⟩
  have hlen' : (weights.set j w).length = ids.length := by rw [length_set, hlen]
  obtain ⟨m, hm⟩ := straw2High_isFirstMax hash3 x r hlen hne
  obtain ⟨m', hm'⟩ := straw2High_isFirstMax hash3 x r hlen' hne
  rw [zipWith_set _ ids weights j w hid] at hm'
  refine or_iff_not_imp_left.2 fun hmoved => hm.eq_of_set hm' (fun a ha => ?_) hmoved
  rw [getElem?_zipWith, hid, hj] at ha
  obtain rfl := Option.some.inj ha
  exact straw2Draw_mono hash3 x r id hw

private theorem straw2High_concat (hne : ids ≠ []) (id : ℤ) (w : ℕ) :
    straw2High hash3 (ids ++ [id]) (weights ++ [w]) x r = ids.length ∨
      straw2High hash3 (ids ++ [id]) (weights ++ [w]) x r = straw2High hash3 ids weights x r := by
  have hlen' : (weights ++ [w]).length = (ids ++ [id]).length := by simp [hlen]
  obtain ⟨m, hm⟩ := straw2High_isFirstMax hash3 x r hlen hne
  obtain ⟨m', hm'⟩ := straw2High_isFirstMax hash3 x r hlen' (by simp)
  rw [zipWith_append hlen.symm] at hm'
  have h := hm.eq_of_concat hm'
  rwa [length_zipWith, hlen, min_self] at h

private theorem straw2High_eraseIdx {j : ℕ} (hj : j < ids.length) (hkept : straw2High hash3 ids weights x r ≠ j) :
    straw2High hash3 (ids.eraseIdx j) (weights.eraseIdx j) x r =
      if straw2High hash3 ids weights x r < j then straw2High hash3 ids weights x r
      else straw2High hash3 ids weights x r - 1 := by
  have hne : ids ≠ [] := ne_nil_of_length_pos (by omega)
  obtain ⟨m, hm⟩ := straw2High_isFirstMax hash3 x r hlen hne
  have hlt := hm.lt_length
  have hlen' : (weights.eraseIdx j).length = (ids.eraseIdx j).length := by
    rw [length_eraseIdx, length_eraseIdx, hlen]
  have hne' : ids.eraseIdx j ≠ [] := by
    refine ne_nil_of_length_pos ?_
    rw [length_eraseIdx_of_lt hj]
    rw [length_zipWith] at hlt
    omega
  obtain ⟨m', hm'⟩ := straw2High_isFirstMax hash3 x r hlen' hne'
  rw [zipWith_eraseIdx] at hm'
  exact hm.eq_of_eraseIdx hm' hkept

end

/-!
### Choices
-/

/-- The ids and weights that `bucket_straw2_choose` uses have the bucket's size. -/
def ChooseArgFits (arg : Option ChooseArg) (position : ℕ) : Prop :=
  (getChooseArgIds bucket.items arg).length = bucket.items.length ∧
    (getChooseArgWeights bucket.item_weights arg position).length = bucket.items.length

section
variable {position j w w₀ : ℕ} (hne : b.items ≠ []) (hfits : ChooseArgFits b arg position)

include hne hfits

private theorem ChooseArgFits.ids_ne_nil : getChooseArgIds b.items arg ≠ [] := by
  rw [← length_pos_iff, hfits.1, length_pos_iff]
  exact hne

theorem ChooseArgFits.high_lt : straw2High hash3 (getChooseArgIds b.items arg)
    (getChooseArgWeights b.item_weights arg position) x r < b.items.length := by
  obtain ⟨m, hm⟩ := straw2High_isFirstMax hash3 x r (hfits.2.trans hfits.1.symm) (hfits.ids_ne_nil hne)
  have hlt := hm.lt_length
  rwa [length_zipWith, hfits.1, hfits.2, min_self] at hlt

private theorem bucketStraw2Choose_of_added {item id : ℤ} (hitems : b'.items = b.items ++ [item])
    (hids : getChooseArgIds b'.items arg' = getChooseArgIds b.items arg ++ [id])
    (hweights : getChooseArgWeights b'.item_weights arg' position =
      getChooseArgWeights b.item_weights arg position ++ [w]) :
    bucketStraw2Choose hash3 b' x r arg' position = some item ∨
      bucketStraw2Choose hash3 b' x r arg' position = bucketStraw2Choose hash3 b x r arg position := by
  unfold bucketStraw2Choose
  rw [hids, hweights, hitems]
  rcases straw2High_concat hash3 x r (hfits.2.trans hfits.1.symm) (hfits.ids_ne_nil hne) id w with h | h
  · exact .inl (by rw [h, hfits.1, getElem?_concat_length])
  · exact .inr (by rw [h, getElem?_append_left (hfits.high_lt hash3 x r hne)])

variable (hitems : b'.items = b.items) (hids : getChooseArgIds b'.items arg' = getChooseArgIds b.items arg)
  (hj : (getChooseArgWeights b.item_weights arg position)[j]? = some w₀)
  (hset : getChooseArgWeights b'.item_weights arg' position = (getChooseArgWeights b.item_weights arg position).set j w)

include hitems hids hj hset

private theorem bucketStraw2Choose_of_grown (hw : w₀ ≤ w) :
    bucketStraw2Choose hash3 b' x r arg' position = b.items[j]? ∨
      bucketStraw2Choose hash3 b' x r arg' position = bucketStraw2Choose hash3 b x r arg position := by
  unfold bucketStraw2Choose
  rw [hids, hset, hitems]
  rcases straw2High_set hash3 x r (hfits.2.trans hfits.1.symm) (hfits.ids_ne_nil hne) hj hw with h | h
  · exact .inl (by rw [h])
  · exact .inr (by rw [h])

private theorem bucketStraw2Choose_of_shrunk (hw : w ≤ w₀) : bucketStraw2Choose hash3 b x r arg position = b.items[j]? ∨
      bucketStraw2Choose hash3 b' x r arg' position = bucketStraw2Choose hash3 b x r arg position := by
  have hlt := (List.getElem?_eq_some_iff.1 hj).1
  have hfits' : ChooseArgFits b' arg' position := by
    refine ⟨by rw [hids, hitems, hfits.1], ?_⟩
    rw [hset, length_set, hitems, hfits.2]
  have hj' : (getChooseArgWeights b'.item_weights arg' position)[j]? = some w := by
    rw [hset, getElem?_set_self hlt]
  have hset' : getChooseArgWeights b.item_weights arg position =
      (getChooseArgWeights b'.item_weights arg' position).set j w₀ := by
    rw [hset, set_set, ← (List.getElem?_eq_some_iff.1 hj).2, set_getElem_self]
  have h := bucketStraw2Choose_of_grown hash3 x r (by rwa [hitems]) hfits' hitems.symm hids.symm hj' hset' hw
  rw [hitems] at h
  exact h.imp_right Eq.symm

end

private theorem bucketStraw2Choose_of_removed {position j : ℕ} (hfits : ChooseArgFits b arg position)
    (hj : j < b.items.length) (hitems : b'.items = b.items.eraseIdx j)
    (hids : getChooseArgIds b'.items arg' = (getChooseArgIds b.items arg).eraseIdx j)
    (hweights : getChooseArgWeights b'.item_weights arg' position =
      (getChooseArgWeights b.item_weights arg position).eraseIdx j) :
    bucketStraw2Choose hash3 b x r arg position = b.items[j]? ∨
      bucketStraw2Choose hash3 b' x r arg' position = bucketStraw2Choose hash3 b x r arg position := by
  unfold bucketStraw2Choose
  rw [hids, hweights, hitems]
  by_cases h : straw2High hash3 (getChooseArgIds b.items arg)
      (getChooseArgWeights b.item_weights arg position) x r = j
  · exact .inl (by rw [h])
  right
  rw [straw2High_eraseIdx hash3 x r (hfits.2.trans hfits.1.symm) (by rwa [hfits.1]) h, getElem?_eraseIdx]
  -- the entries after the removed one moved down by one
  split
  · rfl
  · rw [if_neg (by omega), Nat.sub_add_cancel (by omega)]

/-- A change to one item of a straw2 bucket moves the choice to that item if its weight grows or it is added, and away
from it if its weight shrinks or it is removed; all other choices stay. A call that fails leaves the bucket alone. -/
theorem straw2_moves_only (b : Straw2Bucket) (hne : b.items ≠ []) (arg : Option ChooseArg) (position : ℕ)
    (hfits : ChooseArgFits b arg position) :
    (∀ (b' : Straw2Bucket) (arg' : Option ChooseArg) (j w w₀ : ℕ), b'.items = b.items →
      getChooseArgIds b'.items arg' = getChooseArgIds b.items arg →
      (getChooseArgWeights b.item_weights arg position)[j]? = some w₀ →
      getChooseArgWeights b'.item_weights arg' position = (getChooseArgWeights b.item_weights arg position).set j w →
      (w₀ ≤ w → bucketStraw2Choose hash3 b' x r arg' position = b.items[j]? ∨
        bucketStraw2Choose hash3 b' x r arg' position = bucketStraw2Choose hash3 b x r arg position) ∧
      (w ≤ w₀ → bucketStraw2Choose hash3 b x r arg position = b.items[j]? ∨
        bucketStraw2Choose hash3 b' x r arg' position = bucketStraw2Choose hash3 b x r arg position)) ∧
    (∀ (item : ℤ) (w : ℕ) (b' : Straw2Bucket) (ret : ℤ), crushAddStraw2BucketItem b item w = (b', ret) →
      (ret ≠ 0 → b' = b) ∧
      (ret = 0 → ∀ (arg' : Option ChooseArg) (id : ℤ) (v : ℕ),
        getChooseArgIds b'.items arg' = getChooseArgIds b.items arg ++ [id] →
        getChooseArgWeights b'.item_weights arg' position = getChooseArgWeights b.item_weights arg position ++ [v] →
        bucketStraw2Choose hash3 b' x r arg' position = some item ∨
          bucketStraw2Choose hash3 b' x r arg' position = bucketStraw2Choose hash3 b x r arg position)) ∧
    ∀ (item : ℤ) (b' : Straw2Bucket) (ret : ℤ), crushRemoveStraw2BucketItem b item = (b', ret) →
      (ret ≠ 0 → b' = b) ∧
      (ret = 0 → ∃ j : ℕ, b.items[j]? = some item ∧ b'.items = b.items.eraseIdx j ∧ ∀ arg' : Option ChooseArg,
        getChooseArgIds b'.items arg' = (getChooseArgIds b.items arg).eraseIdx j →
        getChooseArgWeights b'.item_weights arg' position =
          (getChooseArgWeights b.item_weights arg position).eraseIdx j →
        bucketStraw2Choose hash3 b x r arg position = some item ∨
          bucketStraw2Choose hash3 b' x r arg' position = bucketStraw2Choose hash3 b x r arg position) := by
  refine ⟨fun b' arg' j w w₀ hitems hids hj hset => ⟨fun hw => ?_, fun hw => ?_⟩, fun item w b' ret h => ?_,
    fun item b' ret h => ?_⟩
  · exact bucketStraw2Choose_of_grown hash3 x r hne hfits hitems hids hj hset hw
  · exact bucketStraw2Choose_of_shrunk hash3 x r hne hfits hitems hids hj hset hw
  · unfold crushAddStraw2BucketItem at h
    split at h
    · obtain ⟨rfl, rfl⟩ := Prod.mk.inj h
      exact ⟨fun _ => rfl, fun h0 => absurd h0 (by decide)⟩
    · obtain ⟨rfl, rfl⟩ := Prod.mk.inj h
      exact ⟨fun h0 => absurd rfl h0, fun _ arg' id v => bucketStraw2Choose_of_added hash3 x r hne hfits rfl⟩
  · unfold crushRemoveStraw2BucketItem at h
    split at h
    · obtain ⟨rfl, rfl⟩ := Prod.mk.inj h
      exact ⟨fun _ => rfl, fun h0 => absurd h0 (by decide)⟩
    rename_i j hfind
    obtain ⟨rfl, rfl⟩ := Prod.mk.inj h
    obtain ⟨hj, hitem, -⟩ := findIdx?_eq_some_iff_getElem.1 hfind
    have hget : b.items[j]? = some item := by
      rw [getElem?_eq_getElem hj, of_decide_eq_true hitem]
    refine ⟨fun h0 => absurd rfl h0, fun _ => ⟨j, hget, rfl, fun arg' hids hweights => ?_⟩⟩
    rw [← hget]
    exact bucketStraw2Choose_of_removed hash3 x r hfits hj rfl hids hweights

theorem straw2_moves_only_pair : let hash3 : ℤ → ℤ → ℤ → ℕ := fun x id r => (x * 7919 + id * 104729 + r).toNat
    let b : Straw2Bucket := ⟨[4, 7], [1, 2], 3, rfl⟩
    let lowered : Straw2Bucket := ⟨[4, 7], [1, 0], 1, rfl⟩
    let added : Straw2Bucket := ⟨[4, 7, 9], [1, 2, 1], 4, rfl⟩
    let removed : Straw2Bucket := ⟨[7], [2], 2, rfl⟩
    (bucketStraw2Choose hash3 b 3 1 none 0 = some 7 ∨
      bucketStraw2Choose hash3 lowered 3 1 none 0 = bucketStraw2Choose hash3 b 3 1 none 0) ∧
    (bucketStraw2Choose hash3 added 3 1 none 0 = some 9 ∨
      bucketStraw2Choose hash3 added 3 1 none 0 = bucketStraw2Choose hash3 b 3 1 none 0) ∧
    (bucketStraw2Choose hash3 b 3 1 none 0 = some 4 ∨
      bucketStraw2Choose hash3 removed 3 1 none 0 = bucketStraw2Choose hash3 b 3 1 none 0) := by
  intro hash3 b lowered added removed
  obtain ⟨hweight, hadd, hremove⟩ := straw2_moves_only hash3 3 1 b (by decide) none 0 ⟨rfl, rfl⟩
  obtain ⟨j, hj, -, hrest⟩ := (hremove 4 removed 0 rfl).2 rfl
  obtain rfl : j = 0 := by
    match j, hj with
    | 0, _ => rfl
    | 1, hj => exact absurd hj (by decide)
  exact ⟨(hweight lowered none 1 0 2 rfl rfl rfl rfl).2 (Nat.zero_le _),
    (hadd 9 1 added 0 rfl).2 rfl none 9 1 rfl rfl, hrest none rfl rfl⟩

end Lunule.Crush
