import Lunule.Crush.Bucket
import Lunule.Lib.Exec

/-!
# Building list buckets

The sums of a list bucket move with every change of a weight. `crush_reweight_list_bucket` takes over the weights of
child buckets but not the sums, which therefore hold as long as it finds the weights that were there (`listSums_kept`).
Allocations succeed.
-/

namespace Lunule.Crush
open Exec List

structure ListEntry where
  item : ℤ
  item_weight : ℕ
  sum_weight : ℕ

/-- `crush_bucket_list`. -/
structure ListBucket where
  entries : List ListEntry
  weight : ℕ

namespace ListBucket
variable (bucket : ListBucket)

/-- `crush_add_list_bucket_item`. -/
def addItem (item : ℤ) (weight : ℕ) : ListBucket × ℤ :=
  match bucket.entries.getLast? with
  | some last =>
    if crushAdditionIsUnsafe last.sum_weight weight then (bucket, -34)
    else (⟨bucket.entries ++ [⟨item, weight, last.sum_weight + weight⟩], (bucket.weight + weight) % 2 ^ 32⟩, 0)
  | none => (⟨[⟨item, weight, weight⟩], (bucket.weight + weight) % 2 ^ 32⟩, 0)

def shift (diff : ℕ) (e : ListEntry) : ListEntry := { e with sum_weight := (e.sum_weight + diff) % 2 ^ 32 }

/-- `crush_remove_list_bucket_item`. -/
def removeItem (item : ℤ) : ListBucket × ℤ :=
  match bucket.entries.dropWhile (·.item ≠ item) with
  | [] => (bucket, -2)
  | e :: after =>
    (⟨bucket.entries.takeWhile (·.item ≠ item) ++ after.map (shift (2 ^ 32 - e.item_weight)),
      if e.item_weight < bucket.weight then bucket.weight - e.item_weight else 0⟩, 0)

/-- `crush_adjust_list_bucket_item_weight`, without the difference that it returns. -/
def adjustItemWeight (item : ℤ) (weight : ℕ) : ListBucket :=
  match bucket.entries.dropWhile (·.item ≠ item) with
  | [] => bucket
  | e :: after =>
    let diff := weight + (2 ^ 32 - e.item_weight)
    ⟨bucket.entries.takeWhile (·.item ≠ item) ++ ({ e with item_weight := weight } :: after).map (shift diff),
      (bucket.weight + diff) % 2 ^ 32⟩

/-- The loop of `crush_reweight_list_bucket`: the entries, the weight and the code returned. -/
def reweightLoop (child : ℤ → ℕ) : ℕ → List ListEntry → List ListEntry × ℕ × ℤ
  | w, [] => ([], w, 0)
  | w, e :: rest =>
    let e := if e.item < 0 then { e with item_weight := child e.item } else e
    if crushAdditionIsUnsafe w e.item_weight then (e :: rest, w, -34)
    else
      let r := reweightLoop child (w + e.item_weight) rest
      (e :: r.1, r.2)

/-- `crush_reweight_list_bucket`, where `child` has the weights of the child buckets after their own turn. -/
def reweight (child : ℤ → ℕ) : ListBucket × ℤ :=
  let r := reweightLoop child 0 bucket.entries
  (⟨r.1, r.2.1⟩, r.2.2)

inductive Op
  | add (item : ℤ) (weight : ℕ)
  | remove (item : ℤ)
  | adjust (item : ℤ) (weight : ℕ)
  | reweight (child : ℤ → ℕ)

def apply : Op → ListBucket
  | .add item weight => (bucket.addItem item weight).1
  | .remove item => (bucket.removeItem item).1
  | .adjust item weight => bucket.adjustItemWeight item weight
  | .reweight child => (bucket.reweight child).1

def total (entries : List ListEntry) : ℕ := (entries.map (·.item_weight)).sum

/-- The weights add up to less than 2^32 afterwards, and no child bucket has a new weight. -/
def Steady : Op → Prop
  | .reweight child => ∀ e ∈ bucket.entries, e.item < 0 → child e.item = e.item_weight
  | op => total (bucket.apply op).entries < 2 ^ 32

instance (op : Op) : Decidable (bucket.Steady op) :=
  match op with
  | .reweight child => inferInstanceAs (Decidable (∀ e ∈ bucket.entries, e.item < 0 → child e.item = e.item_weight))
  | .add .. | .remove _ | .adjust .. => inferInstanceAs (Decidable (_ < _))

/-- The sums of entries that follow the sum `w`. -/
def Sums : ℕ → List ListEntry → Prop
  | _, [] => True
  | w, e :: rest => e.sum_weight = w + e.item_weight ∧ Sums e.sum_weight rest

structure Inv : Prop where
  sums : Sums 0 bucket.entries
  weight : bucket.weight = total bucket.entries
  fits : bucket.weight < 2 ^ 32

variable {bucket} {w w' diff : ℕ} {es fs : List ListEntry} {op : Op} {child : ℤ → ℕ}

@[simp] theorem total_append : total (es ++ fs) = total es + total fs := by simp [total]
@[simp] theorem total_cons (e : ListEntry) : total (e :: es) = e.item_weight + total es := by simp [total]
@[simp] theorem total_shift : total (es.map (shift diff)) = total es := by simp [total, shift, Function.comp_def]

private theorem sums_append : Sums w (es ++ fs) ↔ Sums w es ∧ Sums (w + total es) fs := by
  induction es generalizing w with
  | nil => simp [Sums, total]
  | cons e es ih =>
    rw [cons_append, Sums, Sums, ih, total_cons, and_assoc]
    refine and_congr_right fun he => ?_
    rw [he, Nat.add_assoc]

private theorem Sums.shift (h : Sums w es) (hw : (w + diff) % 2 ^ 32 = w') (hlt : w' + total es < 2 ^ 32) :
    Sums w' (es.map (shift diff)) := by
  induction es generalizing w w' with
  | nil => trivial
  | cons e es ih =>
    obtain ⟨he, hes⟩ := h
    rw [total_cons] at hlt
    have hsum : (e.sum_weight + diff) % 2 ^ 32 = w' + e.item_weight := by omega
    exact ⟨hsum, ih hes rfl (by show _ % _ + _ < _; omega)⟩

private theorem Sums.getElem? (h : Sums w es) {i : ℕ} {e : ListEntry} (he : es[i]? = some e) :
    e.sum_weight = w + total (es.take (i + 1)) := by
  induction es generalizing w i with
  | nil => simp at he
  | cons a es ih =>
    cases i with
    | zero =>
      obtain rfl : a = e := by simpa using he
      simpa [total] using h.1
    | succ i =>
      rw [ih h.2 (by simpa using he), take_succ_cons, total_cons, h.1, Nat.add_assoc]

private theorem Inv.getLast (h : bucket.Inv) : bucket.weight = (bucket.entries.getLast?.map (·.sum_weight)).getD 0 := by
  rw [h.weight, getLast?_eq_getElem?]
  cases he : bucket.entries[bucket.entries.length - 1]? with
  | none =>
    have : bucket.entries.length = 0 := by
      have := getElem?_eq_none_iff.1 he
      omega
    rw [length_eq_zero_iff.1 this]
    rfl
  | some e =>
    have := h.sums.getElem? he
    rw [take_of_length_le (by omega)] at this
    simp [this]

private theorem Inv.addItem (h : bucket.Inv) {item : ℤ} {weight : ℕ}
    (hfit : total (bucket.addItem item weight).1.entries < 2 ^ 32) : (bucket.addItem item weight).1.Inv := by
  have hlast := h.getLast
  have hw := h.weight
  unfold ListBucket.addItem at hfit ⊢
  cases hl : bucket.entries.getLast? with
  | none =>
    rw [getLast?_eq_none_iff.1 hl] at hw
    simp only [hl] at hfit hw ⊢
    exact ⟨⟨(Nat.zero_add _).symm, trivial⟩, by simpa [total, hw] using hfit, Nat.mod_lt _ (by decide)⟩
  | some last =>
    rw [hl] at hlast
    simp only [hl] at hfit ⊢
    split at hfit
    · rwa [if_pos ‹_›]
    rw [if_neg ‹_›]
    simp only [total_append, ← hw] at hfit
    refine ⟨sums_append.2 ⟨h.sums, ?_, trivial⟩, ?_, Nat.mod_lt _ (by decide)⟩
    · simp [← hw, hlast]
    · simp only [total_append, ← hw]
      exact Nat.mod_eq_of_lt hfit

private theorem Inv.found (h : bucket.Inv) {item : ℤ} {e : ListEntry} {after : List ListEntry}
    (he : bucket.entries.dropWhile (·.item ≠ item) = e :: after) :
    ∃ before, bucket.entries.takeWhile (·.item ≠ item) = before ∧ Sums 0 before ∧
      Sums (total before + e.item_weight) after ∧ bucket.weight = total before + e.item_weight + total after ∧
      e.sum_weight = total before + e.item_weight := by
  have hs := h.sums
  have hw := h.weight
  rw [← takeWhile_append_dropWhile (p := (·.item ≠ item)) (l := bucket.entries), he] at hs hw
  obtain ⟨hbefore, hsum, hafter⟩ := sums_append.1 hs
  rw [Nat.zero_add] at hsum
  rw [total_append, total_cons, ← Nat.add_assoc] at hw
  exact ⟨_, rfl, hbefore, hsum ▸ hafter, hw, hsum⟩

private theorem Inv.removeItem (h : bucket.Inv) (item : ℤ) : (bucket.removeItem item).1.Inv := by
  have hlt := h.fits
  unfold ListBucket.removeItem
  split
  · exact h
  rename_i e after he
  obtain ⟨before, hb, hbefore, hafter, hw, -⟩ := h.found he
  simp only [hb]
  refine ⟨sums_append.2 ⟨hbefore, hafter.shift ?_ ?_⟩, ?_, ?_⟩
  · omega
  · omega
  · simp only [total_append, total_shift]
    split <;> omega
  · dsimp only
    split <;> omega

private theorem Inv.adjustItemWeight (h : bucket.Inv) {item : ℤ} {weight : ℕ}
    (hfit : total (bucket.adjustItemWeight item weight).entries < 2 ^ 32) : (bucket.adjustItemWeight item weight).Inv := by
  have hlt := h.fits
  unfold ListBucket.adjustItemWeight at hfit ⊢
  cases he : bucket.entries.dropWhile (·.item ≠ item) with
  | nil => exact h
  | cons e after =>
    obtain ⟨before, hb, hbefore, hafter, hw, hsum⟩ := h.found he
    simp only [he, hb, total_append, total_shift, total_cons] at hfit ⊢
    have hnew : (e.sum_weight + (weight + (2 ^ 32 - e.item_weight))) % 2 ^ 32 = total before + weight := by omega
    refine ⟨sums_append.2 ⟨hbefore, ?_, hafter.shift (hsum ▸ rfl) ?_⟩, ?_, Nat.mod_lt _ (by decide)⟩
    · rw [Nat.zero_add]
      exact hnew
    · refine lt_of_eq_of_lt (congrArg (· + total after) hnew) ?_
      omega
    · simp only [total_append, total_shift, total_cons]
      omega

private theorem reweightLoop_eq (hchild : ∀ e ∈ es, e.item < 0 → child e.item = e.item_weight)
    (hlt : w + total es < 2 ^ 32) : reweightLoop child w es = (es, w + total es, 0) := by
  induction es generalizing w with
  | nil => rfl
  | cons e es ih =>
    obtain ⟨he, hes⟩ := forall_mem_cons.1 hchild
    have hsame : (if e.item < 0 then { e with item_weight := child e.item } else e) = e := by
      split
      · rw [he ‹_›]
      · rfl
    rw [total_cons] at hlt ⊢
    rw [reweightLoop, hsame, if_neg (by simp only [crushAdditionIsUnsafe, decide_eq_true_eq]; omega), ih hes (by omega)]
    simp only [Nat.add_assoc]

private theorem Inv.apply (h : bucket.Inv) (hok : bucket.Steady op) : (bucket.apply op).Inv := by
  cases op with
  | add item weight => exact h.addItem hok
  | remove item => exact h.removeItem item
  | adjust item weight => exact h.adjustItemWeight hok
  | reweight child =>
    have hfits := h.fits
    rw [h.weight] at hfits
    rw [ListBucket.apply, reweight, reweightLoop_eq hok (by omega), Nat.zero_add]
    exact ⟨h.sums, rfl, hfits⟩

end ListBucket
end Lunule.Crush
