import Mathlib

/-!
# Ranges with and without an end

A range of natural numbers is its first element and its length; the length `0` stands for a range without an end. Two
ranges that overlap or touch have a `join`, and a range that overlaps another is cut into what lies before it and what
lies after it (`cut`).
-/

namespace Lunule

structure Range where
  start : Nat
  length : Nat
deriving DecidableEq

namespace Range
variable {r q p : Range} {b : Nat}

def Covers (r : Range) (b : Nat) : Prop := r.start ≤ b ∧ (r.length = 0 ∨ b < r.start + r.length)

instance : Decidable (r.Covers b) := inferInstanceAs (Decidable (_ ∧ _))

def Overlaps (r q : Range) : Prop :=
  (q.length = 0 ∨ r.start < q.start + q.length) ∧ (r.length = 0 ∨ q.start < r.start + r.length)

instance : Decidable (r.Overlaps q) := inferInstanceAs (Decidable (_ ∧ _))

def Touches (r q : Range) : Prop :=
  (r.length ≠ 0 ∧ r.start + r.length = q.start) ∨ (q.length ≠ 0 ∧ q.start + q.length = r.start)

instance : Decidable (r.Touches q) := inferInstanceAs (Decidable (_ ∨ _))

theorem covers_start (r : Range) : r.Covers r.start := ⟨Nat.le_refl _, by omega⟩

theorem overlaps_iff : r.Overlaps q ↔ ∃ b, r.Covers b ∧ q.Covers b := by
  unfold Overlaps Covers
  constructor
  · intro h
    exact ⟨max r.start q.start, by omega, by omega⟩
  · rintro ⟨b, hr, hq⟩
    omega

theorem Overlaps.symm (h : r.Overlaps q) : q.Overlaps r := ⟨h.2, h.1⟩

theorem overlaps_self (r : Range) : r.Overlaps r := overlaps_iff.2 ⟨r.start, covers_start r, covers_start r⟩

/-! ### The union of two ranges -/

def join (r q : Range) : Range where
  start := min r.start q.start
  length := if r.length = 0 ∨ q.length = 0 then 0 else max (r.start + r.length) (q.start + q.length) - min r.start q.start

theorem covers_join (h : r.Overlaps q ∨ r.Touches q) : (r.join q).Covers b ↔ r.Covers b ∨ q.Covers b := by
  unfold Overlaps Touches at h
  unfold join Covers
  by_cases h0 : r.length = 0 ∨ q.length = 0
  · simp only [if_pos h0, true_or, and_true]
    omega
  · simp only [if_neg h0]
    omega

theorem overlaps_join (h : r.Overlaps q ∨ r.Touches q) : p.Overlaps (r.join q) ↔ p.Overlaps r ∨ p.Overlaps q := by
  simp only [overlaps_iff, covers_join h]
  constructor
  · rintro ⟨b, hp, hr | hq⟩
    · exact .inl ⟨b, hp, hr⟩
    · exact .inr ⟨b, hp, hq⟩
  · rintro (⟨b, hp, hr⟩ | ⟨b, hp, hq⟩)
    · exact ⟨b, hp, .inl hr⟩
    · exact ⟨b, hp, .inr hq⟩

theorem Touches.symm (h : r.Touches q) : q.Touches r := Or.symm h

theorem Touches.not_overlaps (h : r.Touches q) : ¬r.Overlaps q := by
  unfold Touches at h
  unfold Overlaps
  omega

theorem Touches.join (hp : p.Touches r) (hq : r.Overlaps q ∨ r.Touches q) (hpq : ¬p.Overlaps q) :
    p.Touches (r.join q) := by
  unfold Overlaps at hpq hq
  unfold Touches at *
  unfold Range.join
  by_cases h0 : r.length = 0 ∨ q.length = 0
  · simp only [if_pos h0]
    omega
  · simp only [if_neg h0]
    omega

/-! ### What lies outside a range -/

def cut (r q : Range) : List Range :=
  (if r.start < q.start then [⟨r.start, q.start - r.start⟩] else []) ++
    if q.length ≠ 0 ∧ (r.length = 0 ∨ q.start + q.length < r.start + r.length) then
      [⟨q.start + q.length, if r.length = 0 then 0 else r.start + r.length - (q.start + q.length)⟩]
    else []

theorem mem_cut : p ∈ cut r q ↔ (r.start < q.start ∧ p = ⟨r.start, q.start - r.start⟩) ∨
    ((q.length ≠ 0 ∧ (r.length = 0 ∨ q.start + q.length < r.start + r.length)) ∧
      p = ⟨q.start + q.length, if r.length = 0 then 0 else r.start + r.length - (q.start + q.length)⟩) := by
  unfold cut
  rw [List.mem_append]
  refine or_congr ?_ ?_
  · split
    · rename_i h
      simp [h]
    · rename_i h
      simp [h]
  · split
    · rename_i h
      simp [h]
    · rename_i h
      simp [h]

theorem covers_cut (h : r.Overlaps q) : (∃ p ∈ cut r q, p.Covers b) ↔ r.Covers b ∧ ¬q.Covers b := by
  simp only [mem_cut]
  unfold Overlaps at h
  unfold Covers
  constructor
  · rintro ⟨p, ⟨hlt, rfl⟩ | ⟨hlt, rfl⟩, hb⟩
    · simp only at hb
      omega
    · by_cases h0 : r.length = 0
      · simp only [if_pos h0] at hb
        omega
      · simp only [if_neg h0] at hb
        omega
  · rintro ⟨hr, hq⟩
    by_cases hb : b < q.start
    · exact ⟨_, .inl ⟨by omega, rfl⟩, by simp only; omega⟩
    refine ⟨_, .inr ⟨by omega, rfl⟩, by simp only; omega, ?_⟩
    by_cases h0 : r.length = 0
    · exact .inl (if_pos h0)
    · simp only [if_neg h0]
      omega

theorem cut_pairwise (r q : Range) : (cut r q).Pairwise fun a b => ¬a.Overlaps b := by
  unfold cut
  split
  · split
    · rename_i h1 h2
      simp only [List.cons_append, List.nil_append, List.pairwise_cons, List.mem_singleton, forall_eq,
        List.not_mem_nil, false_imp_iff, implies_true, List.Pairwise.nil, and_true]
      unfold Overlaps
      simp only
      omega
    · simp
  · split <;> simp

theorem not_overlaps_of_mem_cut (h : r.Overlaps q) (hp : p ∈ cut r q) : ¬p.Overlaps q := by
  intro ho
  obtain ⟨b, hpb, hqb⟩ := overlaps_iff.1 ho
  exact ((covers_cut h).1 ⟨p, hp, hpb⟩).2 hqb

end Range
end Lunule
