import Mathlib

/-!
# Ordered maps of ranges

Records of some type each stand for the range of numbers from `start r` up to, not including, `stop r`. A map of them is a
list in order (`Sep`); a position in the map is what lies before it, nearest first, and what lies from it on. Two ways to
look for a number are used by programs that walk such maps: the first range that includes it or lies after it (`seek`), and
the range that includes it (`covering`). `Merged` says that no two neighbours touch and have the same value.
-/

namespace Lunule.RangeMap
open List
variable {ρ α : Type*} (start stop : ρ → ℕ) (val : ρ → α)

/-- Non-empty ranges in order, each before the next. -/
structure Sep (l : List ρ) : Prop where
  apart : l.Pairwise fun r r' => stop r ≤ start r'
  pos : ∀ r ∈ l, start r < stop r

/-- No two neighbours could be one range. -/
def Merged (l : List ρ) : Prop := l.IsChain fun r r' => stop r = start r' → val r ≠ val r'

/-- What the map has at `b`: the value of the range that includes it, which may depend on where in the range `b` is. -/
def lookup (at' : ρ → ℕ → α) : List ρ → ℕ → Option α
  | [], _ => none
  | r :: l, b => if start r ≤ b ∧ b < stop r then some (at' r b) else lookup at' l b

def lowerBound (l : List ρ) (k : ℕ) : List ρ × List ρ :=
  ((l.takeWhile (start · < k)).reverse, l.dropWhile (start · < k))

/-- The position of the first range that includes `k` or lies after it: the lower bound, or one before it. -/
def seek (l : List ρ) (k : ℕ) : List ρ × List ρ :=
  match lowerBound start l k with
  | ([], rest) => ([], rest)
  | (p :: before, rest) => if stop p ≤ k then (p :: before, rest) else (before, p :: rest)

/-- The range right before a position, if it includes `k`. -/
def stepBack (k : ℕ) : List ρ → List ρ → Option (List ρ × ρ × List ρ)
  | [], _ => none
  | p :: before, rest => if stop p ≤ k then none else some (before, p, rest)

/-- The range that includes `k`, with what lies before and after it. -/
def covering (l : List ρ) (k : ℕ) : Option (List ρ × ρ × List ρ) :=
  match lowerBound start l k with
  | (before, []) => stepBack stop k before []
  | (before, p :: rest) => if k < start p then stepBack stop k before (p :: rest) else some (before, p, rest)

section
variable {start stop val} {l l' before rest : List ρ} {r p : ρ} {k : ℕ}

theorem sep_nil : Sep start stop [] := ⟨by simp, by simp⟩

theorem sep_cons : Sep start stop (r :: l) ↔ start r < stop r ∧ (∀ r' ∈ l, stop r ≤ start r') ∧ Sep start stop l := by
  constructor
  · intro h
    obtain ⟨hfirst, hrest⟩ := pairwise_cons.1 h.apart
    exact ⟨h.pos r (by simp), hfirst, hrest, (forall_mem_cons.1 h.pos).2⟩
  · rintro ⟨hpos, hfirst, hl⟩
    refine ⟨pairwise_cons.2 ⟨hfirst, hl.apart⟩, fun a ha => ?_⟩
    rcases mem_cons.1 ha with rfl | ha
    · exact hpos
    · exact hl.pos a ha

theorem sep_append :
    Sep start stop (l ++ l') ↔ Sep start stop l ∧ Sep start stop l' ∧ ∀ r ∈ l, ∀ r' ∈ l', stop r ≤ start r' := by
  induction l with
  | nil => simp [sep_nil]
  | cons r l ih =>
    rw [cons_append, sep_cons, sep_cons, ih]
    simp only [mem_append, forall_mem_cons]
    constructor
    · rintro ⟨hpos, hfirst, hl, hl', hcross⟩
      exact ⟨⟨hpos, fun a ha => hfirst a (.inl ha), hl⟩, hl', fun a ha => hfirst a (.inr ha), hcross⟩
    · rintro ⟨⟨hpos, hfirst, hl⟩, hl', hcross, hcross'⟩
      exact ⟨hpos, fun a ha => ha.elim (hfirst a) (hcross a), hl, hl', hcross'⟩

theorem merged_append : Merged start stop val (l ++ l') ↔ Merged start stop val l ∧ Merged start stop val l' ∧
    ∀ r ∈ l.getLast?, ∀ r' ∈ l'.head?, stop r = start r' → val r ≠ val r' := isChain_append

private theorem Sep.tail (h : Sep start stop (r :: l)) : Sep start stop l := (sep_cons.1 h).2.2

theorem Sep.start_lt (h : Sep start stop (r :: l)) {r' : ρ} (hr : r' ∈ l) : start r < start r' := by
  obtain ⟨hpos, hfirst, -⟩ := sep_cons.1 h
  have := hfirst r' hr
  omega

theorem Sep.eq_of_mem (h : Sep start stop l) {r' : ρ} (hr : r ∈ l) (hr' : r' ∈ l) (hk : start r ≤ k ∧ k < stop r)
    (hk' : start r' ≤ k ∧ k < stop r') : r = r' := by
  by_contra hne
  have hsymm : Std.Symm fun a b : ρ => stop a ≤ start b ∨ stop b ≤ start a := ⟨fun _ _ => Or.symm⟩
  have hpair : l.Pairwise fun a b => stop a ≤ start b ∨ stop b ≤ start a := h.apart.imp Or.inl
  rcases hpair.forall hr hr' hne with hle | hle <;> omega

theorem reverse_cons_append (before rest : List ρ) (p : ρ) :
    (p :: before).reverse ++ rest = before.reverse ++ p :: rest := by simp

private theorem lowerBound_spec (h : Sep start stop l) (hb : lowerBound start l k = (before, rest)) :
    l = before.reverse ++ rest ∧ (∀ r ∈ before, start r < k) ∧ ∀ r ∈ rest, k ≤ start r := by
  cases hb
  refine ⟨by rw [reverse_reverse, takeWhile_append_dropWhile], fun r hr => ?_, fun r hr => ?_⟩
  · simpa using mem_takeWhile_imp (mem_reverse.1 hr)
  -- the first range at the bound starts at `k` or later, and the others after it
  induction l with
  | nil => cases hr
  | cons a l ih =>
    by_cases ha : start a < k
    · rw [dropWhile_cons_of_pos (by simpa using ha)] at hr
      exact ih h.tail hr
    rw [dropWhile_cons_of_neg (by simpa using ha)] at hr
    rcases mem_cons.1 hr with rfl | hr
    · omega
    · have := h.start_lt hr
      omega

private theorem Sep.before_le (h : Sep start stop ((p :: before).reverse ++ rest)) (hr : r ∈ before) :
    stop r ≤ start p := by
  rw [reverse_cons_append] at h
  exact (sep_append.1 h).2.2 r (mem_reverse.2 hr) p (by simp)

theorem seek_spec (h : Sep start stop l) (hs : seek start stop l k = (before, rest)) :
    l = before.reverse ++ rest ∧ (∀ r ∈ before, stop r ≤ k) ∧ ∀ r ∈ rest, k < stop r := by
  unfold seek at hs
  rcases hb : lowerBound start l k with ⟨before0, rest0⟩
  rw [hb] at hs
  obtain ⟨rfl, hlt, hge⟩ := lowerBound_spec h hb
  have hpos := h.pos
  have hrest : ∀ r ∈ rest0, k < stop r := fun r hr =>
    (hge r hr).trans_lt (hpos r (mem_append_right _ hr))
  match before0, hs with
  | [], hs =>
    cases hs
    exact ⟨rfl, by simp, hrest⟩
  | p :: before0, hs =>
    have hold : ∀ r ∈ before0, stop r ≤ k := fun r hr => (h.before_le hr).trans (hlt p (by simp)).le
    dsimp only at hs
    split at hs
    · rename_i hle
      cases hs
      exact ⟨rfl, forall_mem_cons.2 ⟨hle, hold⟩, hrest⟩
    · rename_i hgt
      cases hs
      exact ⟨reverse_cons_append _ _ _, hold, forall_mem_cons.2 ⟨not_le.1 hgt, hrest⟩⟩

private theorem stepBack_eq_some {before0 rest0 : List ρ} : stepBack stop k before0 rest0 = some (before, p, rest) ↔
    before0 = p :: before ∧ rest0 = rest ∧ k < stop p := by
  cases before0 with
  | nil => simp [stepBack]
  | cons q before0 =>
    rw [stepBack]
    split
    · rename_i hle
      simp only [reduceCtorEq, false_iff, not_and]
      rintro ⟨rfl, -⟩ -
      exact not_lt.2 hle
    rename_i hgt
    simp only [Option.some.injEq, Prod.mk.injEq, List.cons.injEq]
    constructor
    · rintro ⟨rfl, rfl, rfl⟩
      exact ⟨⟨rfl, rfl⟩, rfl, not_le.1 hgt⟩
    · rintro ⟨⟨rfl, rfl⟩, rfl, -⟩
      exact ⟨rfl, rfl, rfl⟩

theorem covering_of_mem (h : Sep start stop l) (hr : r ∈ l) (hlo : start r ≤ k) (hhi : k < stop r) :
    ∃ before rest, covering start stop l k = some (before, r, rest) ∧ l = before.reverse ++ r :: rest := by
  unfold covering
  rcases hb : lowerBound start l k with ⟨before, rest⟩
  obtain ⟨rfl, hlt, hge⟩ := lowerBound_spec h hb
  obtain ⟨-, hsep, hcross⟩ := sep_append.1 h
  rcases mem_append.1 hr with hr | hr
  · -- it starts before `k`, so it is the nearest one on the left
    obtain ⟨before', rfl⟩ : ∃ before', before = r :: before' := by
      match before, mem_reverse.1 hr with
      | p :: before, hmem =>
        rcases mem_cons.1 hmem with rfl | hmem
        · exact ⟨before, rfl⟩
        · have := h.before_le hmem
          have := hlt p (by simp)
          omega
    refine ⟨before', rest, ?_, reverse_cons_append _ _ _⟩
    cases rest with
    | nil => exact stepBack_eq_some.2 ⟨rfl, rfl, hhi⟩
    | cons p rest =>
      have := hcross r (by simp) p (by simp)
      exact (if_pos (by omega)).trans (stepBack_eq_some.2 ⟨rfl, rfl, hhi⟩)
  · cases rest with
    | nil => cases hr
    | cons p rest =>
      have hp := hge p (by simp)
      rcases mem_cons.1 hr with rfl | hr
      · exact ⟨before, rest, if_neg (by omega), rfl⟩
      · have := hsep.start_lt hr
        omega

theorem covering_spec (h : Sep start stop l) (hc : covering start stop l k = some (before, p, rest)) :
    l = before.reverse ++ p :: rest ∧ start p ≤ k ∧ k < stop p := by
  unfold covering at hc
  rcases hb : lowerBound start l k with ⟨before0, rest0⟩
  obtain ⟨rfl, hlt, hge⟩ := lowerBound_spec h hb
  rw [hb] at hc
  have hback : stepBack stop k before0 rest0 = some (before, p, rest) →
      before0.reverse ++ rest0 = before.reverse ++ p :: rest ∧ start p ≤ k ∧ k < stop p := by
    intro hfound
    obtain ⟨rfl, rfl, hhi⟩ := stepBack_eq_some.1 hfound
    exact ⟨reverse_cons_append _ _ _, (hlt p (by simp)).le, hhi⟩
  cases rest0 with
  | nil => exact hback hc
  | cons q rest0 =>
    dsimp only at hc
    split at hc
    · exact hback hc
    · rename_i hq
      cases hc
      exact ⟨rfl, not_lt.1 hq, (hge p (by simp)).trans_lt (h.pos p (by simp))⟩

end

section
variable {start stop} {at' : ρ → ℕ → α} {l l' : List ρ} {r : ρ} {b : ℕ}

@[simp] theorem lookup_nil : lookup start stop at' [] b = none := rfl

private theorem lookup_cons : lookup start stop at' (r :: l) b =
    if start r ≤ b ∧ b < stop r then some (at' r b) else lookup start stop at' l b := rfl

theorem lookup_append : lookup start stop at' (l ++ l') b = (lookup start stop at' l b).or (lookup start stop at' l' b) := by
  induction l with
  | nil => rfl
  | cons r l ih =>
    rw [cons_append, lookup_cons, lookup_cons, ih]
    split <;> rfl

theorem lookup_eq_none : lookup start stop at' l b = none ↔ ∀ r ∈ l, ¬(start r ≤ b ∧ b < stop r) := by
  induction l with
  | nil => simp
  | cons r l ih =>
    rw [lookup_cons, forall_mem_cons]
    split
    · rename_i h
      simp [h]
    · rename_i h
      rw [ih]
      exact ⟨fun hl => ⟨h, hl⟩, fun hl => hl.2⟩

end
end Lunule.RangeMap
