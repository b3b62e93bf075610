import Mathlib

/-!
# Finite sets of integers as lists of intervals

An interval is its first element and its length. A list of intervals is canonical if each is non-empty and ends before
the next one starts with at least one integer in between. `elems` is the set it stands for. On canonical lists the
number of elements is the sum of the lengths, a range of elements lies within one interval (`Canon.exists_interval`),
and the first interval of an intersection can be read off the first intervals of both lists.
-/

namespace Lunule.Intervals
open Finset List

abbrev Interval := Int × Int

def stop (i : Interval) : Int := i.1 + i.2

def between (s t : Int) : Finset Int := (Finset.range (t - s).toNat).image fun n : Nat => s + n

def range (i : Interval) : Finset Int := between i.1 (stop i)

def elems (m : List Interval) : Finset Int := m.foldr (fun i s => range i ∪ s) ∅

def total (m : List Interval) : Int := (m.map (·.2)).sum

structure Canon (m : List Interval) : Prop where
  sep : m.Pairwise fun a b => stop a < b.1
  pos : ∀ i ∈ m, 0 < i.2

variable {m l r : List Interval} {i p q : Interval} {x s t : Int}

@[simp] theorem mem_between : x ∈ between s t ↔ s ≤ x ∧ x < t := by
  rw [between, mem_image]
  constructor
  · rintro ⟨n, hn, rfl⟩
    rw [Finset.mem_range] at hn
    omega
  · intro hx
    exact ⟨(x - s).toNat, by rw [Finset.mem_range]; omega, by omega⟩

theorem card_between (s t : Int) : (between s t).card = (t - s).toNat := by
  have hinj : Function.Injective fun n : Nat => s + n := by
    intro m n h
    simp only at h
    omega
  rw [between, card_image_of_injective _ hinj, card_range]

@[simp] theorem mem_range : x ∈ range i ↔ i.1 ≤ x ∧ x < stop i := by simp [range]
@[simp] theorem elems_nil : elems [] = ∅ := rfl
@[simp] theorem elems_cons : elems (i :: m) = range i ∪ elems m := rfl

@[simp] theorem elems_append : elems (l ++ r) = elems l ∪ elems r := by
  induction l with
  | nil => simp
  | cons a l ih => simp [ih]

theorem mem_elems : x ∈ elems m ↔ ∃ i ∈ m, i.1 ≤ x ∧ x < stop i := by
  induction m with
  | nil => simp
  | cons a m ih => simp [ih]

@[simp] theorem total_nil : total [] = 0 := rfl
@[simp] theorem total_cons : total (i :: m) = i.2 + total m := by simp [total]
@[simp] theorem total_append : total (l ++ r) = total l + total r := by simp [total]

theorem canon_nil : Canon [] := ⟨by simp, by simp⟩

theorem canon_cons : Canon (i :: m) ↔ 0 < i.2 ∧ (∀ b ∈ m, stop i < b.1) ∧ Canon m := by
  constructor
  · intro h
    have hs := pairwise_cons.1 h.sep
    exact ⟨h.pos i (by simp), hs.1, hs.2, fun a ha => h.pos a (by simp [ha])⟩
  · rintro ⟨hp, hb, hm⟩
    exact ⟨pairwise_cons.2 ⟨hb, hm.sep⟩, forall_mem_cons.2 ⟨hp, hm.pos⟩⟩

theorem canon_append : Canon (l ++ r) ↔ Canon l ∧ Canon r ∧ ∀ a ∈ l, ∀ b ∈ r, stop a < b.1 := by
  constructor
  · intro h
    obtain ⟨hl, hr, hlr⟩ := pairwise_append.1 h.sep
    exact ⟨⟨hl, fun a ha => h.pos a (by simp [ha])⟩, ⟨hr, fun a ha => h.pos a (by simp [ha])⟩, hlr⟩
  · rintro ⟨hl, hr, hlr⟩
    exact ⟨pairwise_append.2 ⟨hl.sep, hr.sep, hlr⟩, forall_mem_append.2 ⟨hl.pos, hr.pos⟩⟩

namespace Canon

theorem tail (h : Canon (i :: m)) : Canon m := (canon_cons.1 h).2.2

theorem lt_stop (h : Canon m) (hiv : i ∈ m) : i.1 < stop i := by
  have := h.pos i hiv
  unfold stop
  omega

theorem stop_lt (h : Canon (i :: m)) (hx : x ∈ elems m) : stop i < x := by
  obtain ⟨b, hb, hbx, -⟩ := mem_elems.1 hx
  have := (canon_cons.1 h).2.1 b hb
  omega

theorem first_le (h : Canon (i :: m)) (hx : x ∈ elems (i :: m)) : i.1 ≤ x := by
  rw [elems_cons, mem_union, mem_range] at hx
  have hlt := h.lt_stop (i := i) (by simp)
  rcases hx with hx | hx
  · exact hx.1
  · have := h.stop_lt hx
    omega

theorem first_mem (h : Canon (i :: m)) : i.1 ∈ elems (i :: m) := by
  rw [elems_cons, mem_union, mem_range]
  exact .inl ⟨le_refl _, h.lt_stop (by simp)⟩

private theorem total_nonneg (h : Canon m) : 0 ≤ total m := by
  induction m with
  | nil => simp
  | cons a m ih =>
    have := ih h.tail
    have := h.pos a (by simp)
    rw [total_cons]
    omega

theorem disjoint (h : Canon (i :: m)) : Disjoint (range i) (elems m) := by
  refine disjoint_left.2 fun x hx hxm => ?_
  have := h.stop_lt hxm
  rw [mem_range] at hx
  omega

section
variable (h : Canon m)
include h

theorem card_elems : ((elems m).card : Int) = total m := by
  induction m with
  | nil => simp
  | cons a m ih =>
    have hpos := h.pos a (by simp)
    rw [elems_cons, card_union_of_disjoint h.disjoint, total_cons, ← ih h.tail, range, card_between, stop]
    omega

theorem total_eq_zero : total m = 0 ↔ m = [] := by
  constructor
  · intro h0
    cases m with
    | nil => rfl
    | cons a m =>
      have := h.tail.total_nonneg
      have := h.pos a (by simp)
      rw [total_cons] at h0
      omega
  · rintro rfl
    rfl

/-- A canonical list is determined by its elements. -/
theorem eq_of_elems (h' : Canon l) (heq : elems m = elems l) : m = l := by
  induction m generalizing l with
  | nil =>
    cases l with
    | nil => rfl
    | cons q l => exact absurd (heq ▸ h'.first_mem) (notMem_empty _)
  | cons p m ih =>
    cases l with
    | nil => exact absurd (heq ▸ h.first_mem) (notMem_empty _)
    | cons q l =>
      have hfirst : p.1 = q.1 := le_antisymm (h.first_le (heq ▸ h'.first_mem)) (h'.first_le (heq ▸ h.first_mem))
      -- the first element that is missing ends the first interval
      have hstop : ∀ {p q : Interval} {m l : List Interval}, Canon (p :: m) → Canon (q :: l) → p.1 = q.1 →
          elems (p :: m) = elems (q :: l) → stop q ≤ stop p := by
        intro p q m l h h' hfirst heq
        by_contra hlt
        have hin : stop p ∈ elems (p :: m) := by
          rw [heq, elems_cons, mem_union, mem_range]
          have := h.lt_stop (i := p) (by simp)
          omega
        rw [elems_cons, mem_union, mem_range] at hin
        rcases hin with hin | hin
        · omega
        · exact absurd (h.stop_lt hin) (lt_irrefl _)
      have hpq : p = q := by
        have hs := le_antisymm (hstop h' h hfirst.symm heq.symm) (hstop h h' hfirst heq)
        exact Prod.ext hfirst (by unfold stop at hs; omega)
      subst hpq
      have hsdiff : ∀ {m : List Interval}, Canon (p :: m) → elems (p :: m) \ range p = elems m := fun hm =>
        union_sdiff_cancel_left hm.disjoint
      rw [ih h.tail h'.tail (by rw [← hsdiff h, heq, hsdiff h'])]

private theorem apart (hp : p ∈ m) (hq : q ∈ m) : p = q ∨ stop p < q.1 ∨ stop q < p.1 := by
  by_cases hne : p = q
  · exact .inl hne
  · have : Std.Symm fun c d : Interval => stop c < d.1 ∨ stop d < c.1 := ⟨fun _ _ => Or.symm⟩
    have hpair : m.Pairwise fun c d => stop c < d.1 ∨ stop d < c.1 := h.sep.imp Or.inl
    exact .inr (hpair.forall hp hq hne)

theorem exists_interval (hst : s < t) (hsub : between s t ⊆ elems m) : ∃ i ∈ m, i.1 ≤ s ∧ t ≤ stop i := by
  obtain ⟨a, ha, has, hsa⟩ := mem_elems.1 (hsub (mem_between.2 ⟨le_refl s, hst⟩))
  refine ⟨a, ha, has, ?_⟩
  by_contra hlt
  -- the integer right after `a` would belong to another interval
  obtain ⟨b, hb, hba, hab⟩ := mem_elems.1 (hsub (mem_between.2 ⟨by omega, by omega⟩ : stop a ∈ between s t))
  rcases h.apart ha hb with rfl | hcmp | hcmp <;> omega

end
end Canon

/-! ### The intervals beyond a point -/

def after (t : Int) (m : List Interval) : List Interval := m.dropWhile fun i => decide (stop i ≤ t)

theorem after_cons_of_le (h : stop i ≤ t) : after t (i :: m) = after t m := dropWhile_cons_of_pos (by simpa using h)

theorem after_cons_of_lt (h : t < stop i) : after t (i :: m) = i :: m := dropWhile_cons_of_neg (by simpa using h)

theorem after_append (h : ∀ a ∈ l, stop a ≤ t) : after t (l ++ r) = after t r :=
  dropWhile_append_of_pos fun a ha => by simpa using h a ha

theorem after_suffix (t : Int) (m : List Interval) : after t m <:+ m := dropWhile_suffix _

theorem after_after (hst : s ≤ t) (m : List Interval) : after t (after s m) = after t m := by
  induction m with
  | nil => rfl
  | cons a m ih =>
    by_cases ha : stop a ≤ s
    · rw [after_cons_of_le ha, ih, after_cons_of_le (by omega)]
    · rw [after_cons_of_lt (by omega)]

theorem lt_stop_of_after (h : after t m = i :: l) : t < stop i := by
  have := head?_dropWhile_not (fun i => decide (stop i ≤ t)) m
  rw [show m.dropWhile (fun i => decide (stop i ≤ t)) = i :: l from h] at this
  simpa using this

theorem Canon.suffix (h : Canon m) (hl : l <:+ m) : Canon l := by
  obtain ⟨c, rfl⟩ := hl
  exact (canon_append.1 h).2.1

theorem inter_after (S : Finset Int) (hS : ∀ x ∈ S, t ≤ x) (r : List Interval) :
    S ∩ elems (after t r) = S ∩ elems r := by
  induction r with
  | nil => rfl
  | cons a r ih =>
    by_cases ha : stop a ≤ t
    · rw [after_cons_of_le ha, ih]
      ext x
      simp only [mem_inter, elems_cons, mem_union, mem_range]
      refine ⟨fun ⟨hx, hxr⟩ => ⟨hx, .inr hxr⟩, fun ⟨hx, hxr⟩ => ⟨hx, hxr.resolve_left fun hxa => ?_⟩⟩
      have := hS x hx
      omega
    · rw [after_cons_of_lt (by omega)]

/-! ### Intersections from the front -/

theorem inter_drop (hr : Canon (q :: r)) (hpq : stop p ≤ q.1) :
    elems (p :: l) ∩ elems (q :: r) = elems l ∩ elems (q :: r) := by
  ext x
  rw [mem_inter, mem_inter, elems_cons (i := p), mem_union, mem_range]
  refine ⟨fun ⟨hx, hxr⟩ => ⟨hx.resolve_left fun hxp => ?_, hxr⟩, fun ⟨hx, hxr⟩ => ⟨.inr hx, hxr⟩⟩
  have := hr.first_le hxr
  omega

theorem inter_piece (hl : Canon (p :: l)) (hle : stop q ≤ stop p) :
    elems (p :: l) ∩ elems (q :: r) = between (max p.1 q.1) (stop q) ∪ elems (p :: l) ∩ elems r := by
  ext x
  simp only [mem_inter, mem_union, elems_cons, mem_range, mem_between]
  constructor
  · rintro ⟨hx, hxq | hxr⟩
    · refine .inl ⟨?_, hxq.2⟩
      rcases hx with hx | hx
      · omega
      · have := hl.stop_lt hx
        omega
    · exact .inr ⟨hx, hxr⟩
  · rintro (⟨hx, hxq⟩ | ⟨hx, hxr⟩)
    · exact ⟨.inl ⟨by omega, by omega⟩, .inl ⟨by omega, hxq⟩⟩
    · exact ⟨hx, .inr hxr⟩

theorem stop_lt_of_mem_inter (hr : Canon (q :: r)) (hx : x ∈ elems l ∩ elems r) : stop q < x :=
  hr.stop_lt (mem_inter.1 hx).2

theorem inter_same : elems (p :: l) ∩ elems (p :: r) = range p ∪ elems l ∩ elems r := by
  rw [elems_cons, elems_cons, Finset.union_inter_distrib_left]

end Lunule.Intervals
