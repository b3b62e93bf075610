import Lunule.IntervalSet.Insert

/-!
# Intersection

Both loops of `intersection_of` walk two lists of intervals from the front. What they keep (`Meets`) is that the result
so far, together with what the two remaining lists share, is the whole intersection, and that the result so far ends
before anything the remaining lists share. Each branch of the loops is one step that keeps it.
-/

namespace Lunule
open Intervals

namespace IntervalSet
variable {p q i : Interval} {pa pb ps l L : List Interval} {acc : IntervalSet} {R S T : Finset Int} {n : Nat}
  {t offset : Int} {a b : IntervalSet} {A B : Finset Int}

/-- Everything in `S` lies before everything in `T`, with a gap. -/
def Before (S T : Finset Int) : Prop := ∀ x ∈ S, ∀ y ∈ T, x + 1 < y

private theorem Rep.push (h : Rep acc S) (hpos : 0 < i.2) (hlt : Before S (range i))
    (hfits : (S ∪ range i).card < 2 ^ 63) : Rep (acc.push i) (S ∪ range i) := by
  have hfirst : i.1 ∈ range i := by
    rw [mem_range, stop]
    omega
  have hsep : ∀ a ∈ acc.m, stop a < i.1 := by
    intro a ha
    have hmem : stop a - 1 ∈ S := by
      rw [← h.elems, mem_elems]
      have := h.canon.lt_stop ha
      exact ⟨a, ha, by omega, by omega⟩
    have := hlt _ hmem _ hfirst
    omega
  have hm : (acc.push i).m = acc.m ++ [i] := emplace_last fun a ha => by
    have := hsep a ha
    have := h.canon.lt_stop ha
    omega
  have hcanon : Canon (acc.m ++ [i]) :=
    canon_append.2 ⟨h.canon, canon_cons.2 ⟨hpos, by simp, canon_nil⟩, fun a ha b hb => by
      rw [List.mem_singleton.1 hb]
      exact hsep a ha⟩
  have helems : Intervals.elems (acc.m ++ [i]) = S ∪ range i := by simp [h.elems]
  have hcard : acc.size + i.2 = (S ∪ range i).card := by
    rw [← helems, hcanon.card_elems, total_append, ← h.canon.card_elems, h.elems, h.size]
    simp
  refine ⟨hm ▸ hcanon, hm ▸ helems, ?_, hfits⟩
  show wrap64 (acc.size + i.2) = _
  rw [hcard]
  exact wrap64_of_lt (by omega) (by exact_mod_cast hfits)

/-- The state of a loop that computes `R`. -/
structure Meets (R : Finset Int) (pa pb : List Interval) (acc : IntervalSet) : Prop where
  left : Canon pa
  right : Canon pb
  rep : ∃ S, Rep acc S ∧ S ∪ elems pa ∩ elems pb = R ∧ Before S (elems pa ∩ elems pb)
  fits : R.card < 2 ^ 63

namespace Meets
section
variable (h : Meets R pa pb acc)
include h

private theorem symm : Meets R pb pa acc := by
  obtain ⟨S, hrep, hR, hbefore⟩ := h.rep
  rw [Finset.inter_comm] at hR hbefore
  exact ⟨h.right, h.left, ⟨S, hrep, hR, hbefore⟩, h.fits⟩

private theorem congr (ha : Canon ps) (hb : Canon l) (heq : elems ps ∩ elems l = elems pa ∩ elems pb) :
    Meets R ps l acc := by
  obtain ⟨S, hrep, hR, hbefore⟩ := h.rep
  rw [← heq] at hR hbefore
  exact ⟨ha, hb, ⟨S, hrep, hR, hbefore⟩, h.fits⟩

private theorem done (hnil : pa = [] ∨ pb = []) : Rep acc R := by
  obtain ⟨S, hrep, hR, -⟩ := h.rep
  have hnone : elems pa ∩ elems pb = ∅ := by
    rcases hnil with rfl | rfl <;> simp
  rw [hnone, Finset.union_empty] at hR
  exact hR ▸ hrep

private theorem push (hpos : 0 < i.2) (ha : Canon ps) (hb : Canon l)
    (heq : elems pa ∩ elems pb = range i ∪ elems ps ∩ elems l) (hlt : Before (range i) (elems ps ∩ elems l)) :
    Meets R ps l (acc.push i) := by
  obtain ⟨S, hrep, hR, hbefore⟩ := h.rep
  rw [heq] at hR hbefore
  rw [← Finset.union_assoc] at hR
  have hle : (S ∪ range i).card ≤ R.card := by
    rw [← hR]
    exact Finset.card_le_card Finset.subset_union_left
  refine ⟨ha, hb, ⟨S ∪ range i, hrep.push hpos (fun x hx y hy => ?_) (lt_of_le_of_lt hle h.fits), hR, ?_⟩, h.fits⟩
  · exact hbefore x hx y (Finset.mem_union_left _ hy)
  · intro x hx y hy
    rcases Finset.mem_union.1 hx with hx | hx
    · exact hbefore x hx y (Finset.mem_union_right _ hy)
    · exact hlt x hx y hy

end

private theorem drop (h : Meets R (p :: pa) (q :: pb) acc) (hpq : stop p ≤ q.1) : Meets R pa (q :: pb) acc :=
  h.congr h.left.tail h.right (inter_drop h.right hpq).symm

private theorem take (h : Meets R (p :: pa) (q :: pb) acc) (hlt : max p.1 q.1 < stop q) (hle : stop q ≤ stop p) :
    Meets R (p :: pa) pb (acc.push (max p.1 q.1, stop q - max p.1 q.1)) := by
  have hrange : range (max p.1 q.1, stop q - max p.1 q.1) = between (max p.1 q.1) (stop q) := by
    unfold range
    congr 1
    show max p.1 q.1 + (stop q - max p.1 q.1) = stop q
    omega
  refine h.push (by simp only; omega) h.left h.right.tail (by rw [hrange]; exact inter_piece h.left hle) ?_
  intro x hx y hy
  rw [hrange, mem_between] at hx
  have := stop_lt_of_mem_inter h.right hy
  omega

private theorem same (h : Meets R (p :: pa) (p :: pb) acc) : Meets R pa pb (acc.push p) := by
  refine h.push (h.left.pos p (by simp)) h.left.tail h.right.tail inter_same fun x hx y hy => ?_
  rw [mem_range] at hx
  have := stop_lt_of_mem_inter h.right hy
  omega

private theorem after_right (h : Meets R pa pb acc) (hge : ∀ x ∈ elems pa, t ≤ x) : Meets R pa (after t pb) acc :=
  h.congr h.left (h.right.suffix (after_suffix t pb)) (inter_after _ hge pb)

private theorem equalRun (h : Meets R pa pb acc) : ∃ c pa' pb' acc', IntervalSet.equalRun pa pb acc = (pa', pb', acc') ∧
    pa = c ++ pa' ∧ pb = c ++ pb' ∧ Meets R pa' pb' acc' := by
  induction pa generalizing pb acc with
  | nil => exact ⟨[], [], pb, acc, by simp [IntervalSet.equalRun], rfl, rfl, h⟩
  | cons p pa ih =>
    cases pb with
    | nil => exact ⟨[], p :: pa, [], acc, by simp [IntervalSet.equalRun], rfl, rfl, h⟩
    | cons q pb =>
      by_cases hpq : p = q
      · subst hpq
        obtain ⟨c, pa', pb', acc', hrun, rfl, rfl, hm⟩ := ih h.same
        exact ⟨p :: c, pa', pb', acc', by simp [IntervalSet.equalRun, hrun], rfl, rfl, hm⟩
      · exact ⟨[], p :: pa, q :: pb, acc, by simp [IntervalSet.equalRun, hpq], rfl, rfl, h⟩

private theorem equalRun_cons (h : Meets R (p :: pa) (p :: pb) acc) : ∃ c pa' pb' acc',
    IntervalSet.equalRun (p :: pa) (p :: pb) acc = (pa', pb', acc') ∧ pa = c ++ pa' ∧ pb = c ++ pb' ∧
      Meets R pa' pb' acc' := by
  obtain ⟨c, pa', pb', acc', hrun, rfl, rfl, hm⟩ := h.same.equalRun
  exact ⟨c, pa', pb', acc', by simp [IntervalSet.equalRun, hrun], rfl, rfl, hm⟩

end Meets

theorem intersectionLoop_spec (h : Meets R pa pb acc) (hn : pa.length + pb.length < n) :
    ∃ t, intersectionLoop n pa pb acc = some t ∧ Rep t R := by
  induction n generalizing pa pb acc with
  | zero => omega
  | succ n ih =>
    cases pa with
    | nil => exact ⟨acc, rfl, h.done (.inl rfl)⟩
    | cons p pa =>
      cases pb with
      | nil => exact ⟨acc, rfl, h.done (.inr rfl)⟩
      | cons q pb =>
        simp only [List.length_cons] at hn
        have hp := h.left.lt_stop (i := p) (by simp)
        have hq := h.right.lt_stop (i := q) (by simp)
        simp only [intersectionLoop, show ∀ iv : Interval, iv.1 + iv.2 = stop iv from fun _ => rfl]
        by_cases h1 : stop p ≤ q.1
        · rw [if_pos h1]
          exact ih (h.drop h1) (by simp only [List.length_cons]; omega)
        rw [if_neg h1]
        by_cases h2 : stop q ≤ p.1
        · rw [if_pos h2]
          exact ih (h.symm.drop h2).symm (by simp only [List.length_cons]; omega)
        rw [if_neg h2]
        by_cases hpq : p = q
        · subst hpq
          obtain ⟨c, pa', pb', acc', hrun, rfl, rfl, hm⟩ := h.equalRun_cons
          rw [if_pos rfl, hrun]
          simp only [List.length_append] at hn
          exact ih hm (by show pa'.length + pb'.length < n; omega)
        rw [if_neg hpq, if_neg (by omega)]
        by_cases h3 : stop p > stop q
        · rw [if_pos h3, show min (stop p) (stop q) = stop q by omega]
          exact ih (h.take (by omega) (by omega)) (by simp only [List.length_cons]; omega)
        · rw [if_neg h3, show min (stop p) (stop q) = stop p by omega, max_comm]
          exact ih (h.symm.take (by omega) (by omega)).symm (by simp only [List.length_cons]; omega)

/-! ### The search for a small set -/

private theorem Meets.seek (h : Meets R (p :: ps) L acc) (hL : after t L = after t l) (ht : t ≤ p.1) :
    Meets R (p :: ps) (after t l) acc := by
  rw [← hL]
  exact h.after_right fun x hx => le_trans ht (h.left.first_le hx)

private theorem length_after_le (hL : after t L = after t l) : (after t l).length ≤ L.length := by
  rw [← hL]
  exact (after_suffix t L).length_le

private theorem lt_stop_of_suffix (h : Canon ps) (hhead : ∀ p ∈ ps.head?, offset < stop p) (hsuf : p :: pa <:+ ps) :
    offset < stop p := by
  obtain ⟨c, rfl⟩ := hsuf
  cases c with
  | nil => exact hhead p (by simp)
  | cons a c =>
    have := hhead a (by simp)
    have := (canon_cons.1 h).2.1 p (by simp)
    have := h.lt_stop (i := p) (by simp)
    omega

private theorem asymLoop_spec (hl : Canon l) {prev : Option Int} (h : Meets R ps (after offset l) acc)
    (hhead : ∀ p ∈ ps.head?, offset < stop p) (hprev : ∀ o ∈ prev, o < offset)
    (hn : ps.length + (after offset l).length < n) : ∃ t, asymLoop l n ps offset prev acc = some t ∧ Rep t R := by
  induction n generalizing ps offset prev acc with
  | zero => omega
  | succ n ih =>
    have hnext : (prev.any fun o => decide (offset ≤ o)) = false := by
      cases prev with
      | none => rfl
      | some o => simpa using hprev o rfl
    rw [asymLoop, hnext, findInc_snd hl]
    cases hL : after offset l with
    | nil =>
      rw [hL] at h
      exact ⟨acc, by simp, h.done (.inr rfl)⟩
    | cons pl rest =>
      rw [hL] at h hn
      have hpl : offset < stop pl := lt_stop_of_after hL
      have hlater : ∀ {t}, offset ≤ t → after t (pl :: rest) = after t l := by
        intro t ht
        rw [← hL]
        exact after_after ht l
      have hgo : ∀ {p ps L acc}, Meets R (p :: ps) L acc → after p.1 L = after p.1 l → offset < p.1 →
          ps.length + 1 + (after p.1 l).length < n → ∃ t, asymLoop l n (p :: ps) p.1 (some offset) acc = some t ∧ Rep t R := by
        intro p ps L acc hm hseek hlt hn
        have hp := hm.left.lt_stop (i := p) (by simp)
        exact ih (hm.seek hseek (le_refl _)) (by simpa using hp) (by simpa using hlt) hn
      have hps := (h.symm.after_right (t := pl.1) fun x hx => h.right.first_le hx).symm
      have hlen := (after_suffix pl.1 ps).length_le
      cases hD : after pl.1 ps with
      | nil =>
        rw [hD] at hps
        refine ⟨acc, ?_, hps.done (.inl rfl)⟩
        simp only [show ps.dropWhile (fun p => decide (p.1 + p.2 ≤ pl.1)) = [] from hD]
        rfl
      | cons p ps' =>
        have hp : offset < stop p := lt_stop_of_suffix h.left hhead (hD ▸ after_suffix pl.1 ps)
        have hpl1 : pl.1 < stop p := lt_stop_of_after hD
        rw [hD] at hps hlen
        simp only [List.length_cons] at hn hlen
        have hpin := hps.left.lt_stop (i := p) (by simp)
        have hplin := hps.right.lt_stop (i := pl) (by simp)
        simp only [show ps.dropWhile (fun p => decide (p.1 + p.2 ≤ pl.1)) = p :: ps' from hD, Bool.false_eq_true,
          if_false]
        simp only [show ∀ iv : Interval, iv.1 + iv.2 = stop iv from fun _ => rfl]
        by_cases h1 : stop pl ≤ p.1
        · -- the interval found ends before the small set goes on
          rw [if_pos h1]
          have hseek := hlater (t := p.1) (by omega)
          rw [after_cons_of_le h1] at hseek
          have := length_after_le hseek
          exact hgo hps (hlater (by omega)) (by omega) (by omega)
        rw [if_neg h1]
        by_cases hpq : p = pl
        · subst hpq
          obtain ⟨c, pa', pb', acc', hrun, rfl, rfl, hm⟩ := hps.equalRun_cons
          rw [if_pos rfl, hrun]
          simp only [List.length_append] at hn hlen
          cases pa' with
          | nil => exact ⟨acc', rfl, hm.done (.inl rfl)⟩
          | cons p' ps'' =>
            have hp' : stop p < p'.1 := (canon_cons.1 hps.left).2.1 p' (by simp)
            have hc : ∀ a ∈ p :: c, stop a ≤ p'.1 := by
              intro a ha
              have : stop a < p'.1 := by
                rw [← List.cons_append] at hps
                exact (canon_append.1 hps.left).2.2 a ha p' (by simp)
              omega
            have hseek : after p'.1 pb' = after p'.1 l := by
              rw [← hlater (t := p'.1) (by omega), ← List.cons_append, after_append hc]
            have := length_after_le hseek
            simp only [List.length_cons] at hlen
            exact hgo hm hseek (by omega) (by omega)
        · rw [if_neg hpq, if_neg (by omega)]
          by_cases h3 : stop p ≤ stop pl
          · rw [if_pos h3, show min (stop p) (stop pl) = stop p by omega, max_comm]
            have hm := (hps.symm.take (by omega) h3).symm
            cases ps' with
            | nil => exact ⟨_, rfl, hm.done (.inl rfl)⟩
            | cons p' ps'' =>
              have hp' : stop p < p'.1 := (canon_cons.1 hps.left).2.1 p' (by simp)
              have hseek := hlater (t := p'.1) (by omega)
              have := length_after_le hseek
              simp only [List.length_cons] at this hlen
              exact hgo hm hseek (by omega) (by omega)
          · rw [if_neg h3, show min (stop p) (stop pl) = stop pl by omega]
            have hm := hps.take (by omega) (by omega)
            have hseek : after (stop pl) l = rest := by
              rw [← hlater (t := stop pl) (by omega), after_cons_of_le (le_refl _)]
              cases rest with
              | nil => rfl
              | cons b rest =>
                have := (canon_cons.1 hps.right).2.1 b (by simp)
                have := hps.right.lt_stop (i := b) (by simp)
                exact after_cons_of_lt (by omega)
            exact ih (by rw [hseek]; exact hm) (by simp; omega) (by simp; omega)
              (by rw [hseek]; simp only [List.length_cons]; omega)

/-! ### The intersection -/

theorem meets_start (ha : Rep a A) (hb : Rep b B) : Meets (A ∩ B) a.m b.m {} := by
  refine ⟨ha.canon, hb.canon, ⟨∅, rep_empty, ?_, fun x hx => by simp at hx⟩, ?_⟩
  · rw [Finset.empty_union, ha.elems, hb.elems]
  · exact lt_of_le_of_lt (Finset.card_le_card Finset.inter_subset_left) ha.fits

theorem Rep.intersectionSizeAsym {s l : IntervalSet} (hs : Rep s S) (hl : Rep l T) (hne : S ≠ ∅) :
    ∃ t, IntervalSet.intersectionSizeAsym s l = some t ∧ Rep t (S ∩ T) := by
  have hmeet := meets_start hs hl
  have hm : s.m ≠ [] := fun hm => hne (hs.isEmpty_iff.1 hm)
  unfold IntervalSet.intersectionSizeAsym
  cases hsm : s.m with
  | nil => exact absurd hsm hm
  | cons p ps =>
    rw [hsm] at hmeet
    have hp := hmeet.left.lt_stop (i := p) (by simp)
    have hle := (after_suffix p.1 l.m).length_le
    exact asymLoop_spec hl.canon (hmeet.seek rfl (le_refl _)) (by simpa using hp) (by simp) (by omega)

theorem Rep.intersectionOf (ha : Rep a A) (hb : Rep b B) :
    ∃ t, IntervalSet.intersectionOf a b = some t ∧ Rep t (A ∩ B) := by
  have hsym : ∃ t, intersectionLoop (a.m.length + b.m.length + 1) a.m b.m {} = some t ∧ Rep t (A ∩ B) :=
    intersectionLoop_spec (meets_start ha hb) (by omega)
  unfold IntervalSet.intersectionOf
  by_cases hab : a.size < b.size
  · simp only [hab, if_true]
    by_cases h0 : a.size = 0
    · have hA := ha.size_eq_zero.1 h0
      exact ⟨{}, by simp [h0], by simpa [hA] using rep_empty⟩
    · rw [if_neg h0]
      split
      · exact ha.intersectionSizeAsym hb fun hA => h0 (ha.size_eq_zero.2 hA)
      · exact hsym
  · simp only [hab, if_false]
    by_cases h0 : b.size = 0
    · have hB := hb.size_eq_zero.1 h0
      exact ⟨{}, by simp [h0], by simpa [hB] using rep_empty⟩
    rw [if_neg h0]
    split
    · rw [Finset.inter_comm]
      exact hb.intersectionSizeAsym ha fun hB => h0 (hb.size_eq_zero.2 hB)
    · exact hsym

end IntervalSet
end Lunule
