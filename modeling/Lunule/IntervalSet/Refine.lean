import Lunule.IntervalSet.Meet

/-!
# Interval sets are finite sets

Every interval set that the operations reach stands for a finite set of integers (`Reachable.rep`), and on such sets each
operation returns the interval set of the corresponding set operation (`Reachable.denotes`). Two limits of the code
stand in the hypotheses: a range that is inserted or erased is not empty, and the number of elements fits the 64-bit
field that counts them. Beyond them it asserts or loses count (`denotes_limits`).
-/

namespace Lunule
open Intervals IntervalSet Option
open Finset (ext_iff empty_union card_le_card mem_union mem_filter union_empty union_assoc filter_union)

namespace IntervalSet
variable {s t a b : IntervalSet} {S A B : Finset Int} {m ps : List Interval} {p : Interval} {start en len x : Int}

/-! ### Queries -/

private theorem mem_elems_head (hfirst : p.1 ≤ x) (hlt : x < stop p) : x ∈ elems (p :: m) :=
  Finset.mem_union_left _ (mem_range.2 ⟨hfirst, hlt⟩)

private theorem some_false_eq {P : Prop} [Decidable P] (h : ¬P) : some false = some (decide P) := by simp [h]

private theorem mem_elems_after : x ∈ elems (after x m) ↔ x ∈ elems m := by
  have := inter_after {x} (t := x) (by simp) m
  have hx := Finset.ext_iff.1 this x
  simpa using hx

private theorem Rep.contains (h : Rep s S) (x : Int) : s.contains x = decide (x ∈ S) := by
  rw [← h.elems, IntervalSet.contains, contains?, findInc_snd h.canon, Bool.eq_iff_iff, decide_eq_true_iff,
    ← mem_elems_after]
  have hcanon := h.canon.suffix (after_suffix x s.m)
  cases hL : after x s.m with
  | nil => simp
  | cons p rest =>
    rw [hL] at hcanon
    have hp := lt_stop_of_after hL
    unfold stop at hp
    by_cases hx : p.1 > x
    · have : x ∉ Intervals.elems (p :: rest) := fun hmem => by
        have := hcanon.first_le hmem
        omega
      exact ⟨fun hsome => by simp [hx] at hsome, fun hmem => absurd hmem this⟩
    · have : x ∈ Intervals.elems (p :: rest) := mem_elems_head (by omega) hp
      exact ⟨fun _ => this, fun _ => by simp [hx, show ¬p.1 + p.2 ≤ x by omega]⟩

private theorem span_subset_cons (h : Canon (p :: m)) (hp : start < stop p) (hlen : 0 < len) :
    span start len ⊆ elems (p :: m) ↔ p.1 ≤ start ∧ start + len ≤ stop p := by
  constructor
  · intro hsub
    obtain ⟨iv, hiv, hfirst, hstop⟩ := h.exists_interval (by omega) hsub
    rcases List.mem_cons.1 hiv with rfl | hiv
    · exact ⟨hfirst, hstop⟩
    · have := (canon_cons.1 h).2.1 iv hiv
      omega
  · rintro ⟨hfirst, hstop⟩ x hx
    rw [mem_between] at hx
    exact mem_elems_head (by omega) (by omega)

private theorem subset_after (hS : ∀ x ∈ S, start ≤ x) : S ⊆ elems (after start m) ↔ S ⊆ elems m := by
  rw [← Finset.inter_eq_left, ← Finset.inter_eq_left, inter_after S hS]

private theorem Rep.containsRange (h : Rep s S) (hlen : 0 < len) :
    s.containsRange start len = decide (span start len ⊆ S) := by
  have hge : ∀ x ∈ span start len, start ≤ x := fun x hx => (mem_between.1 hx).1
  rw [← h.elems, IntervalSet.containsRange, findInc_snd h.canon, Bool.eq_iff_iff, decide_eq_true_iff, ← subset_after hge]
  have hcanon := h.canon.suffix (after_suffix start s.m)
  cases hL : after start s.m with
  | nil =>
    have : start ∈ span start len := mem_between.2 ⟨le_refl _, by omega⟩
    simp only [Bool.false_eq_true, false_iff]
    exact fun hsub => by simpa using hsub this
  | cons p rest =>
    rw [hL] at hcanon
    have hp := lt_stop_of_after hL
    rw [span_subset_cons hcanon hp hlen]
    unfold stop at *
    by_cases h1 : p.1 > start
    · simp [h1]
    · by_cases h3 : p.1 + p.2 < start + len
      · simp [h3]
      · simp
        omega

private theorem insert_empty (start : Int) (hlen : 0 < len) (hfits : (span start len).card < 2 ^ 63) :
    ∃ t, insert {} start len = some t ∧ Rep t (span start len) := by
  rw [← empty_union (span start len)] at hfits ⊢
  exact rep_empty.insert hlen (by simp) hfits

private theorem Rep.intersects (h : Rep s S) (hlen : 0 < len) (hfits : len < 2 ^ 63) :
    s.intersects start len = some (decide (S ∩ span start len ≠ ∅)) := by
  obtain ⟨a, ha, hrep⟩ := insert_empty start hlen (by
    rw [card_between]
    omega)
  obtain ⟨i, hi, hrepi⟩ := h.intersectionOf hrep
  have hempty := hrepi.isEmpty_iff
  rw [IntervalSet.intersects, ha]
  simp only [bind_eq_bind, bind_some, hi]
  cases him : i.m with
  | nil => simp [hempty.1 him]
  | cons p m =>
    have : S ∩ span start len ≠ ∅ := fun hnone => by
      rw [hempty.2 hnone] at him
      simp at him
    simp [this]

/-! ### Unions -/

private theorem Rep.unionOf (ha : Rep a A) (hb : Rep b B) (hfits : (A ∪ B).card < 2 ^ 63) :
    ∃ t, IntervalSet.unionOf a b = some t ∧ Rep t (A ∪ B) := by
  obtain ⟨ab, hab, hrepab⟩ := ha.intersectionOf hb
  obtain ⟨s, hs, hreps⟩ := ha.subtract hrepab Finset.inter_subset_left
  have hunion : A \ (A ∩ B) ∪ B = A ∪ B := by
    rw [Finset.sdiff_inter_self_left, Finset.sdiff_union_self_eq_union]
  obtain ⟨t, ht, hrept⟩ := hreps.insertSet hb (by
    rw [Finset.sdiff_inter_self_left]
    exact Finset.disjoint_sdiff) (by rwa [hunion])
  refine ⟨t, ?_, hunion ▸ hrept⟩
  simp only [IntervalSet.unionOf, bind_eq_bind, hab, hs, bind_some, ht]

theorem Rep.unionInsert (h : Rep s S) (hlen : 0 < len) (hfits : (S ∪ span start len).card < 2 ^ 63) :
    ∃ t, s.unionInsert start len = some t ∧ Rep t (S ∪ span start len) := by
  have hle : (span start len).card ≤ (S ∪ span start len).card := card_le_card Finset.subset_union_right
  obtain ⟨a, ha, hrep⟩ := insert_empty start hlen (lt_of_le_of_lt hle hfits)
  obtain ⟨t, ht, hrept⟩ := h.unionOf hrep hfits
  exact ⟨t, by simp only [IntervalSet.unionInsert, bind_eq_bind, ha, bind_some, ht], hrept⟩

/-! ### Inclusion -/

private theorem skipEqual_spec {pa : List Interval} (pb : List Interval) (ha : Canon pa) :
    ∃ c pa' pb', skipEqual pa pb = (pa', pb') ∧
    pa = c ++ pa' ∧ pb = c ++ pb' ∧ (elems pa ⊆ elems pb ↔ elems pa' ⊆ elems pb') := by
  induction pa generalizing pb with
  | nil => exact ⟨[], [], pb, by simp [skipEqual], rfl, rfl, Iff.rfl⟩
  | cons p pa ih =>
    cases pb with
    | nil => exact ⟨[], p :: pa, [], by simp [skipEqual], rfl, rfl, Iff.rfl⟩
    | cons q pb =>
      by_cases hpq : p = q
      · subst hpq
        obtain ⟨c, pa', pb', hrun, rfl, rfl, hiff⟩ := ih pb ha.tail
        refine ⟨p :: c, pa', pb', by simp [skipEqual, hrun], rfl, rfl, ?_⟩
        rw [← hiff, elems_cons, elems_cons]
        constructor
        · intro hsub x hx
          rcases Finset.mem_union.1 (hsub (Finset.mem_union_right _ hx)) with hxp | hxb
          · exact absurd hx (Finset.disjoint_left.1 ha.disjoint hxp)
          · exact hxb
        · exact fun hsub => Finset.union_subset_union_right hsub
      · exact ⟨[], p :: pa, q :: pb, by simp [skipEqual, hpq], rfl, rfl, Iff.rfl⟩

private theorem subsetLoop_spec {n : Nat} {pa pb : List Interval} (ha : Canon pa) (hb : Canon pb) (hn : pa.length < n) :
    subsetLoop n pa pb = some (decide (elems pa ⊆ elems pb)) := by
  induction n generalizing pa pb with
  | zero => omega
  | succ n ih =>
    cases pa with
    | nil => simp [subsetLoop]
    | cons p pa =>
      have hne : p.1 ∈ elems (p :: pa) := ha.first_mem
      have hno : ∀ {T : Finset Int} {x : Int}, x ∈ elems (p :: pa) → x ∉ T →
          some false = some (decide (elems (p :: pa) ⊆ T)) := fun hx hxT => some_false_eq fun hsub => hxT (hsub hx)
      rw [List.length_cons] at hn
      cases pb with
      | nil =>
        rw [subsetLoop]
        exact hno hne (by simp)
      | cons q pb =>
        have hiff := subset_after (m := q :: pb) fun x hx => ha.first_le (x := x) hx
        have hcanon := hb.suffix (after_suffix p.1 (q :: pb))
        simp only [subsetLoop, ← hiff]
        cases hL : after p.1 (q :: pb) with
        | nil =>
          simp only [show (q :: pb).dropWhile (fun q => decide (q.1 + q.2 ≤ p.1)) = [] from hL]
          exact hno hne (by simp)
        | cons r rest =>
          rw [hL] at hcanon
          have hr := lt_stop_of_after hL
          simp only [show (q :: pb).dropWhile (fun q => decide (q.1 + q.2 ≤ p.1)) = r :: rest from hL]
          simp only [show ∀ iv : Interval, iv.1 + iv.2 = stop iv from fun _ => rfl]
          by_cases hpr : p = r
          · subst hpr
            obtain ⟨c, pa', pb', hrun, rfl, rfl, hskip⟩ := skipEqual_spec rest ha.tail
            obtain ⟨c', pa'', pb'', hrun', h1, h2, hskip'⟩ := skipEqual_spec (p :: (c ++ pb')) ha
            have hrun'' : skipEqual (p :: (c ++ pa')) (p :: (c ++ pb')) = (pa', pb') := by simp [skipEqual, hrun]
            rw [hrun'] at hrun''
            obtain ⟨rfl, rfl⟩ := Prod.mk.inj hrun''
            rw [if_pos rfl, hrun', ih (ha.tail.suffix ⟨c, rfl⟩) (hcanon.tail.suffix ⟨c, rfl⟩) (by
              simp only [List.length_append] at hn
              omega)]
            simp only [hskip']
          · rw [if_neg hpr]
            by_cases h1 : p.1 < r.1
            · rw [if_pos h1]
              refine hno hne fun hmem => ?_
              have := hcanon.first_le hmem
              omega
            rw [if_neg h1]
            by_cases h2 : stop p > stop r
            · -- the integer right after `r` belongs to `p` only
              rw [if_pos h2]
              refine hno (x := stop r) (mem_elems_head (by omega) (by omega)) ?_
              rw [elems_cons, mem_union, mem_range]
              rintro (hmem | hmem)
              · omega
              · have := hcanon.stop_lt hmem
                omega
            · rw [if_neg h2, ih ha.tail hcanon (by omega)]
              have hin : range p ⊆ elems (r :: rest) := by
                intro x hx
                rw [mem_range] at hx
                exact mem_elems_head (by omega) (by omega)
              simp only [elems_cons (i := p), Finset.union_subset_iff, hin, true_and]

private theorem elems_subset_iff : elems m ⊆ S ↔ ∀ p ∈ m, range p ⊆ S := by
  induction m with
  | nil => simp
  | cons p m ih => simp [Finset.union_subset_iff, ih]

private theorem Rep.rangeEnd (h : Rep s S) (hne : S ≠ ∅) : ∃ e, s.rangeEnd = some e ∧ e - 1 ∈ S ∧ ∀ x ∈ S, x < e := by
  have hcanon := h.canon
  have helems := h.elems
  unfold IntervalSet.rangeEnd
  rcases List.eq_nil_or_concat s.m with hm | ⟨init, q, hm⟩
  · exact absurd (h.isEmpty_iff.1 hm) hne
  rw [List.concat_eq_append] at hm
  rw [hm] at hcanon helems
  have hq := hcanon.lt_stop (i := q) (by simp)
  refine ⟨stop q, by simp [hm, stop], ?_, fun x hx => ?_⟩
  · rw [← helems, mem_elems]
    exact ⟨q, by simp, by omega, by omega⟩
  rw [← helems] at hx
  obtain ⟨iv, hiv, -, hx⟩ := mem_elems.1 hx
  rcases List.mem_append.1 hiv with hiv | hiv
  · have := (canon_append.1 hcanon).2.2 iv hiv q (by simp)
    omega
  · rwa [List.mem_singleton.1 hiv] at hx

private theorem Rep.all_containsRange (h : Rep s S) (hb : Rep b B) :
    (s.m.all fun p => b.containsRange p.1 p.2) = decide (S ⊆ B) := by
  rw [← h.elems, Bool.eq_iff_iff, decide_eq_true_iff, elems_subset_iff, List.all_eq_true]
  refine forall₂_congr fun p hp => ?_
  rw [hb.containsRange (h.canon.pos p hp), decide_eq_true_iff]
  exact Iff.rfl

private theorem Rep.subsetOf (h : Rep s S) (hb : Rep b B) : s.subsetOf b = some (decide (S ⊆ B)) := by
  unfold IntervalSet.subsetOf
  by_cases h0 : s.size = 0
  · simp [h0, h.size_eq_zero.1 h0]
  rw [if_neg h0]
  have hS : S ≠ ∅ := fun hS => h0 (h.size_eq_zero.2 hS)
  by_cases hgt : s.size > b.size
  · rw [if_pos hgt]
    refine some_false_eq fun hsub => ?_
    have := card_le_card hsub
    rw [h.size, hb.size] at hgt
    omega
  rw [if_neg hgt]
  have hB : B ≠ ∅ := fun hB => by
    have := hb.size_eq_zero.2 hB
    have := h.size
    omega
  obtain ⟨e, he, hmem, -⟩ := h.rangeEnd hS
  obtain ⟨eb, heb, -, hlt⟩ := hb.rangeEnd hB
  simp only [he, heb, bind_eq_bind, bind_some]
  by_cases hend : e > eb
  · rw [if_pos hend]
    refine some_false_eq fun hsub => ?_
    have := hlt _ (hsub hmem)
    omega
  · rw [if_neg hend]
    split
    · rw [subsetLoop_spec h.canon hb.canon (by omega), h.elems, hb.elems]
    · rw [h.all_containsRange hb]

/-! ### Both ways to intersect and to compare -/

/-- The search for a small set and the walk along both sets return the same interval set, whichever of them the sizes
choose, and so do both ways to decide an inclusion. -/
theorem Rep.fast_paths_agree (ha : Rep a A) (hb : Rep b B) :
    (∃ t, Rep t (A ∩ B) ∧ IntervalSet.intersectionOf a b = some t ∧
      intersectionLoop (a.m.length + b.m.length + 1) a.m b.m {} = some t ∧
      (a.m ≠ [] → IntervalSet.intersectionSizeAsym a b = some t) ∧
      (b.m ≠ [] → IntervalSet.intersectionSizeAsym b a = some t)) ∧
    subsetLoop (a.m.length + 1) a.m b.m = some (a.m.all fun p => b.containsRange p.1 p.2) ∧
    a.subsetOf b = some (a.m.all fun p => b.containsRange p.1 p.2) := by
  refine ⟨?_, ?_, ?_⟩
  · obtain ⟨t, hchosen, ht⟩ := ha.intersectionOf hb
    obtain ⟨u, hloop, hu⟩ := intersectionLoop_spec (meets_start ha hb) (Nat.lt_succ_self _)
    refine ⟨t, ht, hchosen, by rw [hloop, hu.unique ht], fun hne => ?_, fun hne => ?_⟩
    · obtain ⟨v, hasym, hv⟩ := ha.intersectionSizeAsym hb fun hA => hne (ha.isEmpty_iff.2 hA)
      rw [hasym, hv.unique ht]
    · obtain ⟨v, hasym, hv⟩ := hb.intersectionSizeAsym ha fun hB => hne (hb.isEmpty_iff.2 hB)
      rw [Finset.inter_comm] at hv
      rw [hasym, hv.unique ht]
  · rw [subsetLoop_spec ha.canon hb.canon (Nat.lt_succ_self _), ha.elems, hb.elems, ha.all_containsRange hb]
  · rw [ha.subsetOf hb, ha.all_containsRange hb]

theorem fast_paths_agree_thirteen :
    IntervalSet.intersectionOf ⟨[(5, 1)], 1⟩ ⟨[(0, 3), (5, 10)], 13⟩ = some ⟨[(5, 1)], 1⟩ ∧
      intersectionLoop 4 [(5, 1)] [(0, 3), (5, 10)] {} = some ⟨[(5, 1)], 1⟩ := by
  have ha : Rep ⟨[(5, 1)], 1⟩ (elems [(5, 1)]) := ⟨⟨by decide, by decide⟩, rfl, by decide, by decide⟩
  have hb : Rep ⟨[(0, 3), (5, 10)], 13⟩ (elems [(0, 3), (5, 10)]) := ⟨⟨by decide, by decide⟩, rfl, by decide, by decide⟩
  obtain ⟨⟨t, -, hchosen, hloop, -⟩, -⟩ := ha.fast_paths_agree hb
  have ht : some t = some ⟨[(5, 1)], 1⟩ := hchosen.symm.trans (by decide)
  exact ⟨hchosen.trans ht, hloop.trans ht⟩

/-! ### Parts -/

/-- What of the intervals from `start` on lies at or after `start`. -/
def clip (start : Int) : List Interval → List Interval
  | [] => []
  | p :: ps => (max p.1 start, stop p - max p.1 start) :: ps

private theorem canon_clip (h : Canon (after start m)) : Canon (clip start (after start m)) := by
  cases hL : after start m with
  | nil => exact canon_nil
  | cons p ps =>
    rw [hL] at h
    have hp := lt_stop_of_after hL
    have hpin := h.lt_stop (i := p) (by simp)
    obtain ⟨-, hsep, hps⟩ := canon_cons.1 h
    refine canon_cons.2 ⟨by simp only; omega, fun b hb => ?_, hps⟩
    have := hsep b hb
    show max p.1 start + (stop p - max p.1 start) < b.1
    omega

private theorem elems_clip (start : Int) (h : Canon m) :
    elems (clip start (after start m)) = (elems m).filter (start ≤ ·) := by
  have hcanon := h.suffix (after_suffix start m)
  have hfilter : (elems m).filter (start ≤ ·) = (elems (after start m)).filter (start ≤ ·) := by
    ext x
    by_cases hx : start ≤ x
    · have := Finset.ext_iff.1 (inter_after {x} (t := start) (by simpa using hx) m) x
      simpa [hx] using this.symm
    · simp [hx]
  rw [hfilter]
  cases hL : after start m with
  | nil => rfl
  | cons p ps =>
    rw [hL] at hcanon
    have hp := lt_stop_of_after hL
    ext x
    simp only [clip, elems_cons, mem_union, mem_range, mem_filter,
      show stop (max p.1 start, stop p - max p.1 start) = stop p by unfold stop; simp]
    have hrest : x ∈ elems ps → stop p < x := hcanon.stop_lt
    constructor
    · rintro (hx | hx)
      · exact ⟨.inl ⟨by omega, hx.2⟩, by omega⟩
      · have := hrest hx
        exact ⟨.inr hx, by omega⟩
    · rintro ⟨hx | hx, hge⟩
      · exact .inl ⟨by omega, hx.2⟩
      · exact .inr hx

private theorem Rep.insertHead (ha : Rep a A) (hdisj : Disjoint A (range p)) (hfits : (A ∪ (range p ∪ B)).card < 2 ^ 63)
    (hlen : 0 < len) (hle : len ≤ p.2) : ∃ t, a.insert p.1 len = some t ∧ Rep t (A ∪ span p.1 len) := by
  have hsub : span p.1 len ⊆ range p := by
    intro x hx
    rw [mem_between] at hx
    rw [mem_range, stop]
    omega
  refine ha.insert hlen (Finset.disjoint_of_subset_left hsub hdisj.symm) (lt_of_le_of_lt ?_ hfits)
  exact card_le_card (Finset.union_subset_union_right (hsub.trans Finset.subset_union_left))

private theorem subsetRangeLoop_spec (start en : Int) (hps : Canon ps) (hge : ∀ p ∈ ps, start ≤ p.1) (ha : Rep a A)
    (hdisj : Disjoint A (elems ps)) (hfits : (A ∪ elems ps).card < 2 ^ 63) :
    ∃ t, subsetRangeLoop start en ps a = some t ∧ Rep t (A ∪ (elems ps).filter (· < en)) := by
  induction ps generalizing a A with
  | nil => exact ⟨a, rfl, by simpa using ha⟩
  | cons p ps ih =>
    rw [elems_cons] at hdisj hfits
    obtain ⟨hdp, hdps⟩ := Finset.disjoint_union_right.1 hdisj
    rw [subsetRangeLoop, if_neg (by have := hge p (by simp); omega)]
    simp only [show ∀ iv : Interval, iv.1 + iv.2 = stop iv from fun _ => rfl]
    by_cases h1 : p.1 ≥ en
    · rw [if_pos h1]
      refine ⟨a, rfl, ?_⟩
      have hnone : (elems (p :: ps)).filter (· < en) = ∅ := by
        refine Finset.filter_eq_empty_iff.2 fun x hx => ?_
        have := hps.first_le hx
        omega
      rwa [hnone, union_empty]
    · rw [if_neg h1]
      by_cases h2 : stop p ≥ en
      · rw [if_pos h2]
        have hpart : (elems (p :: ps)).filter (· < en) = span p.1 (en - p.1) := by
          ext x
          simp only [elems_cons, mem_filter, mem_union, mem_range, mem_between]
          constructor
          · rintro ⟨hx | hx, hlt⟩
            · omega
            · have := hps.stop_lt hx
              omega
          · intro hx
            exact ⟨.inl ⟨by omega, by omega⟩, by omega⟩
        rw [hpart]
        exact ha.insertHead hdp hfits (by omega) (by unfold stop at h2; omega)
      · rw [if_neg h2]
        obtain ⟨t, ht, hrep⟩ := ha.insertHead hdp hfits (hps.pos p (by simp)) le_rfl
        obtain ⟨u, hu, hrepu⟩ := ih hps.tail (fun q hq => hge q (by simp [hq])) hrep
          (Finset.disjoint_union_left.2 ⟨hdps, hps.disjoint⟩) (by rwa [union_assoc])
        refine ⟨u, by rw [ht]; exact hu, ?_⟩
        have hall : (elems (p :: ps)).filter (· < en) = range p ∪ (elems ps).filter (· < en) := by
          rw [elems_cons, filter_union, Finset.filter_true_of_mem fun x hx => ?_]
          rw [mem_range] at hx
          omega
        rwa [hall, ← union_assoc]

private theorem subsetRange_eq (h : Canon s.m) (hlt : start < en) :
    s.subsetRange start en = subsetRangeLoop start en (clip start (after start s.m)) {} := by
  rw [subsetRange, if_neg (by omega), if_neg (by omega), findInc_snd h]
  cases hL : after start s.m with
  | nil => rfl
  | cons p ps =>
    simp only [clip]
    by_cases h1 : p.1 < start
    · have hen : ¬start ≥ en := by omega
      simp only [h1, show max p.1 start = start by omega, subsetRangeLoop, lt_irrefl, hen,
        show start + (stop p - start) = stop p by omega]
      rfl
    · rw [if_neg h1, show max p.1 start = p.1 by omega, show stop p - p.1 = p.2 by unfold stop; omega]

private theorem Rep.subsetRange (h : Rep s S) (hle : start ≤ en) :
    ∃ t, s.subsetRange start en = some t ∧ Rep t (S.filter fun x => start ≤ x ∧ x < en) := by
  rcases Int.lt_or_eq_of_le hle with hlt | rfl
  · have hcanon := canon_clip (h.canon.suffix (after_suffix start s.m))
    have helems := elems_clip start h.canon
    rw [h.elems] at helems
    obtain ⟨t, ht, hrep⟩ := subsetRangeLoop_spec start en hcanon (fun p hp => by
        have hmem := mem_elems.2 ⟨p, hp, le_refl _, hcanon.lt_stop hp⟩
        rw [helems] at hmem
        exact (Finset.mem_filter.1 hmem).2) rep_empty (by simp) (by
      rw [empty_union, helems]
      exact lt_of_le_of_lt (Finset.card_filter_le _ _) h.fits)
    rw [helems, empty_union, Finset.filter_filter] at hrep
    exact ⟨t, by rw [subsetRange_eq h.canon hlt, ht], hrep⟩
  · refine ⟨{}, by simp [subsetRange], ?_⟩
    rw [Finset.filter_false_of_mem fun x _ => by omega]
    exact rep_empty

/-- The first `len` elements of a set. -/
def firstOf (S : Finset Int) (len : Int) : Finset Int := S.filter fun x => ((S.filter (· < x)).card : Int) < len

private theorem firstOf_nonpos (hlen : len ≤ 0) : firstOf S len = ∅ := Finset.filter_false_of_mem fun x _ => by omega

section
variable (h : Canon (p :: ps))
include h

private theorem card_lt_first (hx : x ∈ range p) :
    (((elems (p :: ps)).filter (· < x)).card : Int) = x - p.1 := by
  rw [mem_range] at hx
  have hbelow : (elems (p :: ps)).filter (· < x) = between p.1 x := by
    ext y
    rw [mem_filter, mem_between]
    constructor
    · exact fun ⟨hy, hlt⟩ => ⟨h.first_le hy, hlt⟩
    · exact fun hy => ⟨mem_elems_head hy.1 (by omega), hy.2⟩
  rw [hbelow, card_between]
  omega

private theorem card_lt_later (hx : x ∈ elems ps) :
    (((elems (p :: ps)).filter (· < x)).card : Int) = p.2 + ((elems ps).filter (· < x)).card := by
  have hlt := h.stop_lt hx
  have hp := h.lt_stop (i := p) (by simp)
  have hbelow : (elems (p :: ps)).filter (· < x) = range p ∪ (elems ps).filter (· < x) := by
    rw [elems_cons, filter_union, Finset.filter_true_of_mem fun y hy => ?_]
    rw [mem_range] at hy
    omega
  have hdisj : Disjoint (range p) ((elems ps).filter (· < x)) :=
    Finset.disjoint_of_subset_right (Finset.filter_subset _ _) h.disjoint
  rw [hbelow, Finset.card_union_of_disjoint hdisj, range, card_between]
  unfold stop at *
  omega

private theorem firstOf_cons_of_le (hle : len ≤ p.2) : firstOf (elems (p :: ps)) len = span p.1 len := by
  ext x
  rw [firstOf, mem_filter, mem_between]
  constructor
  · rintro ⟨hx, hlt⟩
    rcases Finset.mem_union.1 hx with hxp | hxs
    · rw [card_lt_first h hxp] at hlt
      rw [mem_range] at hxp
      omega
    · rw [card_lt_later h hxs] at hlt
      omega
  · intro hx
    have hxp : x ∈ range p := by
      rw [mem_range]
      unfold stop
      omega
    rw [card_lt_first h hxp]
    exact ⟨Finset.mem_union_left _ hxp, by omega⟩

private theorem firstOf_cons_of_lt (hlt : p.2 < len) :
    firstOf (elems (p :: ps)) len = range p ∪ firstOf (elems ps) (len - p.2) := by
  ext x
  rw [firstOf, firstOf, mem_filter, mem_union, mem_filter, elems_cons, mem_union, ← elems_cons]
  constructor
  · rintro ⟨hx | hx, hcard⟩
    · exact .inl hx
    · rw [card_lt_later h hx] at hcard
      exact .inr ⟨hx, by omega⟩
  · rintro (hx | ⟨hx, hcard⟩)
    · rw [card_lt_first h hx]
      rw [mem_range] at hx
      unfold stop at hx
      exact ⟨.inl (mem_range.2 hx), by omega⟩
    · rw [card_lt_later h hx]
      exact ⟨.inr hx, by omega⟩

end

private theorem spanLoop_spec (len : Int) (hps : Canon ps) (ha : Rep a A) (hdisj : Disjoint A (elems ps))
    (hfits : (A ∪ elems ps).card < 2 ^ 63) :
    ∃ t, spanLoop ps len a = some t ∧ Rep t (A ∪ firstOf (elems ps) len) := by
  induction ps generalizing a A len with
  | nil => exact ⟨a, rfl, by simpa [firstOf] using ha⟩
  | cons p ps ih =>
    rw [elems_cons] at hdisj hfits
    obtain ⟨hdp, hdps⟩ := Finset.disjoint_union_right.1 hdisj
    rw [spanLoop]
    by_cases h0 : len ≤ 0
    · rw [if_pos h0, firstOf_nonpos h0, union_empty]
      exact ⟨a, rfl, ha⟩
    rw [if_neg h0]
    by_cases h1 : p.2 < len
    · obtain ⟨t, ht, hrep⟩ := ha.insertHead hdp hfits (hps.pos p (by simp)) le_rfl
      obtain ⟨u, hu, hrepu⟩ := ih (len - p.2) hps.tail hrep
        (Finset.disjoint_union_left.2 ⟨hdps, hps.disjoint⟩) (by rwa [union_assoc])
      refine ⟨u, by rw [if_pos h1, ht]; exact hu, ?_⟩
      rwa [firstOf_cons_of_lt hps h1, ← union_assoc]
    · rw [if_neg h1, firstOf_cons_of_le hps (by omega)]
      exact ha.insertHead hdp hfits (by omega) (by omega)

private theorem spanOf_eq (h : Canon s.m) (hlen : 0 < len) :
    s.spanOf start len = spanLoop (clip start (after start s.m)) len {} := by
  rw [spanOf, findInc_snd h]
  cases hL : after start s.m with
  | nil => rfl
  | cons p ps =>
    have hp := lt_stop_of_after hL
    simp only [clip]
    by_cases h1 : p.1 < start
    · have hmuch : p.2 - (start - p.1) = stop p - start := by unfold stop; omega
      have hiff : p.1 + p.2 < start + len ↔ stop p - start < len := by unfold stop; omega
      simp only [h1, if_true, show ¬p.1 + p.2 < start by omega, show max p.1 start = start by omega, spanLoop,
        show ¬len ≤ 0 by omega, hmuch, hiff]
    · rw [if_neg h1, show max p.1 start = p.1 by omega, show stop p - p.1 = p.2 by unfold stop; omega]

private theorem Rep.spanOf (h : Rep s S) (hlen : 0 < len) :
    ∃ t, s.spanOf start len = some t ∧ Rep t (firstOf (S.filter (start ≤ ·)) len) := by
  have hcanon := canon_clip (h.canon.suffix (after_suffix start s.m))
  have helems := elems_clip start h.canon
  rw [h.elems] at helems
  obtain ⟨t, ht, hrep⟩ := spanLoop_spec len hcanon rep_empty (by simp) (by
    rw [empty_union, helems]
    exact lt_of_le_of_lt (Finset.card_filter_le _ _) h.fits)
  rw [helems, empty_union] at hrep
  exact ⟨t, by rw [spanOf_eq h.canon hlen, ht], hrep⟩

/-! ### Reachable sets -/

/-- The interval sets that the operations build from the empty one. -/
inductive Reachable : IntervalSet → Prop
  | empty : Reachable {}
  | insert {s t : IntervalSet} {start len : Int} (hs : Reachable s) (hlen : 0 < len)
      (hdisj : Disjoint (span start len) (elems s.m)) (hfits : (elems s.m ∪ span start len).card < 2 ^ 63)
      (ht : s.insert start len = some t) : Reachable t
  | erase {s t : IntervalSet} {start len : Int} (hs : Reachable s) (hlen : 0 < len)
      (hsub : span start len ⊆ elems s.m) (ht : s.erase start len = some t) : Reachable t
  | subtract {s a t : IntervalSet} (hs : Reachable s) (ha : Reachable a) (hsub : elems a.m ⊆ elems s.m)
      (ht : s.subtract a = some t) : Reachable t
  | insertSet {s a t : IntervalSet} (hs : Reachable s) (ha : Reachable a) (hdisj : Disjoint (elems a.m) (elems s.m))
      (hfits : (elems s.m ∪ elems a.m).card < 2 ^ 63) (ht : s.insertSet a = some t) : Reachable t
  | unionOf {s a t : IntervalSet} (hs : Reachable s) (ha : Reachable a)
      (hfits : (elems s.m ∪ elems a.m).card < 2 ^ 63) (ht : unionOf s a = some t) : Reachable t
  | unionInsert {s t : IntervalSet} {start len : Int} (hs : Reachable s) (hlen : 0 < len)
      (hfits : (elems s.m ∪ span start len).card < 2 ^ 63) (ht : s.unionInsert start len = some t) : Reachable t
  | intersectionOf {s a t : IntervalSet} (hs : Reachable s) (ha : Reachable a) (ht : intersectionOf s a = some t) :
      Reachable t
  | subsetRange {s t : IntervalSet} {start en : Int} (hs : Reachable s) (hle : start ≤ en)
      (ht : s.subsetRange start en = some t) : Reachable t
  | spanOf {s t : IntervalSet} {start len : Int} (hs : Reachable s) (hlen : 0 < len)
      (ht : s.spanOf start len = some t) : Reachable t

def Denotes (r : Option IntervalSet) (S : Finset Int) : Prop := ∃ t, r = some t ∧ Rep t S

private theorem Denotes.rep {r : Option IntervalSet} (h : Denotes r S) (ht : r = some t) : Rep t (elems t.m) := by
  obtain ⟨u, hu, hrep⟩ := h
  rw [ht, some.injEq] at hu
  rw [hu, hrep.elems]
  exact hrep

private theorem Reachable.rep (h : Reachable s) : Rep s (elems s.m) := by
  induction h with
  | empty => exact rep_empty
  | insert _ hlen hdisj hfits ht ih => exact Denotes.rep (ih.insert hlen hdisj hfits) ht
  | erase _ hlen hsub ht ih => exact Denotes.rep (ih.erase hlen hsub) ht
  | subtract _ _ hsub ht ih iha => exact Denotes.rep (ih.subtract iha hsub) ht
  | insertSet _ _ hdisj hfits ht ih iha => exact Denotes.rep (ih.insertSet iha hdisj hfits) ht
  | unionOf _ _ hfits ht ih iha => exact Denotes.rep (ih.unionOf iha hfits) ht
  | unionInsert _ hlen hfits ht ih => exact Denotes.rep (ih.unionInsert hlen hfits) ht
  | intersectionOf _ _ ht ih iha => exact Denotes.rep (ih.intersectionOf iha) ht
  | subsetRange _ hle ht ih => exact Denotes.rep (ih.subsetRange hle) ht
  | spanOf _ hlen ht ih => exact Denotes.rep (ih.spanOf hlen) ht

/-- Interval sets implement finite sets of integers: the representation is canonical, every operation returns the
interval set of the set operation, and the queries are exact. -/
theorem Reachable.denotes (hs : Reachable s) (ha : Reachable a) : (Canon s.m ∧ s.size = (elems s.m).card) ∧
    (∀ start len, 0 < len → Disjoint (span start len) (elems s.m) → (elems s.m ∪ span start len).card < 2 ^ 63 →
      Denotes (s.insert start len) (elems s.m ∪ span start len)) ∧
    (∀ start len, 0 < len → span start len ⊆ elems s.m → Denotes (s.erase start len) (elems s.m \ span start len)) ∧
    (elems a.m ⊆ elems s.m → Denotes (s.subtract a) (elems s.m \ elems a.m)) ∧
    (Disjoint (elems a.m) (elems s.m) → (elems s.m ∪ elems a.m).card < 2 ^ 63 →
      Denotes (s.insertSet a) (elems s.m ∪ elems a.m)) ∧
    ((elems s.m ∪ elems a.m).card < 2 ^ 63 → Denotes (IntervalSet.unionOf s a) (elems s.m ∪ elems a.m)) ∧
    (∀ start len, 0 < len → (elems s.m ∪ span start len).card < 2 ^ 63 →
      Denotes (s.unionInsert start len) (elems s.m ∪ span start len)) ∧
    Denotes (IntervalSet.intersectionOf s a) (elems s.m ∩ elems a.m) ∧
    (∀ start en, start ≤ en → Denotes (s.subsetRange start en) ((elems s.m).filter fun x => start ≤ x ∧ x < en)) ∧
    (∀ start len, 0 < len → Denotes (s.spanOf start len) (firstOf ((elems s.m).filter (start ≤ ·)) len)) ∧
    (∀ x, s.contains x = decide (x ∈ elems s.m)) ∧
    (∀ start len, 0 < len → s.containsRange start len = decide (span start len ⊆ elems s.m)) ∧
    (∀ start len, 0 < len → len < 2 ^ 63 → s.intersects start len = some (decide (elems s.m ∩ span start len ≠ ∅))) ∧
    s.subsetOf a = some (decide (elems s.m ⊆ elems a.m)) := by
  have h := hs.rep
  have h' := ha.rep
  exact ⟨⟨h.canon, h.size⟩, fun _ _ => h.insert, fun _ _ => h.erase, h.subtract h', h.insertSet h', h.unionOf h',
    fun _ _ => h.unionInsert, h.intersectionOf h', fun _ _ => h.subsetRange, fun _ _ => h.spanOf, h.contains,
    fun _ _ => h.containsRange, fun _ _ => h.intersects, h.subsetOf h'⟩

/-- Three intervals join, and a part of the middle one is erased. -/
theorem reachable_holed : Reachable ⟨[(5, 3), (10, 10)], 13⟩ := by
  have h1 : Reachable ⟨[(5, 5)], 5⟩ := @Reachable.insert _ _ 5 5 .empty (by decide) (by simp) (by decide) rfl
  have h2 : Reachable ⟨[(5, 5), (15, 5)], 10⟩ := @Reachable.insert _ _ 15 5 h1 (by decide) (by decide) (by decide) rfl
  have h3 : Reachable ⟨[(5, 15)], 15⟩ := @Reachable.insert _ _ 10 5 h2 (by decide) (by decide) (by decide) rfl
  exact @Reachable.erase _ _ 8 2 h3 (by decide) (by decide) rfl

private theorem reachable_pair : Reachable ⟨[(0, 6), (12, 4)], 10⟩ := by
  have h1 : Reachable ⟨[(0, 6)], 6⟩ := @Reachable.insert _ _ 0 6 .empty (by decide) (by simp) (by decide) rfl
  exact @Reachable.insert _ _ 12 4 h1 (by decide) (by decide) (by decide) rfl

theorem Reachable.denotes_holed :
    Denotes (IntervalSet.intersectionOf ⟨[(5, 3), (10, 10)], 13⟩ ⟨[(0, 6), (12, 4)], 10⟩) {5, 12, 13, 14, 15} ∧
      IntervalSet.intersects ⟨[(5, 3), (10, 10)], 13⟩ 8 2 = some false :=
  have h := Reachable.denotes reachable_holed reachable_pair
  ⟨h.2.2.2.2.2.2.2.1, h.2.2.2.2.2.2.2.2.2.2.2.2.1 8 2 (by decide) (by decide)⟩

def sampleSet : IntervalSet := ⟨[(5, 10)], 10⟩

/-- The limits: a span of no elements asserts, and so does an insertion of the empty range, though every set is disjoint
from it; and a range of `2 ^ 64 - 1` elements leaves the size at `-1`, so that erasing one of them asserts. -/
theorem denotes_limits : sampleSet.spanOf 8 0 = none ∧ sampleSet.insert 20 0 = none ∧
    (Disjoint (span 20 0) (elems sampleSet.m)) ∧
    (insert {} 0 (2 ^ 64 - 1)).map (·.size) = some (-1) ∧
    ((insert {} 0 (2 ^ 64 - 1)).bind fun s => s.erase 0 1) = none := by
  refine ⟨by decide, by decide, by decide, by decide, by decide⟩

end IntervalSet
end Lunule
