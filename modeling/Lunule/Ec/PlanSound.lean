import Lunule.Ec.WritePlan

/-!
# Write plans cover what they must

`Sound` is the invariant of the loop over the extents that an operation writes. One extent adds to the reads its
partial head and tail stripe, as far as they lie below the old size, and to the writes all its stripes together with
the gap behind the size reached so far. `Ends` says where these stripes lie; after that no rounding is left, and
`planExtent_sound` is about aligned offsets only. Before the loop stands the stripe that a truncate cuts, after it the
stripes that the last truncate needs.
-/

namespace Lunule.Ec
open Intervals IntervalSet
open Finset (union_subset empty_subset empty_union mem_union subset_union_left subset_union_right)

/-! ### Steps of the plan -/

section
variable {plan : Plan}

structure Plan.Formed (plan : Plan) : Prop where
  reads : Rep (plan.toRead.getD {}) plan.reads
  writes : Rep plan.willWrite plan.writes
  entry : ∀ s ∈ plan.toRead, s.m ≠ []

private theorem formed_start (size : ℤ) : Plan.Formed { projectedSize := size } := ⟨rep_empty, rep_empty, by simp⟩

private theorem rep_elems {s : IntervalSet} {S : Finset ℤ} (h : Rep s S) : Rep s (elems s.m) := by
  rw [h.elems]
  exact h

private theorem Plan.Formed.read (h : plan.Formed) (off len : ℤ) (hlen : 0 < len)
    (hin : plan.reads ∪ span off len ⊆ between 0 limit) :
    ∃ plan', plan.read off len = some plan' ∧ plan'.Formed ∧ plan'.projectedSize = plan.projectedSize ∧
      plan'.reads = plan.reads ∪ span off len ∧ plan'.writes = plan.writes := by
  obtain ⟨t, ht, hrep⟩ := h.reads.unionInsert hlen (card_lt hin)
  have helems := hrep.elems
  refine ⟨{ plan with toRead := some t }, by simp [Plan.read, ht], ⟨rep_elems hrep, h.writes, ?_⟩, rfl, helems, rfl⟩
  rintro s ⟨⟩ hnil
  have : off ∈ elems t.m := by
    rw [helems, mem_union, mem_between]
    omega
  simp [hnil] at this

private theorem Plan.Formed.write (h : plan.Formed) (off len : ℤ) (hlen : 0 < len)
    (hin : plan.writes ∪ span off len ⊆ between 0 limit) :
    ∃ plan', plan.write off len = some plan' ∧ plan'.Formed ∧ plan'.projectedSize = plan.projectedSize ∧
      plan'.reads = plan.reads ∧ plan'.writes = plan.writes ∪ span off len := by
  obtain ⟨t, ht, hrep⟩ := h.writes.unionInsert hlen (card_lt hin)
  have helems := hrep.elems
  exact ⟨{ plan with willWrite := t }, by simp [Plan.write, ht], ⟨h.reads, rep_elems hrep, h.entry⟩, rfl, rfl, helems⟩

private theorem planStripe_spec (si : StripeInfo) (orig start finish : ℤ) (needed : Prop) [Decidable needed]
    (h : plan.Formed) (hassert : needed ∧ start < orig → finish ≤ orig ∧ finish - start = si.stripeWidth)
    (hin : plan.reads ⊆ between 0 limit) (hin' : needed ∧ start < orig → span start si.stripeWidth ⊆ between 0 limit) :
    ∃ plan', planStripe si orig start finish needed plan = some plan' ∧ plan'.Formed ∧
      plan'.projectedSize = plan.projectedSize ∧ plan'.writes = plan.writes ∧
      plan'.reads = plan.reads ∪ if needed ∧ start < orig then span start si.stripeWidth else ∅ := by
  unfold planStripe
  by_cases hread : needed ∧ start < orig
  · obtain ⟨plan', hplan, hformed, hsize, hreads, hwrites⟩ :=
      h.read start si.stripeWidth si.width_pos (union_subset hin (hin' hread))
    exact ⟨plan', by rw [if_pos hread, if_pos (hassert hread), hplan], hformed, hsize, hwrites,
      by rw [if_pos hread, hreads]⟩
  · exact ⟨plan, by rw [if_neg hread], h, rfl, rfl, by rw [if_neg hread, Finset.union_empty]⟩

end

/-! ### The loop -/

/-- What holds of the plan after some extents, `done`, of the raw write set; `orig` is the size before them. -/
structure Sound (si : StripeInfo) (orig : ℤ) (done : List Interval) (plan : Plan) : Prop where
  formed : plan.Formed
  aligned : si.stripeWidth ∣ plan.projectedSize
  orig_le : orig ≤ plan.projectedSize
  le_limit : plan.projectedSize ≤ limit
  subset : plan.reads ⊆ plan.writes
  within : plan.writes ⊆ between 0 limit
  reads_whole : Whole si plan.reads
  writes_whole : Whole si plan.writes
  grown : between orig plan.projectedSize ⊆ plan.writes
  written : ∀ p ∈ done, range p ⊆ plan.writes ∧ stop p ≤ plan.projectedSize
  least : ∀ q, si.stripeWidth ∣ q → orig ≤ q → (∀ p ∈ done, stop p ≤ q) → plan.projectedSize ≤ q
  partly : ∀ a, si.stripeWidth ∣ a → a + si.stripeWidth ≤ orig → ∀ p ∈ done,
    (∃ x ∈ span a si.stripeWidth, x ∈ range p) → ¬span a si.stripeWidth ⊆ range p → span a si.stripeWidth ⊆ plan.reads

private theorem inside_of_partly {a w : ℤ} {e : Interval} (hx : ∃ x ∈ span a w, x ∈ range e)
    (hsub : ¬span a w ⊆ range e) : a < e.1 ∧ e.1 < a + w ∨ a < stop e ∧ stop e < a + w := by
  obtain ⟨x, hxa, hxe⟩ := hx
  rw [mem_between] at hxa
  rw [mem_range] at hxe
  by_contra hout
  refine hsub fun y hy => ?_
  rw [mem_between] at hy
  rw [mem_range]
  omega

/-- Where the head stripe `[hs, hf)` and the tail stripe `[ts, tf)` of an extent lie when the size reached is `size`. -/
structure Ends (si : StripeInfo) (orig size : ℤ) (e : Interval) (hs hf ts tf : ℤ) : Prop where
  hs_dvd : si.stripeWidth ∣ hs
  ts_dvd : si.stripeWidth ∣ ts
  tf_dvd : si.stripeWidth ∣ tf
  hs_nonneg : 0 ≤ hs
  hs_le : hs ≤ e.1
  hs_size : hs ≤ size
  hs_ts : hs ≤ ts
  le_tf : stop e ≤ tf
  tf_le : tf ≤ limit
  tf_least : ∀ q, si.stripeWidth ∣ q → stop e ≤ q → tf ≤ q
  head : hs ≠ hf ∧ hs < orig → hf = hs + si.stripeWidth ∧ hf ≤ orig
  tail : ts ≠ tf → tf = ts + si.stripeWidth
  head_of : ∀ a, si.stripeWidth ∣ a → a + si.stripeWidth ≤ orig → a < e.1 → e.1 < a + si.stripeWidth → hs = a ∧ hs ≠ hf
  tail_of : ∀ a, si.stripeWidth ∣ a → a < stop e → stop e < a + si.stripeWidth → ts = a ∧ ts ≠ tf

variable {si : StripeInfo}

private theorem ends_of {orig size : ℤ} (horig : si.stripeWidth ∣ orig) (hsize : si.stripeWidth ∣ size) (h0 : 0 ≤ orig)
    (hle : orig ≤ size) {e : Interval} (he0 : 0 ≤ e.1) (hpos : 0 < e.2) (hfits : stop e + si.stripeWidth ≤ 2 ^ 63) :
    Ends si orig size e (if si.prev e.1 > size then size else si.prev e.1) (si.next e.1) (si.prev (stop e))
      (si.next (stop e)) := by
  have hstop : stop e = e.1 + e.2 := rfl
  have hfits1 : e.1 + si.stripeWidth ≤ 2 ^ 63 := by omega
  have hstop0 : 0 ≤ stop e := by omega
  have hprev := prev_le si e.1
  have hprev0 := prev_nonneg si he0
  have hmono := prev_mono si (show e.1 ≤ stop e by omega)
  have hnext := le_next si hstop0 hfits
  generalize hhs : (if si.prev e.1 > size then size else si.prev e.1) = hs
  have hs_le : hs ≤ si.prev e.1 ∧ hs ≤ size ∧ 0 ≤ hs := by
    rw [← hhs]
    split_ifs <;> omega
  have hs_low : hs < orig → hs = si.prev e.1 := by
    rw [← hhs]
    split_ifs <;> omega
  have hs_dvd : si.stripeWidth ∣ hs := by
    rw [← hhs]
    split_ifs
    · exact hsize
    · exact prev_dvd si _
  refine ⟨hs_dvd, prev_dvd si _, next_dvd si hstop0 hfits, hs_le.2.2, by omega, hs_le.2.1, by omega, hnext.1,
    by unfold limit; omega, fun q hq hq' => next_le si hstop0 hfits hq hq', ?_, ?_, ?_, ?_⟩
  · rintro ⟨hne, hlt⟩
    have heq : si.next e.1 = hs + si.stripeWidth := by
      rw [hs_low hlt] at hne ⊢
      exact next_of_ne si he0 hfits1 hne
    exact ⟨heq, heq ▸ add_width_le hs_dvd horig hlt⟩
  · exact next_of_ne si hstop0 hfits
  · intro a ha _ hlt hlt'
    obtain ⟨hpa, hna⟩ := round_inside si he0 hfits1 ha hlt hlt'
    have hsa : hs = a := by
      rw [← hhs, hpa, if_neg (by omega)]
    exact ⟨hsa, by omega⟩
  · intro a ha hlt hlt'
    obtain ⟨hpa, hna⟩ := round_inside si hstop0 hfits ha hlt hlt'
    exact ⟨hpa, by omega⟩

def added (si : StripeInfo) (orig hs hf ts tf : ℤ) : Finset ℤ :=
  (if hs ≠ hf ∧ hs < orig then span hs si.stripeWidth else ∅) ∪
    if (ts ≠ tf ∧ (hs = hf ∨ ts ≠ hs)) ∧ ts < orig then span ts si.stripeWidth else ∅

section
variable {orig size hs hf ts tf : ℤ} {e : Interval} (h : Ends si orig size e hs hf ts tf)
  (hpos : 0 < e.2)

include h hpos

private theorem Ends.hs_add_le : hs + si.stripeWidth ≤ tf := by
  have hstop : stop e = e.1 + e.2 := rfl
  have h1 := h.hs_le
  have h2 := h.le_tf
  exact add_width_le h.hs_dvd h.tf_dvd (by omega)

private theorem Ends.added_subset : added si orig hs hf ts tf ⊆ span hs (tf - hs) := by
  have h1 := h.hs_add_le hpos
  intro x hx
  rcases mem_union.1 hx with hx | hx
  · split_ifs at hx with hc
    · rw [mem_between] at hx ⊢
      omega
    · exact absurd hx (Finset.notMem_empty x)
  split_ifs at hx with hc
  · have := h.tail hc.1.1
    rw [mem_between] at hx ⊢
    omega
  · exact absurd hx (Finset.notMem_empty x)

omit hpos in
private theorem Ends.added_whole : Whole si (added si orig hs hf ts tf) := by
  refine Whole.union ?_ ?_
  · split_ifs
    · exact whole_span h.hs_dvd (dvd_refl _)
    · exact whole_empty
  · split_ifs
    · exact whole_span h.ts_dvd (dvd_refl _)
    · exact whole_empty

omit hpos in
private theorem Ends.partly {a : ℤ} (ha : si.stripeWidth ∣ a) (hao : a + si.stripeWidth ≤ orig)
    (hx : ∃ x ∈ span a si.stripeWidth, x ∈ range e) (hsub : ¬span a si.stripeWidth ⊆ range e) :
    span a si.stripeWidth ⊆ added si orig hs hf ts tf := by
  have hw := si.width_pos
  have head : hs = a → hs ≠ hf → span a si.stripeWidth ⊆ added si orig hs hf ts tf := by
    rintro rfl hne
    rw [added, if_pos ⟨hne, by omega⟩]
    exact subset_union_left
  rcases inside_of_partly hx hsub with ⟨h1, h2⟩ | ⟨h1, h2⟩
  · obtain ⟨heq, hne⟩ := h.head_of a ha hao h1 h2
    exact head heq hne
  obtain ⟨rfl, hne⟩ := h.tail_of a ha h1 h2
  by_cases hc : hs = hf ∨ ts ≠ hs
  · have hread : (ts ≠ tf ∧ (hs = hf ∨ ts ≠ hs)) ∧ ts < orig := ⟨⟨hne, hc⟩, by omega⟩
    rw [added, if_pos hread]
    exact subset_union_right
  · -- the tail stripe is the head stripe, which is read already
    push Not at hc
    exact head hc.2.symm hc.1

private theorem Sound.extend {done : List Interval} {plan plan' : Plan} (hplan : Sound si orig done plan)
    (hsize : plan.projectedSize = size) (hformed : plan'.Formed) (hsize' : plan'.projectedSize = max size tf)
    (hreads : plan'.reads = plan.reads ∪ added si orig hs hf ts tf)
    (hwrites : plan'.writes = plan.writes ∪ span hs (tf - hs)) : Sound si orig (e :: done) plan' := by
  have hadded := h.added_subset hpos
  have hs_le := h.hs_le
  have hs_size := h.hs_size
  have le_tf := h.le_tf
  have hin : ∀ {x}, hs ≤ x → x < tf → x ∈ plan'.writes := by
    intro x h1 h2
    rw [hwrites]
    exact Finset.mem_union_right _ (mem_between.2 ⟨h1, by omega⟩)
  have hold : ∀ {x}, x ∈ plan.writes → x ∈ plan'.writes := fun hx => by
    rw [hwrites]
    exact Finset.mem_union_left _ hx
  subst hsize
  refine ⟨hformed, ?_, ?_, ?_, ?_, ?_, ?_, ?_, ?_, ?_, ?_, ?_⟩
  · rw [hsize']
    rcases max_choice plan.projectedSize tf with hm | hm <;> rw [hm]
    · exact hplan.aligned
    · exact h.tf_dvd
  · exact hsize' ▸ le_max_of_le_left hplan.orig_le
  · exact hsize' ▸ max_le hplan.le_limit h.tf_le
  · rw [hreads, hwrites]
    exact Finset.union_subset_union hplan.subset hadded
  · rw [hwrites]
    have h1 := h.tf_le
    exact union_subset hplan.within (span_subset h.hs_nonneg (by omega))
  · exact hreads ▸ hplan.reads_whole.union h.added_whole
  · exact hwrites ▸ hplan.writes_whole.union (whole_span h.hs_dvd (dvd_sub h.tf_dvd h.hs_dvd))
  · intro x hx
    rw [mem_between, hsize'] at hx
    by_cases hlt : x < plan.projectedSize
    · exact hold (hplan.grown (mem_between.2 ⟨hx.1, hlt⟩))
    · exact hin (by omega) (by omega)
  · intro p hp
    rcases List.mem_cons.1 hp with rfl | hp
    · refine ⟨fun x hx => ?_, by omega⟩
      rw [mem_range] at hx
      exact hin (by omega) (by omega)
    · obtain ⟨h1, h2⟩ := hplan.written p hp
      exact ⟨fun x hx => hold (h1 hx), by omega⟩
  · intro q hq hoq hall
    rw [hsize']
    refine max_le (hplan.least q hq hoq (List.forall_mem_cons.1 hall).2) ?_
    exact h.tf_least q hq (hall e List.mem_cons_self)
  · intro a ha hao p hp hx hsub
    rw [hreads]
    rcases List.mem_cons.1 hp with rfl | hp
    · exact (h.partly ha hao hx hsub).trans subset_union_right
    · exact (hplan.partly a ha hao p hp hx hsub).trans subset_union_left

end

variable {plan : Plan} {size : ℤ}

/-- One extent: its partial stripes below the old size are read, and everything from its head stripe or the size
reached, whichever comes first, to its tail stripe is written. -/
theorem planExtent_sound {orig : ℤ} {done : List Interval} (h : Sound si orig done plan)
    (horig : si.stripeWidth ∣ orig) (h0 : 0 ≤ orig) {e : Interval} (he0 : 0 ≤ e.1) (hpos : 0 < e.2)
    (hfits : stop e + si.stripeWidth ≤ 2 ^ 63) :
    ∃ plan', planExtent si orig plan e = some plan' ∧ Sound si orig (e :: done) plan' ∧ plan.reads ⊆ plan'.reads ∧
      plan.writes ⊆ plan'.writes := by
  have hw := si.width_pos
  have hstop : stop e = e.1 + e.2 := rfl
  have hlim : limit = 2 ^ 63 - 1 := rfl
  have hends := ends_of horig h.aligned h0 h.orig_le he0 hpos hfits
  unfold planExtent
  rw [show u64 (e.1 + e.2) = stop e from u64_of_lt (by omega) (by omega)]
  generalize si.prev (stop e) = ts at hends ⊢
  generalize si.next (stop e) = tf at hends ⊢
  generalize si.next e.1 = hf at hends ⊢
  generalize (if si.prev e.1 > plan.projectedSize then plan.projectedSize else si.prev e.1) = hs at hends ⊢
  have hs_tf := hends.hs_add_le hpos
  have hadded := hends.added_subset hpos
  have hs_nonneg := hends.hs_nonneg
  have tf_le := hends.tf_le
  have hin : span hs (tf - hs) ⊆ between 0 limit := span_subset hs_nonneg (by omega)
  have hreads_in := h.subset.trans h.within
  have hadded_in := Finset.union_subset_iff.1 (hadded.trans hin)
  obtain ⟨plan1, hplan1, hformed1, hsize1, hwrites1, hreads1⟩ :=
    planStripe_spec si orig hs hf (hs ≠ hf) h.formed (fun hc => by have := hends.head hc; omega) hreads_in
      (fun hc => by have := hadded_in.1; rwa [if_pos hc] at this)
  obtain ⟨plan2, hplan2, hformed2, hsize2, hwrites2, hreads2⟩ :=
    planStripe_spec si orig ts tf (ts ≠ tf ∧ (hs = hf ∨ ts ≠ hs)) hformed1
      (fun hc => by
        have heq := hends.tail hc.1.1
        have := add_width_le hends.ts_dvd horig hc.2
        omega)
      (by rw [hreads1]; exact union_subset hreads_in hadded_in.1)
      (fun hc => by have := hadded_in.2; rwa [if_pos hc] at this)
  have hwrites := hwrites2.trans hwrites1
  obtain ⟨plan3, hplan3, hformed3, hsize3, hreads3, hwrites3⟩ :=
    hformed2.write hs (tf - hs) (by omega) (by rw [hwrites]; exact union_subset h.within hin)
  have hsize : plan3.projectedSize = plan.projectedSize := by rw [hsize3, hsize2, hsize1]
  have hreads : plan3.reads = plan.reads ∪ added si orig hs hf ts tf := by
    rw [hreads3, hreads2, hreads1, Finset.union_assoc, added]
  rw [hwrites] at hwrites3
  refine ⟨{ plan3 with projectedSize := max plan3.projectedSize tf }, ?_, ?_, ?_, ?_⟩
  · dsimp only
    rw [hplan1, Option.bind_some, hplan2, Option.bind_some, if_pos (by omega), u64_of_lt (by omega) (by omega),
      if_pos (Int.emod_eq_zero_of_dvd (dvd_sub hends.tf_dvd hends.hs_dvd)), hplan3]
    rfl
  · exact h.extend hends hpos rfl ⟨hformed3.reads, hformed3.writes, hformed3.entry⟩ (by simp only [hsize]) hreads hwrites3
  · exact (hreads ▸ subset_union_left : plan.reads ⊆ plan3.reads)
  · exact (hwrites3 ▸ subset_union_left : plan.writes ⊆ plan3.writes)

private theorem loop_sound {orig : ℤ} (horig : si.stripeWidth ∣ orig) (h0 : 0 ≤ orig) (m : List Interval)
    (hm : ∀ e ∈ m, 0 ≤ e.1 ∧ 0 < e.2 ∧ stop e + si.stripeWidth ≤ 2 ^ 63) {done : List Interval}
    (h : Sound si orig done plan) :
    ∃ plan', m.foldlM (planExtent si orig) plan = some plan' ∧ Sound si orig (m.reverse ++ done) plan' ∧
      plan.reads ⊆ plan'.reads ∧ plan.writes ⊆ plan'.writes := by
  induction m generalizing done plan with
  | nil => exact ⟨plan, rfl, h, Finset.Subset.refl _, Finset.Subset.refl _⟩
  | cons e m ih =>
    obtain ⟨he0, hpos, hfits⟩ := hm e List.mem_cons_self
    obtain ⟨plan1, hplan1, hsound1, hreads1, hwrites1⟩ := planExtent_sound h horig h0 he0 hpos hfits
    obtain ⟨plan2, hplan2, hsound2, hreads2, hwrites2⟩ := ih (List.forall_mem_cons.1 hm).2 hsound1
    exact ⟨plan2, by simp [hplan1, hplan2], by simpa using hsound2, hreads1.trans hreads2,
      hwrites1.trans hwrites2⟩

private theorem rawWriteSet_spec (updates : List (Interval × BufferUpdate))
    (hordered : updates.Pairwise fun a b => stop a.1 ≤ b.1.1)
    (hpos : ∀ e ∈ updates, 0 ≤ e.1.1 ∧ 0 < e.1.2 ∧ stop e.1 ≤ limit ∧ e.2 ≠ .cloneRange) :
    ∃ raw, rawWriteSet updates = some raw ∧ Rep raw (elems (updates.map Prod.fst)) := by
  -- generalized to a set that ends before the updates
  suffices hgen : ∀ (s : IntervalSet) (S : Finset ℤ), Rep s S → S ⊆ between 0 limit →
      (∀ x ∈ S, ∀ e ∈ updates, x < e.1.1) →
      ∃ raw, updates.foldlM (fun s e => if e.2 = .cloneRange then none else s.insert e.1.1 e.1.2) s = some raw ∧
        Rep raw (S ∪ elems (updates.map Prod.fst)) by
    simpa [rawWriteSet] using hgen {} ∅ rep_empty (empty_subset _) (by simp)
  induction updates with
  | nil => exact fun s S h _ _ => ⟨s, rfl, by simpa using h⟩
  | cons e updates ih =>
    intro s S h hin hbefore
    obtain ⟨he, hordered⟩ := List.pairwise_cons.1 hordered
    obtain ⟨h0, hlen, hlim, hkind⟩ := hpos e List.mem_cons_self
    have hstop : stop e.1 = e.1.1 + e.1.2 := rfl
    have hspan := span_subset h0 hlim
    have hdisj : Disjoint (span e.1.1 e.1.2) S := by
      rw [Finset.disjoint_left]
      intro x hx hS
      have := hbefore x hS e List.mem_cons_self
      rw [mem_between] at hx
      omega
    obtain ⟨t, ht, hrep⟩ := h.insert hlen hdisj (card_lt (union_subset hin hspan))
    have hbefore' : ∀ x ∈ S ∪ span e.1.1 e.1.2, ∀ e' ∈ updates, x < e'.1.1 := by
      intro x hx e' he'
      rcases mem_union.1 hx with hx | hx
      · exact hbefore x hx e' (List.mem_cons_of_mem _ he')
      · have := he e' he'
        rw [mem_between] at hx
        omega
    obtain ⟨raw, hraw, hrepraw⟩ := ih hordered (List.forall_mem_cons.1 hpos).2 t _ hrep
      (union_subset hin hspan) hbefore'
    refine ⟨raw, by simp [hkind, ht, hraw], ?_⟩
    rw [List.map_cons, elems_cons, ← Finset.union_assoc]
    exact hrepraw

/-! ### The whole plan -/

/-- One stripe more than each size and offset of the operation is within `2^63`. -/
def Fits (si : StripeInfo) (size : ℤ) (op : ObjectOperation) : Prop :=
  size + si.stripeWidth ≤ 2 ^ 63 ∧ (∀ e ∈ op.bufferUpdates, stop e.1 + si.stripeWidth ≤ 2 ^ 63) ∧
    ∀ t ∈ op.truncate, t.2 + si.stripeWidth ≤ 2 ^ 63

instance (si : StripeInfo) (size : ℤ) (op : ObjectOperation) : Decidable (Fits si size op) :=
  inferInstanceAs (Decidable (_ ∧ _ ∧ _))

private theorem sound_nil (hformed : plan.Formed) (hsize : si.stripeWidth ∣ plan.projectedSize)
    (hlim : plan.projectedSize ≤ limit) {S : Finset ℤ} (hreads : plan.reads = S) (hwrites : plan.writes = S)
    (hin : S ⊆ between 0 limit) (hwhole : Whole si S) : Sound si plan.projectedSize [] plan where
  formed := hformed
  aligned := hsize
  orig_le := le_rfl
  le_limit := hlim
  subset := by rw [hreads, hwrites]
  within := hwrites ▸ hin
  reads_whole := hreads ▸ hwhole
  writes_whole := hwrites ▸ hwhole
  grown x hx := absurd (mem_between.1 hx) (by omega)
  written := by simp
  least _ _ h _ := h
  partly := by simp

private theorem planCut_sound (h0 : 0 ≤ size) (hfits : size + si.stripeWidth ≤ 2 ^ 63) :
    ∃ plan, planCut si size = some plan ∧ plan.projectedSize = si.next size ∧ Sound si (si.next size) [] plan ∧
      (¬si.stripeWidth ∣ size → span (si.prev size) si.stripeWidth ⊆ plan.reads) := by
  have hw := si.width_pos
  have hlim : limit = 2 ^ 63 - 1 := rfl
  have hnext := le_next si h0 hfits
  have hnext_dvd := next_dvd si h0 hfits
  unfold planCut
  by_cases hdvd : si.stripeWidth ∣ size
  · refine ⟨{ projectedSize := si.next size }, by simp [Int.emod_eq_zero_of_dvd hdvd], rfl, ?_,
      fun hn => absurd hdvd hn⟩
    exact sound_nil (formed_start _) hnext_dvd (show si.next size ≤ limit by omega) (S := ∅) rfl rfl
      (empty_subset _) whole_empty
  have hprev := next_of_not_dvd si h0 hfits hdvd
  have hprev0 := prev_nonneg si h0
  have hin : span (si.prev size) si.stripeWidth ⊆ between 0 limit := span_subset hprev0 (by omega)
  obtain ⟨plan1, hplan1, hformed1, hsize1, hreads1, hwrites1⟩ :=
    (formed_start (si.next size)).read (si.prev size) si.stripeWidth hw (union_subset (empty_subset _) hin)
  have hwrites1 : plan1.writes = ∅ := hwrites1
  obtain ⟨plan2, hplan2, hformed2, hsize2, hreads2, hwrites2⟩ :=
    hformed1.write (si.prev size) si.stripeWidth hw (by rw [hwrites1, empty_union]; exact hin)
  have hsize : plan2.projectedSize = si.next size := hsize2.trans hsize1
  have hr : plan2.reads = span (si.prev size) si.stripeWidth := by
    rw [hreads2, hreads1]
    exact empty_union _
  refine ⟨plan2, ?_, hsize, ?_, fun _ => hr ▸ Finset.Subset.refl _⟩
  · rw [if_neg fun h => hdvd (Int.dvd_of_emod_eq_zero h), hplan1, Option.bind_some, hplan2]
  · rw [← hsize]
    exact sound_nil hformed2 (hsize ▸ hnext_dvd) (by omega) hr (by rw [hwrites2, hwrites1, empty_union]) hin
      (whole_span (prev_dvd si size) (dvd_refl _))

variable (op : ObjectOperation)

private theorem planTruncate_eq (hsize : si.stripeWidth ∣ (if op.deletesFirst then 0 else size)) :
    planTruncate si op.truncate (if op.deletesFirst then 0 else size) = planCut si (op.left size) := by
  unfold ObjectOperation.left
  generalize (if op.deletesFirst then 0 else size) = size at hsize ⊢
  have huncut : some { projectedSize := size } = planCut si size := by
    simp [planCut, Int.emod_eq_zero_of_dvd hsize, next_of_dvd si hsize]
  cases op.truncate with
  | none => exact huncut
  | some t =>
    by_cases hlt : t.1 < size
    · simp [planTruncate, hlt, min_eq_left hlt.le]
    · simp [planTruncate, hlt, min_eq_right (not_lt.1 hlt), huncut]

/-- `plan'` adds to `plan` whole stripes behind the size reached, as far as the last truncate needs them. -/
structure Grown (si : StripeInfo) (truncate : Option (ℤ × ℤ)) (plan plan' : Plan) : Prop where
  formed : plan'.Formed
  reads : plan'.reads = plan.reads
  writes : plan.writes ⊆ plan'.writes
  whole : Whole si plan'.writes
  aligned : si.stripeWidth ∣ plan'.projectedSize
  size_le : plan.projectedSize ≤ plan'.projectedSize
  le_limit : plan'.projectedSize ≤ limit
  grown : between plan.projectedSize plan'.projectedSize ⊆ plan'.writes
  covers : ∀ t ∈ truncate, t.2 ≤ plan'.projectedSize
  least : ∀ q, si.stripeWidth ∣ q → plan.projectedSize ≤ q → (∀ t ∈ truncate, t.2 ≤ q) → plan'.projectedSize ≤ q

private theorem planGrow_grown {orig : ℤ} {done : List Interval} (h : Sound si orig done plan) (h0 : 0 ≤ orig)
    {truncate : Option (ℤ × ℤ)} (hfits : ∀ t ∈ truncate, t.2 + si.stripeWidth ≤ 2 ^ 63) :
    ∃ plan', planGrow si truncate plan = some plan' ∧ Grown si truncate plan plan' := by
  have hkeep : (∀ t ∈ truncate, t.2 ≤ plan.projectedSize) → Grown si truncate plan plan := fun hle =>
    ⟨h.formed, rfl, Finset.Subset.refl _, h.writes_whole, h.aligned, le_rfl, h.le_limit,
      fun x hx => absurd (mem_between.1 hx) (by omega), hle, fun _ _ hq _ => hq⟩
  cases truncate with
  | none => exact ⟨plan, rfl, hkeep (by simp)⟩
  | some t =>
    obtain ⟨first, second⟩ := t
    by_cases hgt : second > plan.projectedSize
    · have hle := h.orig_le
      have hlim : limit = 2 ^ 63 - 1 := rfl
      have hfit := hfits _ rfl
      have hs0 : 0 ≤ second := by omega
      have hnext := le_next si hs0 hfit
      have hdvd := next_dvd si hs0 hfit
      obtain ⟨plan', hplan', hformed', -, hreads', hwrites'⟩ :=
        h.formed.write plan.projectedSize (si.next second - plan.projectedSize) (by omega)
          (union_subset h.within (span_subset (by omega) (by omega)))
      refine ⟨{ plan' with projectedSize := si.next second }, ?_, ⟨hformed'.reads, hformed'.writes, hformed'.entry⟩,
        hreads', (hwrites' ▸ subset_union_left : plan.writes ⊆ plan'.writes), ?_, hdvd, by simp only; omega,
        by simp only; omega, ?_, ?_, ?_⟩
      · rw [planGrow, if_pos hgt, u64_of_lt (by omega) (by omega), hplan']
        rfl
      · exact (hwrites' ▸ h.writes_whole.union (whole_span h.aligned (dvd_sub hdvd h.aligned)) :
          Whole si plan'.writes)
      · intro x hx
        change x ∈ plan'.writes
        rw [hwrites']
        obtain ⟨h1, h2⟩ := mem_between.1 hx
        exact Finset.mem_union_right _ (mem_between.2 ⟨h1, by simp only at h2; omega⟩)
      · rintro t ⟨⟩
        exact hnext.1
      · exact fun q hq _ ht => next_le si hs0 hfit hq (ht _ rfl)
    · exact ⟨plan, by rw [planGrow, if_neg hgt], hkeep (by rintro t ⟨⟩; exact not_lt.1 hgt)⟩

private theorem logicalSize_chunks (si : StripeInfo) (hsize : si.stripeWidth ∣ size) (h0 : 0 ≤ size)
    (hlim : size ≤ limit) : si.logicalSize (u64 (size / si.stripeWidth * si.chunkSize)) = size := by
  have hw := si.width_pos
  have hlim' : limit = 2 ^ 63 - 1 := rfl
  obtain ⟨c, hc⟩ := si.dvd
  obtain ⟨n, rfl⟩ := hsize
  have hc0 : 0 < c := Int.pos_of_mul_pos_right (hc ▸ hw) si.size_pos
  have hn0 : 0 ≤ n := nonneg_of_mul_nonneg_right h0 hw
  have hchunk : si.chunkSize = c := by rw [StripeInfo.chunkSize, hc, Int.mul_ediv_cancel_left _ si.size_pos.ne']
  have hk : si.stripeWidth / c = si.stripeSize := by rw [hc, Int.mul_ediv_cancel _ hc0.ne']
  have hle : n * c ≤ si.stripeWidth * n := by
    rw [hc]
    nlinarith [si.size_pos, mul_nonneg hn0 hc0.le]
  rw [StripeInfo.logicalSize, Int.mul_ediv_cancel_left _ hw.ne', hchunk, hk,
    u64_of_lt (mul_nonneg hn0 hc0.le) (by omega)]
  have heq : n * c * si.stripeSize = si.stripeWidth * n := by
    rw [hc]
    ac_rfl
  rw [heq]
  exact u64_of_lt h0 (by omega)

private theorem ObjectOperation.left_bounds (h0 : 0 ≤ size) :
    0 ≤ op.left size ∧ op.left size ≤ size := by
  have h1 := op.truncate_nonneg
  unfold ObjectOperation.left
  cases ht : op.truncate with
  | none =>
    simp only
    split_ifs <;> omega
  | some t =>
    have := (h1 t ht).1
    simp only
    split_ifs <;> omega

private theorem ObjectOperation.raw_bounds {raw : IntervalSet} (hrep : Rep raw op.updated) :
    (∀ p ∈ raw.m, 0 ≤ p.1 ∧ ∃ e ∈ op.bufferUpdates, stop p ≤ stop e.1) ∧
      ∀ e ∈ op.bufferUpdates, ∃ p ∈ raw.m, stop e.1 ≤ stop p := by
  have hmem : ∀ x, (∃ p ∈ raw.m, p.1 ≤ x ∧ x < stop p) ↔ ∃ e ∈ op.bufferUpdates, e.1.1 ≤ x ∧ x < stop e.1 := by
    intro x
    rw [← mem_elems, hrep.elems, ObjectOperation.updated, mem_elems]
    simp only [List.mem_map, exists_exists_and_eq_and]
  constructor
  · intro p hp
    have hlt := hrep.canon.lt_stop hp
    obtain ⟨e, he, h1, -⟩ := (hmem p.1).1 ⟨p, hp, le_rfl, hlt⟩
    obtain ⟨e', he', -, h2⟩ := (hmem (stop p - 1)).1 ⟨p, hp, by omega, by omega⟩
    exact ⟨by have := (op.nonempty e he).1; omega, e', he', by omega⟩
  · intro e he
    have hpos := (op.nonempty e he).2
    have hstop : stop e.1 = e.1.1 + e.1.2 := rfl
    obtain ⟨p, hp, -, h2⟩ := (hmem (stop e.1 - 1)).2 ⟨e, he, by omega, by omega⟩
    exact ⟨p, hp, by omega⟩

/-- The plan of an operation whose offsets leave room for one more stripe: no assertion fails, and the reads, the writes
and the new size are those that the operation needs. -/
theorem getWritePlan_covers (si : StripeInfo) (chunks : ℤ) (op : ObjectOperation)
    (hsize : si.stripeWidth ∣ si.logicalSize chunks) (hsource : ∀ e ∈ op.bufferUpdates, e.2 ≠ .cloneRange)
    (hfits : Fits si (si.logicalSize chunks) op) :
    ∃ plan chunks', getWritePlan si chunks op = some (plan, chunks') ∧
      plan.reads ⊆ plan.writes ∧ Whole si plan.reads ∧ Whole si plan.writes ∧
      (∀ a, si.stripeWidth ∣ a → a < op.left (si.logicalSize chunks) →
        Changed si op (op.left (si.logicalSize chunks)) a → ¬span a si.stripeWidth ⊆ op.updated →
          span a si.stripeWidth ⊆ plan.reads) ∧
      op.updated ⊆ plan.writes ∧
      between (op.left (si.logicalSize chunks)) (si.logicalSize chunks') ⊆ plan.writes ∧
      si.stripeWidth ∣ si.logicalSize chunks' ∧ Covers op (op.left (si.logicalSize chunks)) (si.logicalSize chunks') ∧
      ∀ q, si.stripeWidth ∣ q → Covers op (op.left (si.logicalSize chunks)) q → si.logicalSize chunks' ≤ q := by
  have hlim : limit = 2 ^ 63 - 1 := rfl
  have hsize0 : 0 ≤ si.logicalSize chunks := Int.emod_nonneg _ (by decide)
  obtain ⟨hfits1, hfits2, hfits3⟩ := hfits
  generalize hleft : op.left (si.logicalSize chunks) = left
  -- the size after a deletion, and what the first truncate leaves of it
  have hstart : si.stripeWidth ∣ (if op.deletesFirst then 0 else si.logicalSize chunks) := by
    split_ifs
    · exact dvd_zero _
    · exact hsize
  have hleft0 := hleft ▸ op.left_bounds hsize0
  have hleft_fits : left + si.stripeWidth ≤ 2 ^ 63 := by omega
  obtain ⟨plan0, hplan0, hsize₀, hsound0, hcut⟩ := planCut_sound hleft0.1 hleft_fits
  have hnext := le_next si hleft0.1 hleft_fits
  have hnext_dvd := next_dvd si hleft0.1 hleft_fits
  -- the extents to write
  obtain ⟨raw, hraw, hrep⟩ := rawWriteSet_spec op.bufferUpdates op.ordered fun e he =>
    ⟨(op.nonempty e he).1, (op.nonempty e he).2, by have := hfits2 e he; omega, hsource e he⟩
  have hupdated : elems raw.m = op.updated := hrep.elems
  obtain ⟨hrawstop, hstopraw⟩ := op.raw_bounds hrep
  obtain ⟨plan1, hplan1, hsound1, hreads1, -⟩ := loop_sound hnext_dvd (by omega) raw.m
    (fun p hp => by
      obtain ⟨h0, e, he, hle⟩ := hrawstop p hp
      have := hfits2 e he
      exact ⟨h0, hrep.canon.pos p hp, by omega⟩) hsound0
  obtain ⟨plan2, hplan2, hgrown⟩ := planGrow_grown hsound1 (by omega) hfits3
  have hsize2 := logicalSize_chunks si hgrown.aligned (by have := hsound1.orig_le; have := hgrown.size_le; omega)
    hgrown.le_limit
  have hdone : ∀ p ∈ raw.m, p ∈ raw.m.reverse ++ [] := by simp
  refine ⟨plan2, u64 (plan2.projectedSize / si.stripeWidth * si.chunkSize), ?_, ?_, ?_, hgrown.whole, ?_, ?_, ?_, ?_, ?_,
    ?_⟩
  · have htrunc := planTruncate_eq op hstart
    rw [hleft] at htrunc
    unfold getWritePlan
    simp only [htrunc, hplan0, Option.bind_some, hraw, hsize₀, hplan1, hplan2]
    rw [if_pos]
    refine ⟨Int.emod_eq_zero_of_dvd hgrown.aligned, ?_⟩
    rw [Option.all_eq_true]
    intro s hs
    simpa using hgrown.formed.entry s hs
  · rw [hgrown.reads]
    exact hsound1.subset.trans hgrown.writes
  · rw [hgrown.reads]
    exact hsound1.reads_whole
  · intro a ha _ hchanged hnot
    rw [hgrown.reads]
    have hbelow := add_width_le ha hnext_dvd (by omega)
    rcases hchanged with ⟨x, hxa, hx⟩ | ⟨h1, h2⟩
    · rw [← hupdated] at hx hnot
      obtain ⟨p, hp, hxp⟩ := mem_elems.1 hx
      refine hsound1.partly a ha hbelow p (hdone p hp) ⟨x, hxa, mem_range.2 hxp⟩ fun hsub => hnot fun y hy => ?_
      exact mem_elems.2 ⟨p, hp, mem_range.1 (hsub hy)⟩
    have hnd : ¬si.stripeWidth ∣ left := fun hd => by
      have := add_width_le ha hd h1
      omega
    have := hcut hnd
    rw [prev_eq si ha h1.le h2] at this
    exact this.trans hreads1
  · intro x hx
    rw [← hupdated] at hx
    obtain ⟨p, hp, hxp⟩ := mem_elems.1 hx
    exact hgrown.writes ((hsound1.written p (hdone p hp)).1 (mem_range.2 hxp))
  · intro x hx
    rw [mem_between, hsize2] at hx
    by_cases h1 : x < si.next left
    · -- the rest of the stripe that the truncate cuts
      have hnd : ¬si.stripeWidth ∣ left := fun hd => by
        rw [next_of_dvd si hd] at h1
        omega
      have hprev := prev_le si left
      rw [next_of_not_dvd si hleft0.1 hleft_fits hnd] at h1
      exact hgrown.writes (hsound1.subset (hreads1 (hcut hnd (mem_between.2 ⟨by omega, h1⟩))))
    · by_cases h2 : x < plan1.projectedSize
      · exact hgrown.writes (hsound1.grown (mem_between.2 ⟨by omega, h2⟩))
      · exact hgrown.grown (mem_between.2 ⟨by omega, hx.2⟩)
  · rw [hsize2]
    exact hgrown.aligned
  · rw [hsize2]
    refine ⟨by have := hsound1.orig_le; have := hgrown.size_le; omega, ?_, hgrown.covers⟩
    intro e he
    obtain ⟨p, hp, hle⟩ := hstopraw e he
    exact hle.trans ((hsound1.written p (hdone p hp)).2.trans hgrown.size_le)
  · intro q hq ⟨h1, h2, h3⟩
    rw [hsize2]
    refine hgrown.least q hq ?_ h3
    refine hsound1.least q hq (next_le si hleft0.1 hleft_fits hq h1) fun p hp => ?_
    obtain ⟨-, e, he, hle⟩ := hrawstop p (by simpa using hp)
    exact hle.trans (h2 e he)

/-- Stripes of 8 bytes. An object of 24 bytes is truncated to 13, written at `[3, 5)` and `[20, 30)` and ends at 33. -/
def sampleOp : ObjectOperation := { truncate := some (13, 33), bufferUpdates := [((3, 2), .write), ((20, 10), .zero)] }

theorem getWritePlan_covers_sampleOp :
    ∃ plan chunks', getWritePlan ⟨2, 8, by decide, by decide, by decide⟩ 12 sampleOp = some (plan, chunks') ∧
      sampleOp.updated ⊆ plan.writes := by
  obtain ⟨plan, chunks', h, -, -, -, -, hupdated, -⟩ := getWritePlan_covers ⟨2, 8, by decide, by decide, by decide⟩ 12
    sampleOp (by decide) (by decide) (by decide)
  exact ⟨plan, chunks', h, hupdated⟩

/-- An update that ends less than a stripe below `2^64`: rounding up wraps to 0, and nothing is planned to be written. -/
theorem getWritePlan_wraps :
    (getWritePlan ⟨2, 8, by decide, by decide, by decide⟩ 0 { bufferUpdates := [((2 ^ 64 - 5, 4), .write)] }).any
      (fun r => decide (r.1.willWrite.m = []) && decide (r.2 = 0)) = true := by
  decide +kernel

end Lunule.Ec
