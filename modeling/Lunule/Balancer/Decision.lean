import Lunule.Balancer.Basic

/-!
# The migration decisions

The decision phase of `handle_ifbeat`. Rank 0 sums up for each rank how far its IOPS are off the average (`myIf`), sorts
the summaries behind its own by `myIf`, and sends each rank that is over the threshold the ranks to export to.

The loop over the ranks `p` takes the exporter from index `p` of the sorted vector, but its IOPS and its load from rank
`p`, so a decision is right where the sort leaves each exporter at an index with the same IOPS (`decisions_valid`).
`max_pos` and `min_pos`, by which the extreme ranks always take part, are differences of iterators taken the wrong way
round and name no rank but 0 (`eq_firstPos_iff`): an imbalance that is spread over many ranks is detected and then
ignored unless there is an exporter and an importer without them (`imbalance_not_ignored`).
-/

namespace Lunule.Balancer
open List Real
variable {n : ℕ} [NeZero n] {K : Type} [Field K] [LinearOrder K]

/-- `imbalance_summary_t`. -/
structure ImbalanceSummary (n : ℕ) (K : Type) where
  myIf : K
  whoami : Fin n
  isBigger : Bool
  deriving DecidableEq

/-- What the decision phase works on; `myIf` is the imbalance of a rank with the given IOPS. -/
structure Phase (n : ℕ) (K : Type) where
  iops : Fin n → K
  load : Fin n → K
  simpleIfThreshold : K
  myIf : K → K

def others (n : ℕ) [NeZero n] : List (Fin n) := (finRange n).filter (· ≠ 0)

/-- `begin() - it` for the first element `it` with a property. -/
def firstPos (P : Fin n → Prop) [DecidablePred P] : ℤ := -((((finRange n).find? P).getD 0 : Fin n) : ℕ)

def average (iops : Fin n → K) : K := (∑ i, iops i) / n

namespace Phase
variable (v : Phase n K)

def avgIops : K := average v.iops

def myIfThreshold : K := v.simpleIfThreshold / (min n 3 : ℕ)

def maxPos : ℤ := firstPos fun i => ∀ j, v.iops j ≤ v.iops i

def minPos : ℤ := firstPos fun i => ∀ j, v.iops i ≤ v.iops j

def summary (i : Fin n) : ImbalanceSummary n K := ⟨v.myIf (v.iops i), i, decide (v.avgIops < v.iops i)⟩

/-- What `std::sort` may make of `my_imbalance_vector` behind its first element. -/
structure Sorted (tail : List (ImbalanceSummary n K)) : Prop where
  perm : tail.Perm ((others n).map v.summary)
  sorted : tail.Pairwise fun x y => y.myIf ≤ x.myIf

def Exporter (x : ImbalanceSummary n K) : Prop := (v.maxPos = x.whoami ∨ v.myIfThreshold < x.myIf) ∧ x.isBigger = true

def Importer (sendNum : Fin n) (x : ImbalanceSummary n K) : Prop :=
  x.whoami ≠ sendNum ∧ x.isBigger = false ∧ (v.myIfThreshold ≤ x.myIf ∨ x.whoami = v.minPos)

instance (x : ImbalanceSummary n K) : Decidable (v.Exporter x) := inferInstanceAs (Decidable (_ ∧ _))

instance (r : Fin n) (x : ImbalanceSummary n K) : Decidable (v.Importer r x) := inferInstanceAs (Decidable (_ ∧ _))

/-- The inner loop for the exporter `sendNum` at index `p`, with the amount in force and the number of importers that
may follow; `none` is the return from the handler. -/
def tryMatch (p sendNum : Fin n) : List (ImbalanceSummary n K) → K → ℕ → Option (List (MigrationDecision n K))
  | [], _, _ => some []
  | _ :: _, _, 0 => some []
  | x :: l, amount, room + 1 =>
    if v.Importer sendNum x then
      if v.iops sendNum ≤ 1 then none
      else
        let percent := amount * ((v.iops p - v.iops x.whoami) / v.iops p)
        let decision := ⟨x.whoami, percent * v.load p, percent⟩
        if amount / 2 ≤ v.myIfThreshold then some [decision]
        else (tryMatch p sendNum l (amount / 2) room).map (decision :: ·)
    else tryMatch p sendNum l amount (room + 1)

/-- The outer loop: the messages, and whether it got to its end. -/
def sendDecisions (vec : List (ImbalanceSummary n K)) :
    List (Fin n × ImbalanceSummary n K) → List (Fin n × List (MigrationDecision n K)) × Bool
  | [] => ([], true)
  | (p, x) :: l =>
    if v.Exporter x then
      match v.tryMatch p x.whoami vec (1 / 4) 3 with
      | none => ([], false)
      | some ds => ((x.whoami, ds) :: (sendDecisions vec l).1, (sendDecisions vec l).2)
    else sendDecisions vec l

/-- The decision phase with every rank up, once the imbalance factor is known and the vector is sorted. -/
def decisionPhase (factor : K) (tail : List (ImbalanceSummary n K)) : DecisionPlan n K :=
  if v.simpleIfThreshold ≤ factor then
    let vec := v.summary 0 :: tail
    let r := v.sendDecisions vec ((others n).zip tail)
    { sends := r.1.filterMap fun s => if h : s.1 ≠ 0 then some (⟨s.1, h⟩, factor, s.2) else none
      own := if r.2 = true ∧ v.Exporter (v.summary 0) then v.tryMatch 0 0 vec (1 / 4) 3 else none }
  else ⟨[], none⟩

/-! ### What is decided -/

/-- The percents of decisions for `r`, from `amount` on, which is halved each time. -/
def Halved (r : Fin n) : K → List (MigrationDecision n K) → Prop
  | _, [] => True
  | amount, d :: ds =>
    d.targetExportPercent = amount * ((v.iops r - v.iops d.targetImportMds) / v.iops r) ∧ Halved r (amount / 2) ds

/-- Decisions as the exporter `r` should get them. -/
structure Valid (r : Fin n) (ds : List (MigrationDecision n K)) : Prop where
  target : ∀ d ∈ ds, d.targetImportMds ≠ r ∧ v.iops d.targetImportMds ≤ v.avgIops
  percent : v.Halved r (1 / 4) ds
  range : ∀ d ∈ ds, 0 ≤ d.targetExportPercent ∧ d.targetExportPercent ≤ 1 / 4
  sum : (ds.map (·.targetExportPercent)).sum < 1 / 2

/-- How many importers an exporter is paired with at most, by the amount in force. -/
def quota : K → ℕ → ℕ
  | _, 0 => 0
  | amount, room + 1 => if amount / 2 ≤ v.myIfThreshold then 1 else quota (amount / 2) room + 1

/-- The importers that the exporter `r` is paired with. -/
def paired (vec : List (ImbalanceSummary n K)) (r : Fin n) : List (ImbalanceSummary n K) :=
  (vec.filter fun x => v.Importer r x).take (v.quota (1 / 4) 3)

/-- Each exporter `r` stands at the index of a rank with the same IOPS, or of one with any IOPS where `r` is paired with
idle ranks only. -/
def Placed (tail : List (ImbalanceSummary n K)) : Prop :=
  ∀ p r, (p, v.summary r) ∈ (others n).zip tail ∧ v.Exporter (v.summary r) ∧ 1 < v.iops r →
    ∀ y ∈ v.paired (v.summary 0 :: tail) r, v.iops p = v.iops r ∨ v.iops p ≠ 0 ∧ v.iops y.whoami = 0

instance (tail) : Decidable (v.Placed tail) := inferInstanceAs (Decidable (∀ _ r, _ → ∀ y ∈ v.paired _ r, _))

variable {v} {p r : Fin n} {l vec tail : List (ImbalanceSummary n K)} {a : K} {k : ℕ}
  {ds : List (MigrationDecision n K)}

private theorem tryMatch_spec (h : v.tryMatch p r l a k = some ds) : ds.map (·.targetImportMds) =
      ((l.filter fun x => v.Importer r x).take (v.quota a k)).map (·.whoami) ∧ v.Halved p a ds := by
  induction l generalizing a k ds with
  | nil => cases h; exact ⟨by simp, trivial⟩
  | cons x l ih =>
    cases k with
    | zero => cases h; exact ⟨by simp [quota], trivial⟩
    | succ k =>
      simp only [tryMatch] at h
      split_ifs at h with hx hr ha
      · cases h
        exact ⟨by simp [quota, hx, ha], rfl, trivial⟩
      · obtain ⟨ds', hds, rfl⟩ := Option.map_eq_some_iff.1 h
        obtain ⟨htarget, hpercent⟩ := ih hds
        exact ⟨by simp [quota, hx, ha, htarget], rfl, hpercent⟩
      · simpa [hx] using ih h

private theorem tryMatch_eq_none_iff :
    v.tryMatch p r l a k = none ↔ v.iops r ≤ 1 ∧ k ≠ 0 ∧ ∃ x ∈ l, v.Importer r x := by
  induction l generalizing a k with
  | nil => simp [tryMatch]
  | cons x l ih =>
    cases k with
    | zero => simp [tryMatch]
    | succ k =>
      by_cases hx : v.Importer r x
      · by_cases hr : v.iops r ≤ 1
        · simp [tryMatch, hx, hr]
        · rw [tryMatch, if_pos hx, if_neg hr]
          split_ifs <;> simp [ih, hr]
      · simp [tryMatch, hx, ih]

private theorem exists_importer (h : v.tryMatch p r l a k = some ds) {d : MigrationDecision n K} (hd : d ∈ ds) :
    ∃ x ∈ l, x.whoami = d.targetImportMds ∧ v.Importer r x := by
  have hmem := mem_map_of_mem (f := (·.targetImportMds)) hd
  rw [(tryMatch_spec h).1] at hmem
  obtain ⟨x, hx, hxd⟩ := mem_map.1 hmem
  have hx' := mem_filter.1 (mem_of_mem_take hx)
  exact ⟨x, hx'.1, hxd, of_decide_eq_true hx'.2⟩

section
variable {s : Fin n × List (MigrationDecision n K)} {l : List (Fin n × ImbalanceSummary n K)}

/-- Where no exporter after the one that ends the loop would get anything, each that gets something is sent it. -/
theorem mem_sendDecisions_iff (h : l.Pairwise fun x y => v.tryMatch x.1 x.2.whoami vec (1 / 4) 3 = none →
      v.Exporter x.2 → v.Exporter y.2 → v.tryMatch y.1 y.2.whoami vec (1 / 4) 3 = none) :
    s ∈ (v.sendDecisions vec l).1 ↔
      ∃ x ∈ l, v.Exporter x.2 ∧ s.1 = x.2.whoami ∧ v.tryMatch x.1 x.2.whoami vec (1 / 4) 3 = some s.2 := by
  induction l with
  | nil => simp [sendDecisions]
  | cons x l ih =>
    obtain ⟨hx, h⟩ := pairwise_cons.1 h
    rw [exists_mem_cons_iff, sendDecisions]
    split_ifs with hexp
    · split
      · rename_i hnone
        simp only [hnone, not_mem_nil, false_iff, not_or, not_exists, not_and]
        refine ⟨fun _ _ => nofun, fun y hy hexp' _ hs => ?_⟩
        cases (hx y hy hnone hexp hexp').symm.trans hs
      · rename_i ds hds
        rw [mem_cons, ih h, Prod.ext_iff]
        simp only [hexp, hds, true_and, Option.some.injEq, eq_comm (a := ds)]
    · simp only [hexp, false_and, false_or, ih h]

private theorem sendDecisions_ends : (v.sendDecisions vec l).2 = true ↔
    ∀ x ∈ l, v.Exporter x.2 → v.tryMatch x.1 x.2.whoami vec (1 / 4) 3 ≠ none := by
  induction l with
  | nil => simp [sendDecisions]
  | cons x l ih =>
    simp only [sendDecisions, forall_mem_cons]
    split_ifs with hexp
    · split
      · rename_i hnone
        exact iff_of_false (by simp) fun h => h.1 hexp hnone
      · rename_i ds hds
        exact ih.trans ⟨fun h => ⟨fun _ => hds ▸ Option.some_ne_none ds, h⟩, And.right⟩
    · simp only [hexp, false_imp_iff, true_and, ih]

end

private theorem Sorted.eq_summary (h : v.Sorted tail) : ∀ x ∈ v.summary 0 :: tail, x = v.summary x.whoami := by
  intro x hx
  rcases mem_cons.1 hx with rfl | hx
  · rfl
  · obtain ⟨i, -, rfl⟩ := mem_map.1 (h.perm.mem_iff.1 hx)
    rfl

private theorem Sorted.map_snd_zip (h : v.Sorted tail) : ((others n).zip tail).map Prod.snd = tail :=
  List.map_snd_zip (by simp [h.perm.length_eq])

/-- The summaries that the loops meet: behind the first those of the ranks other than 0. -/
theorem Sorted.exists_zip_iff (h : v.Sorted tail) {i : Fin n} :
    (∃ p, (p, v.summary i) ∈ (others n).zip tail) ↔ i ≠ 0 := by
  have hmem : v.summary i ∈ ((others n).zip tail).map Prod.snd ↔ i ≠ 0 := by
    rw [h.map_snd_zip, h.perm.mem_iff]
    refine ⟨fun hi => ?_, fun hi => mem_map_of_mem (mem_filter.2 ⟨mem_finRange i, by simpa using hi⟩)⟩
    obtain ⟨j, hj, hji⟩ := mem_map.1 hi
    have hji' : j = i := congrArg (·.whoami) hji
    simpa [others, hji'] using hj
  simpa using hmem

private theorem Sorted.eq_of_mem_zip (h : v.Sorted tail) {x : Fin n × ImbalanceSummary n K}
    (hx : x ∈ (others n).zip tail) : x.2 = v.summary x.2.whoami ∧ x.2.whoami ≠ 0 := by
  have heq := h.eq_summary x.2 (mem_cons_of_mem _ (of_mem_zip hx).2)
  exact ⟨heq, h.exists_zip_iff.1 ⟨x.1, by rw [← heq]; exact hx⟩⟩

private theorem importer_summary_iff (hr : v.avgIops < v.iops r) {t : Fin n} : v.Importer r (v.summary t) ↔
    v.iops t ≤ v.avgIops ∧ (v.myIfThreshold ≤ v.myIf (v.iops t) ∨ (t : ℤ) = v.minPos) := by
  refine ⟨fun h => ⟨not_lt.1 (of_decide_eq_false h.2.1), h.2.2⟩, fun h => ⟨?_, decide_eq_false h.1.not_gt, h.2⟩⟩
  rintro rfl
  exact absurd hr h.1.not_gt

/-- Above the average the loop meets the ranks in the order of their IOPS, so that the one that ends it is followed by
none with more than 1. -/
theorem Sorted.pairwise_zip (h : v.Sorted tail) (hmono : ∀ x y, v.avgIops < x → x < y → v.myIf x < v.myIf y) :
    ((others n).zip tail).Pairwise fun x y => v.tryMatch x.1 x.2.whoami (v.summary 0 :: tail) (1 / 4) 3 = none →
      v.Exporter x.2 → v.Exporter y.2 → v.tryMatch y.1 y.2.whoami (v.summary 0 :: tail) (1 / 4) 3 = none := by
  have hsorted := h.sorted
  rw [← h.map_snd_zip, pairwise_map] at hsorted
  refine hsorted.imp_of_mem fun {x y} hx hy hif hnone hexp hexp' => ?_
  obtain ⟨hone, -, z, hz, himp⟩ := tryMatch_eq_none_iff.1 hnone
  rw [(h.eq_of_mem_zip hx).1] at hif hexp
  rw [(h.eq_of_mem_zip hy).1] at hif hexp'
  have hbig := of_decide_eq_true hexp.2
  have hle : v.iops y.2.whoami ≤ v.iops x.2.whoami := not_lt.1 fun hlt => (hmono _ _ hbig hlt).not_ge hif
  have heq := h.eq_summary z hz
  rw [heq] at hz himp
  have himp' := (importer_summary_iff (of_decide_eq_true hexp'.2)).2 ((importer_summary_iff hbig).1 himp)
  exact tryMatch_eq_none_iff.2 ⟨hle.trans hone, by simp, _, hz, himp'⟩

private theorem mem_sends_iff {factor : K} (hsort : v.Sorted tail)
    (hmono : ∀ x y, v.avgIops < x → x < y → v.myIf x < v.myIf y) (hgate : v.simpleIfThreshold ≤ factor) {s} :
    s ∈ (v.decisionPhase factor tail).sends ↔ s.2.1 = factor ∧ ∃ p, (p, v.summary s.1) ∈ (others n).zip tail ∧
      v.Exporter (v.summary s.1) ∧ v.tryMatch p s.1 (v.summary 0 :: tail) (1 / 4) 3 = some s.2.2 := by
  have hsent {s} := mem_sendDecisions_iff (s := s) (hsort.pairwise_zip hmono)
  simp only [decisionPhase, if_pos hgate]
  constructor
  · intro hs
    obtain ⟨⟨r, ds⟩, hmem, hs⟩ := mem_filterMap.1 hs
    obtain ⟨⟨p, x⟩, hx, hexp, rfl, hds⟩ := hsent.1 hmem
    obtain ⟨hr, hs⟩ := Option.dite_none_right_eq_some.1 hs
    cases hs
    have heq : x = v.summary x.whoami := (hsort.eq_of_mem_zip hx).1
    rw [heq] at hx hexp
    exact ⟨rfl, p, hx, hexp, hds⟩
  · rintro ⟨hf, p, hx, hexp, hds⟩
    exact mem_filterMap.2 ⟨(s.1, s.2.2), hsent.2 ⟨_, hx, hexp, rfl, hds⟩, by simp [s.1.2, ← hf]⟩

variable [IsStrictOrderedRing K]

omit [NeZero n] in
private theorem Halved.bounds (h : v.Halved r a ds) (ha : 0 < a) (hr : 0 ≤ v.iops r)
    (hd : ∀ d ∈ ds, 0 ≤ v.iops d.targetImportMds ∧ v.iops d.targetImportMds ≤ v.iops r) :
    (∀ d ∈ ds, 0 ≤ d.targetExportPercent ∧ d.targetExportPercent ≤ a) ∧
      (ds.map (·.targetExportPercent)).sum < 2 * a := by
  induction ds generalizing a with
  | nil => exact ⟨by simp, by simpa using ha⟩
  | cons d ds ih =>
    obtain ⟨hp, h⟩ := h
    rw [forall_mem_cons] at hd
    obtain ⟨hrange, hsum⟩ := ih h (half_pos ha) hd.2
    have hshare := div_nonneg (sub_nonneg.2 hd.1.2) hr
    have hone := div_le_one_of_le₀ (sub_le_self _ hd.1.1) hr
    have hle := hp ▸ mul_le_of_le_one_right ha.le hone
    refine ⟨forall_mem_cons.2 ⟨⟨hp ▸ mul_nonneg ha.le hshare, hle⟩, fun e he => ?_⟩, ?_⟩
    · exact (hrange e he).imp_right fun h => h.trans (half_le_self ha.le)
    · rw [map_cons, sum_cons]
      linarith

omit [LinearOrder K] [IsStrictOrderedRing K] in
private theorem share_eq_iff {p r t : K} (hr : r ≠ 0) (ht : t ≠ r) :
    (p - t) / p = (r - t) / r ↔ p = r ∨ p ≠ 0 ∧ t = 0 := by
  by_cases hp : p = 0
  · simp [hp, hr, sub_eq_zero, ht.symm, eq_comm]
  · rw [div_eq_div_iff hp hr, ← sub_eq_zero, show (p - t) * r - (r - t) * p = t * (p - r) by ring, mul_eq_zero,
      sub_eq_zero, or_comm]
    simp [hp]

omit [NeZero n] in
/-- Percents worked out from `p` are those of `r` where each share is. -/
theorem Halved.iff_of_halved (h : v.Halved p a ds) (ha : a ≠ 0) (hr : v.iops r ≠ 0)
    (hd : ∀ d ∈ ds, v.iops d.targetImportMds ≠ v.iops r) : v.Halved r a ds ↔
      ∀ d ∈ ds, v.iops p = v.iops r ∨ v.iops p ≠ 0 ∧ v.iops d.targetImportMds = 0 := by
  induction ds generalizing a with
  | nil => simp [Halved]
  | cons d ds ih =>
    rw [forall_mem_cons] at hd
    rw [Halved, h.1, mul_right_inj' ha, share_eq_iff hr hd.1, ih h.2 (div_ne_zero ha two_ne_zero) hd.2, forall_mem_cons]

private theorem valid_iff_of_tryMatch (hpos : ∀ i, 0 ≤ v.iops i) (hl : ∀ x ∈ l, x = v.summary x.whoami)
    (hr : v.avgIops < v.iops r) (h : v.tryMatch p r l (1 / 4) 3 = some ds) :
    v.Valid r ds ↔ ∀ y ∈ v.paired l r, v.iops p = v.iops r ∨ v.iops p ≠ 0 ∧ v.iops y.whoami = 0 := by
  obtain ⟨htarget, hpercent⟩ := tryMatch_spec h
  have hlow : ∀ d ∈ ds, d.targetImportMds ≠ r ∧ v.iops d.targetImportMds ≤ v.avgIops := by
    intro d hd
    obtain ⟨x, hx, hxd, hne, hsmall, -⟩ := exists_importer h hd
    rw [hl x hx] at hsmall
    exact ⟨hxd ▸ hne, hxd ▸ not_lt.1 (of_decide_eq_false hsmall)⟩
  have havg : 0 ≤ v.avgIops := div_nonneg (Finset.sum_nonneg fun i _ => hpos i) n.cast_nonneg
  have hiff := hpercent.iff_of_halved (by norm_num) (havg.trans_lt hr).ne' fun d hd => ((hlow d hd).2.trans_lt hr).ne
  have hmap := congrArg (fun is => ∀ i ∈ is, v.iops p = v.iops r ∨ v.iops p ≠ 0 ∧ v.iops i = 0) htarget
  simp only [forall_mem_map] at hmap
  rw [paired, ← hmap, ← hiff]
  refine ⟨fun h => h.percent, fun h => ?_⟩
  obtain ⟨hrange, hsum⟩ := h.bounds (by norm_num) (hpos r) fun d hd => ⟨hpos _, (hlow d hd).2.trans hr.le⟩
  exact ⟨hlow, h, hrange, by linarith⟩

/-- The decisions are valid just where each exporter is placed as its IOPS ask. -/
theorem decisions_valid (v : Phase n K) (factor : K) (tail : List (ImbalanceSummary n K)) (hpos : ∀ i, 0 ≤ v.iops i)
    (hmono : ∀ x y, v.avgIops < x → x < y → v.myIf x < v.myIf y) (hsort : v.Sorted tail)
    (hgate : v.simpleIfThreshold ≤ factor) :
    ((∀ s ∈ (v.decisionPhase factor tail).sends, v.Valid s.1 s.2.2) ∧
      ∀ ds, (v.decisionPhase factor tail).own = some ds → v.Valid 0 ds) ↔ v.Placed tail := by
  constructor
  · rintro ⟨h, -⟩ p r ⟨hx, hexp, hone⟩
    obtain ⟨ds, hds⟩ := Option.ne_none_iff_exists'.1 (mt tryMatch_eq_none_iff.1 fun h => h.1.not_gt hone)
    have hvalid := h (⟨r, hsort.exists_zip_iff.1 ⟨p, hx⟩⟩, factor, ds)
      ((mem_sends_iff hsort hmono hgate).2 ⟨rfl, p, hx, hexp, hds⟩)
    exact (valid_iff_of_tryMatch hpos hsort.eq_summary (of_decide_eq_true hexp.2) hds).1 hvalid
  · refine fun h => ⟨fun s hs => ?_, fun ds hds => ?_⟩
    · obtain ⟨-, p, hx, hexp, hds⟩ := (mem_sends_iff hsort hmono hgate).1 hs
      refine (valid_iff_of_tryMatch hpos hsort.eq_summary (of_decide_eq_true hexp.2) hds).2 fun y hy => ?_
      refine h p s.1 ⟨hx, hexp, not_le.1 fun hone => ?_⟩ y hy
      -- with an importer, an exporter of at most 1 ends the loop
      obtain ⟨hy, himp⟩ := mem_filter.1 (mem_of_mem_take hy)
      cases (tryMatch_eq_none_iff.2 ⟨hone, three_ne_zero, y, hy, of_decide_eq_true himp⟩).symm.trans hds
    · simp only [decisionPhase, if_pos hgate, Option.ite_none_right_eq_some] at hds
      exact (valid_iff_of_tryMatch hpos hsort.eq_summary (of_decide_eq_true hds.1.2.2) hds.2).2 fun _ _ => .inl rfl

/-- Three ranks with the given IOPS, whose imbalance is the distance from the average over 15. -/
def three (iops : Fin 3 → ℚ) : Phase 3 ℚ := ⟨iops, fun _ => 1, 3 / 10, fun x => |x - average iops| / 15⟩

private theorem three_mono (iops : Fin 3 → ℚ) : ∀ x y, (three iops).avgIops < x → x < y →
    (three iops).myIf x < (three iops).myIf y := by
  intro x y hx hxy
  have hx' : 0 < x - average iops := sub_pos.2 hx
  have hy' : 0 < y - average iops := sub_pos.2 (hx.trans hxy)
  simp only [three, abs_of_pos hx', abs_of_pos hy']
  linarith

theorem decisions_valid_three : ((three ![0, 12, 3]).decisionPhase 1 ((others 3).map (three ![0, 12, 3]).summary)).sends.map
      (fun s => (s.1.1, s.2.2.map (·.targetExportPercent))) = [(1, [1 / 4, 3 / 32])] ∧
    ∀ s ∈ ((three ![0, 12, 3]).decisionPhase 1 ((others 3).map (three ![0, 12, 3]).summary)).sends,
      (three ![0, 12, 3]).Valid s.1 s.2.2 :=
  ⟨by decide +kernel, ((decisions_valid _ 1 _ (by decide +kernel) (three_mono _) ⟨.refl _, by decide +kernel⟩
    (by decide +kernel)).2 (by decide +kernel)).1⟩

/-- Rank 2 comes first after the sort, and its percents are worked out from the IOPS of rank 1. -/
theorem decisions_misplaced : (three ![3, 1, 14]).Sorted [(three ![3, 1, 14]).summary 2, (three ![3, 1, 14]).summary 1] ∧
    ((three ![3, 1, 14]).decisionPhase 1 [(three ![3, 1, 14]).summary 2, (three ![3, 1, 14]).summary 1]).sends.map
      (fun s => (s.1.1, s.2.2.map (·.targetExportPercent))) = [(2, [-1 / 2, 0])] :=
  ⟨⟨by decide +kernel, by decide +kernel⟩, by decide +kernel⟩

/-! ### Who takes part -/

omit [Field K] [LinearOrder K] [IsStrictOrderedRing K] in
private theorem eq_firstPos_iff {P : Fin n → Prop} [DecidablePred P] (hP : ∃ i, P i) (i : Fin n) :
    (i : ℤ) = firstPos P ↔ i = 0 ∧ P 0 := by
  constructor
  · intro h
    cases hf : (finRange n).find? P with
    | none =>
      obtain ⟨k, hk⟩ := hP
      exact absurd hk (by simpa using find?_eq_none.1 hf k (mem_finRange k))
    | some k =>
      have hk : P k := by simpa using find?_some hf
      simp only [firstPos, hf, Option.getD_some] at h
      have hk0 : k = 0 := Fin.val_eq_zero_iff.1 (by omega)
      exact ⟨Fin.val_eq_zero_iff.1 (by omega), hk0 ▸ hk⟩
  · rintro ⟨rfl, h⟩
    obtain ⟨m, rfl⟩ := Nat.exists_eq_succ_of_ne_zero (NeZero.ne n)
    simp [firstPos, finRange_succ, h]

/-- Rank `r` exports or is told to: to ranks of least IOPS or over the threshold. -/
def Served (v : Phase n K) (plan : DecisionPlan n K) (r : Fin n) : Prop :=
  ∃ ds ≠ [], ((∃ s ∈ plan.sends, s.1.1 = r ∧ s.2.2 = ds) ∨ r = 0 ∧ plan.own = some ds) ∧
    ∀ d ∈ ds, (∀ j, v.iops d.targetImportMds ≤ v.iops j) ∨ v.myIfThreshold ≤ v.myIf (v.iops d.targetImportMds)

/-- A rank of most IOPS that exports and a rank that imports. Where only rank 0 has most IOPS, no other exporter may end
the loop before its turn. -/
def Paired (v : Phase n K) : Prop :=
  (∃ t, v.iops t ≤ v.avgIops ∧ (v.myIfThreshold ≤ v.myIf (v.iops t) ∨ t = 0 ∧ ∀ j, v.iops 0 ≤ v.iops j)) ∧
    ∃ r, (∀ j, v.iops j ≤ v.iops r) ∧ v.avgIops < v.iops r ∧
      if r = 0 then ∀ i ≠ 0, v.avgIops < v.iops i → v.myIfThreshold < v.myIf (v.iops i) → 1 < v.iops i
      else v.myIfThreshold < v.myIf (v.iops r)

omit [Field K] [IsStrictOrderedRing K] in
private theorem eq_minPos_iff {i : Fin n} : (i : ℤ) = v.minPos ↔ i = 0 ∧ ∀ j, v.iops 0 ≤ v.iops j :=
  eq_firstPos_iff (Finite.exists_min v.iops) i

omit [IsStrictOrderedRing K] in
private theorem exporter_summary_iff {i : Fin n} : v.Exporter (v.summary i) ↔
    (i = 0 ∧ (∀ j, v.iops j ≤ v.iops 0) ∨ v.myIfThreshold < v.myIf (v.iops i)) ∧ v.avgIops < v.iops i := by
  have hpos : v.maxPos = (i : ℤ) ↔ i = 0 ∧ ∀ j, v.iops j ≤ v.iops 0 :=
    eq_comm.trans (eq_firstPos_iff (Finite.exists_max v.iops) i)
  rw [← hpos]
  exact and_congr_right' (decide_eq_true_iff)

omit [IsStrictOrderedRing K] in
private theorem Sorted.exists_importer_iff (h : v.Sorted tail) (hr : v.avgIops < v.iops r) :
    (∃ x ∈ v.summary 0 :: tail, v.Importer r x) ↔
      ∃ t, v.iops t ≤ v.avgIops ∧ (v.myIfThreshold ≤ v.myIf (v.iops t) ∨ t = 0 ∧ ∀ j, v.iops 0 ≤ v.iops j) := by
  simp only [← eq_minPos_iff, ← importer_summary_iff hr]
  constructor
  · rintro ⟨x, hx, himp⟩
    rw [h.eq_summary x hx] at himp
    exact ⟨_, himp⟩
  · rintro ⟨t, ht⟩
    refine ⟨_, ?_, ht⟩
    by_cases h0 : t = 0
    · exact h0 ▸ mem_cons_self
    · obtain ⟨p, hp⟩ := h.exists_zip_iff.2 h0
      exact mem_cons_of_mem _ (of_mem_zip hp).2

omit [IsStrictOrderedRing K] in
/-- A rank gets decisions for ranks of least IOPS or over the threshold only, and some where there is an importer. -/
theorem Sorted.tryMatch_targets (h : v.Sorted tail) (hds : v.tryMatch p r (v.summary 0 :: tail) (1 / 4) 3 = some ds) :
    (ds ≠ [] ↔ ∃ x ∈ v.summary 0 :: tail, v.Importer r x) ∧ ∀ d ∈ ds,
      (∀ j, v.iops d.targetImportMds ≤ v.iops j) ∨ v.myIfThreshold ≤ v.myIf (v.iops d.targetImportMds) := by
  refine ⟨⟨fun hne => ?_, ?_⟩, fun d hd => ?_⟩
  · obtain ⟨d, hd⟩ := exists_mem_of_ne_nil _ hne
    exact (exists_importer hds hd).imp fun x hx => ⟨hx.1, hx.2.2⟩
  · rintro ⟨x, hx, himp⟩ rfl
    have hpaired := (tryMatch_spec hds).1.symm
    have hquota : v.quota (1 / 4) 3 ≠ 0 := by
      rw [quota]
      split_ifs <;> simp
    rw [map_nil, map_eq_nil_iff, take_eq_nil_iff, filter_eq_nil_iff] at hpaired
    exact hpaired.resolve_left hquota x hx (decide_eq_true himp)
  · obtain ⟨x, hx, hxd, -, -, himp⟩ := exists_importer hds hd
    rw [h.eq_summary x hx, hxd] at himp
    refine himp.symm.imp (fun hpos => ?_) id
    obtain ⟨h0, hleast⟩ := eq_minPos_iff.1 hpos
    exact fun j => (congrArg v.iops h0).trans_le (hleast j)

omit [IsStrictOrderedRing K] in
/-- The loop gets to its end just where each exporter has more than 1, or nothing to send. -/
theorem Sorted.sendDecisions_ends_iff (h : v.Sorted tail) (himp : ∃ x ∈ v.summary 0 :: tail, v.Importer 0 x)
    (h0 : v.avgIops < v.iops 0) : (v.sendDecisions (v.summary 0 :: tail) ((others n).zip tail)).2 = true ↔
      ∀ i ≠ 0, v.avgIops < v.iops i → v.myIfThreshold < v.myIf (v.iops i) → 1 < v.iops i := by
  rw [h.exists_importer_iff h0] at himp
  rw [sendDecisions_ends]
  constructor
  · intro hend i hi hbig hif
    obtain ⟨p, hp⟩ := h.exists_zip_iff.2 hi
    refine not_le.1 fun hone => hend _ hp (exporter_summary_iff.2 ⟨.inr hif, hbig⟩) ?_
    exact tryMatch_eq_none_iff.2 ⟨hone, three_ne_zero, (h.exists_importer_iff hbig).2 himp⟩
  · intro hlarge x hx hexp hnone
    obtain ⟨heq, hi⟩ := h.eq_of_mem_zip hx
    rw [heq, exporter_summary_iff] at hexp
    have hif := hexp.1.resolve_left fun h => hi h.1
    exact (tryMatch_eq_none_iff.1 hnone).1.not_gt (hlarge _ hi hexp.2 hif)

omit [IsStrictOrderedRing K] in
private theorem Sorted.served_iff {factor : K} (h : v.Sorted tail)
    (hmono : ∀ x y, v.avgIops < x → x < y → v.myIf x < v.myIf y) (hgate : v.simpleIfThreshold ≤ factor)
    (hmost : ∀ j, v.iops j ≤ v.iops r) (hone : 1 < v.iops r) : v.Served (v.decisionPhase factor tail) r ↔
      (∃ x ∈ v.summary 0 :: tail, v.Importer r x) ∧ v.avgIops < v.iops r ∧
        if r = 0 then ∀ i ≠ 0, v.avgIops < v.iops i → v.myIfThreshold < v.myIf (v.iops i) → 1 < v.iops i
        else v.myIfThreshold < v.myIf (v.iops r) := by
  have hown : (v.decisionPhase factor tail).own = if (v.sendDecisions (v.summary 0 :: tail)
      ((others n).zip tail)).2 = true ∧ v.Exporter (v.summary 0) then
        v.tryMatch 0 0 (v.summary 0 :: tail) (1 / 4) 3 else none := by
    rw [decisionPhase, if_pos hgate]
  constructor
  · rintro ⟨ds, hne, ⟨s, hs, rfl, rfl⟩ | ⟨rfl, hds⟩, -⟩
    · obtain ⟨-, p, -, hexp, hds⟩ := (mem_sends_iff h hmono hgate).1 hs
      obtain ⟨hif, hbig⟩ := exporter_summary_iff.1 hexp
      rw [if_neg s.1.2]
      exact ⟨(h.tryMatch_targets hds).1.1 hne, hbig, hif.resolve_left fun h => s.1.2 h.1⟩
    · rw [hown, Option.ite_none_right_eq_some] at hds
      have himp := (h.tryMatch_targets hds.2).1.1 hne
      have hbig := (exporter_summary_iff.1 hds.1.2).2
      exact ⟨himp, hbig, if_pos rfl ▸ (h.sendDecisions_ends_iff himp hbig).1 hds.1.1⟩
  · rintro ⟨himp, hbig, hr⟩
    have hsome (p) := Option.ne_none_iff_exists'.1 (mt (tryMatch_eq_none_iff (v := v) (p := p) (r := r)
      (l := v.summary 0 :: tail) (a := 1 / 4) (k := 3)).1 fun h => h.1.not_gt hone)
    split_ifs at hr with h0
    · subst h0
      obtain ⟨ds, hds⟩ := hsome 0
      obtain ⟨hne, htarget⟩ := h.tryMatch_targets hds
      refine ⟨ds, hne.2 himp, .inr ⟨rfl, ?_⟩, htarget⟩
      rw [hown, if_pos ⟨(h.sendDecisions_ends_iff himp hbig).2 hr, exporter_summary_iff.2 ⟨.inl ⟨rfl, hmost⟩, hbig⟩⟩, hds]
    · obtain ⟨p, hp⟩ := h.exists_zip_iff.2 h0
      obtain ⟨ds, hds⟩ := hsome p
      obtain ⟨hne, htarget⟩ := h.tryMatch_targets hds
      have hsent := (mem_sends_iff h hmono hgate (s := (⟨r, h0⟩, factor, ds))).2
        ⟨rfl, p, hp, exporter_summary_iff.2 ⟨.inr hr, hbig⟩, hds⟩
      exact ⟨ds, hne.2 himp, .inl ⟨_, hsent, rfl, rfl⟩, htarget⟩

end Phase

section
variable (sqrt : K → K) (iops load : Fin n → K) (threshold : K)

def imbalanceDegree : K :=
  if sqrt n * average iops = 0 then 0
  else sqrt ((∑ i, (iops i - average iops) * (iops i - average iops)) / (n - 1)) / (sqrt n * average iops)

/-- The decision phase with `my_if` as the code works it out. -/
def phaseOf : Phase n K where
  iops := iops
  load := load
  simpleIfThreshold := threshold
  myIf x := sqrt ((x - average iops) * (x - average iops) / (n - 1)) / (sqrt n * average iops)

end

omit [NeZero n] in
private theorem phaseOf_mono (iops load : Fin n → ℝ) (threshold : ℝ) (hn : 2 ≤ n) (havg : 0 < average iops) :
    ∀ x y, (phaseOf sqrt iops load threshold).avgIops < x → x < y →
      (phaseOf sqrt iops load threshold).myIf x < (phaseOf sqrt iops load threshold).myIf y := by
  intro x y hx hxy
  have hn' : (0 : ℝ) < n - 1 := sub_pos.2 (Nat.one_lt_cast.2 hn)
  have hroot : 0 < sqrt n := sqrt_pos.2 (by linarith)
  have hx' : 0 < x - average iops := sub_pos.2 hx
  refine div_lt_div_of_pos_right (sqrt_lt_sqrt (by positivity) (div_lt_div_of_pos_right ?_ hn')) (by positivity)
  exact mul_self_lt_mul_self hx'.le (by linarith)

/-- A detected imbalance is acted on just where a rank of most IOPS and an importer are paired without `max_pos` and
`min_pos`, or by them because they are rank 0. -/
theorem imbalance_not_ignored (iops load : Fin n → ℝ) (threshold urgency : ℝ) (tail : List (ImbalanceSummary n ℝ))
    (hn : 2 ≤ n) (havg : 0 < average iops) (hone : ∃ i, 1 < iops i)
    (hsort : (phaseOf sqrt iops load threshold).Sorted tail)
    (hgate : threshold ≤ imbalanceDegree sqrt iops * urgency) :
    (∃ r, (∀ j, iops j ≤ iops r) ∧ (phaseOf sqrt iops load threshold).Served
      ((phaseOf sqrt iops load threshold).decisionPhase (imbalanceDegree sqrt iops * urgency) tail) r) ↔
        (phaseOf sqrt iops load threshold).Paired := by
  obtain ⟨i, hi⟩ := hone
  have hserved {r} (hmost : ∀ j, iops j ≤ iops r) :=
    hsort.served_iff (phaseOf_mono iops load threshold hn havg) hgate hmost (hi.trans_le (hmost i))
  constructor
  · rintro ⟨r, hmost, h⟩
    obtain ⟨himp, hbig, hr⟩ := (hserved hmost).1 h
    exact ⟨(hsort.exists_importer_iff hbig).1 himp, r, hmost, hbig, hr⟩
  · rintro ⟨himp, r, hmost, hbig, hr⟩
    exact ⟨r, hmost, (hserved hmost).2 ⟨(hsort.exists_importer_iff hbig).2 himp, hbig, hr⟩⟩

theorem imbalance_not_ignored_two : ∃ tail r, (phaseOf sqrt ![0, 3 / 2] 0 (1 / 50)).Served
    ((phaseOf sqrt ![0, 3 / 2] 0 (1 / 50)).decisionPhase (imbalanceDegree sqrt ![0, 3 / 2] * (1 / 2)) tail) r := by
  have havg : average ![(0 : ℝ), 3 / 2] = 3 / 4 := by norm_num [average]
  have hlarge : ∀ x : ℝ, 9 / 16 ≤ x → 1 / 2 ≤ sqrt x / (sqrt 2 * (3 / 4)) := by
    intro x hx
    have h2 : 3 / 4 ≤ sqrt x := le_sqrt_of_sq_le (by linarith)
    have hroot : sqrt 2 ≤ 2 := sqrt_le_iff.2 ⟨by norm_num, by norm_num⟩
    rw [le_div_iff₀ (by positivity)]
    linarith
  have h := (imbalance_not_ignored ![0, 3 / 2] 0 (1 / 50) (1 / 2) _ le_rfl (by norm_num [havg]) ⟨1, by norm_num⟩
    ⟨.refl _, pairwise_singleton _ _⟩ ?_).2 ⟨⟨0, ?_, .inr ⟨rfl, ?_⟩⟩, 1, ?_, ?_, ?_⟩
  · exact ⟨_, h.imp fun r => And.right⟩
  · have := hlarge (9 / 8) (by norm_num)
    norm_num [imbalanceDegree, havg] at this ⊢
    linarith
  · norm_num [phaseOf, Phase.avgIops, havg]
  · norm_num [phaseOf]
  · norm_num [phaseOf]
  · norm_num [phaseOf, Phase.avgIops, havg]
  · have := hlarge (9 / 16) le_rfl
    norm_num [Phase.myIfThreshold, phaseOf, havg]
    linarith

def spread (i : Fin 4) : ℝ := if i = 0 then 0 else 4

/-- The imbalance degree is 1/3, and no rank exports. -/
theorem spread_ignored : average spread = 3 ∧ 3 / 10 ≤ imbalanceDegree sqrt spread * (19 / 20) ∧
    ∃ tail, (phaseOf sqrt spread 0 (3 / 10)).Sorted tail ∧ (phaseOf sqrt spread 0 (3 / 10)).decisionPhase
      (imbalanceDegree sqrt spread * (19 / 20)) tail = ⟨[], none⟩ := by
  have havg : average spread = 3 := by
    rw [average, Fin.sum_univ_succ]
    norm_num [spread]
  have hsum : ∑ i, (spread i - 3) * (spread i - 3) = 12 := by
    rw [Fin.sum_univ_succ]
    norm_num [spread]
  have htwo : sqrt 4 = 2 := (sqrt_eq_iff_mul_self_eq (by norm_num) (by norm_num)).2 (by norm_num)
  obtain ⟨v, hv⟩ : ∃ v, v = phaseOf sqrt spread 0 (3 / 10) := ⟨_, rfl⟩
  have hfour : ∀ i, i ≠ 0 → v.iops i = 4 := fun i hi => by simp [hv, phaseOf, spread, hi]
  have hno : ∀ i, ¬ v.Exporter (v.summary i) := by
    rintro i ⟨hexp, hbig⟩
    have hbig' : v.avgIops < v.iops i := of_decide_eq_true hbig
    have hi : i ≠ 0 := by
      rintro rfl
      rw [Phase.avgIops, hv] at hbig'
      norm_num [phaseOf, havg, spread] at hbig'
    rcases hexp with hpos | hif
    · exact hi ((Phase.eq_firstPos_iff (Finite.exists_max v.iops) i).1 hpos.symm).1
    · have hroot : sqrt (1 / 3) ≤ 3 / 5 := sqrt_le_iff.2 ⟨by norm_num, by norm_num⟩
      have hif' : v.myIfThreshold < v.myIf 4 := hfour i hi ▸ hif
      norm_num [hv, Phase.myIfThreshold, phaseOf, havg, htwo] at hif' hroot
      linarith
  have hidle : ∀ vec l, (∀ x ∈ l, ∃ i, x.2 = v.summary i) → v.sendDecisions vec l = ([], true) := by
    intro vec l hl
    induction l with
    | nil => rfl
    | cons x l ih =>
      rw [forall_mem_cons] at hl
      obtain ⟨i, hi⟩ := hl.1
      rw [Phase.sendDecisions, if_neg (hi ▸ hno i), ih hl.2]
  have hsort : v.Sorted ((others 4).map v.summary) := by
    refine ⟨.refl _, pairwise_map.2 (pairwise_of_forall_mem_list fun i hi j hj => ?_)⟩
    simp only [others, mem_filter, decide_eq_true_eq] at hi hj
    simp [Phase.summary, hfour i hi.2, hfour j hj.2]
  refine ⟨havg, ?_, (others 4).map v.summary, hv ▸ hsort, ?_⟩
  · rw [imbalanceDegree, havg, hsum]
    norm_num [htwo]
  · have hnone := hidle (v.summary 0 :: (others 4).map v.summary) ((others 4).zip ((others 4).map v.summary))
      fun x hx => (mem_map.1 (of_mem_zip hx).2).imp fun i hi => hi.2.symm
    simp [← hv, Phase.decisionPhase, hnone, hno]

end Lunule.Balancer
