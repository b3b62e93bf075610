import Lunule.IntervalSet.Basic
import Lunule.Lib.Exec

/-!
# Positions, insertion and removal

On a canonical map `find_inc` and `find_adj` split the intervals into those that end before the position asked for and
the others. From this the insertion of a disjoint range and the removal of a contained one succeed, keep the map
canonical and change the set of elements by the range.
-/

namespace Lunule
open Intervals Exec
open Finset (mem_union union_empty mem_sdiff union_assoc)

namespace IntervalSet
variable {m pre rest : List Interval} {p q iv : Interval} {start len k v : Int}

/-! ### Positions -/

private theorem mem_lowerBound_snd (h : Canon m) (hp : p ∈ (lowerBound m start).2) : start ≤ p.1 := by
  unfold lowerBound at hp
  induction m with
  | nil => simp at hp
  | cons a m ih =>
    obtain ⟨-, hb, hm⟩ := canon_cons.1 h
    simp only [List.dropWhile_cons] at hp
    split at hp
    · exact ih hm hp
    rename_i ha
    have ha' : start ≤ a.1 := by simpa using ha
    rcases List.mem_cons.1 hp with rfl | hp
    · exact ha'
    · have := hb p hp
      have := h.lt_stop (i := a) (by simp)
      omega

private theorem seek_spec (past : Interval → Bool) (start : Int) (h : Canon m)
    (hpast : ∀ q ∈ m, stop q < start → past q = true) (hnot : ∀ q ∈ m, start < stop q → past q = false) :
    ∃ pre suf, seek past m start = (pre, suf) ∧ m = pre ++ suf ∧ (∀ a ∈ pre, past a = true) ∧
      ∀ b ∈ suf, past b = false := by
  have hsplit : m = (lowerBound m start).1 ++ (lowerBound m start).2 := (List.takeWhile_append_dropWhile ..).symm
  have hfst : ∀ a ∈ (lowerBound m start).1, a.1 < start := by
    intro a ha
    simpa using List.mem_takeWhile_imp ha
  have hsnd : ∀ b ∈ (lowerBound m start).2, past b = false := by
    intro b hb
    have hbm : b ∈ m := by
      rw [hsplit]
      exact List.mem_append_right _ hb
    have := mem_lowerBound_snd h hb
    have := h.lt_stop hbm
    exact hnot b hbm (by omega)
  have hcanon := h
  rw [hsplit] at hcanon
  obtain ⟨hl, -, hlr⟩ := canon_append.1 hcanon
  have hmem : ∀ a ∈ (lowerBound m start).1, a ∈ m := by
    intro a ha
    rw [hsplit]
    exact List.mem_append_left _ ha
  unfold seek
  generalize hpre : (lowerBound m start).1 = pre at *
  generalize hsuf : (lowerBound m start).2 = suf at *
  rcases List.eq_nil_or_concat pre with rfl | ⟨init, q, rfl⟩
  · exact ⟨[], suf, by simp [hpre, hsuf, Prod.ext_iff], hsplit, by simp, hsnd⟩
  rw [List.concat_eq_append] at *
  have hinit : ∀ a ∈ init, past a = true := by
    intro a ha
    have hsep := (canon_append.1 hl).2.2 a ha q (by simp)
    have := hfst q (by simp)
    exact hpast a (hmem a (by simp [ha])) (by omega)
  simp only [hpre, hsuf, List.getLast?_append, List.getLast?_singleton, Option.some_or]
  cases hq : past q with
  | true =>
    refine ⟨init ++ [q], suf, by simp [hpre, hsuf, Prod.ext_iff], hsplit, fun a ha => ?_, hsnd⟩
    rcases List.mem_append.1 ha with ha | ha
    · exact hinit a ha
    · rw [List.mem_singleton.1 ha, hq]
  | false =>
    -- no interval starts right at the position, or the one before it would be past
    have hall : (suf.head?.all fun p => decide (start < p.1)) = true := by
      cases suf with
      | nil => rfl
      | cons p suf =>
        have hle : start ≤ p.1 := by
          refine mem_lowerBound_snd h ?_
          rw [hsuf]
          simp
        have hne : start ≠ p.1 := by
          rintro rfl
          have := hpast q (hmem q (by simp)) (hlr q (by simp) p (by simp))
          simp [hq] at this
        simp
        omega
    refine ⟨init, q :: suf, by simp [hall], by rw [hsplit]; simp, hinit, fun b hb => ?_⟩
    rcases List.mem_cons.1 hb with rfl | hb
    · exact hq
    · exact hsnd b hb

private theorem findInc_spec (h : Canon m) (start : Int) : ∃ pre suf, findInc m start = (pre, suf) ∧ m = pre ++ suf ∧
    (∀ a ∈ pre, stop a ≤ start) ∧ ∀ b ∈ suf, start < stop b := by
  obtain ⟨pre, suf, hs, hm, hpre, hsuf⟩ := seek_spec (fun q => decide (q.1 + q.2 ≤ start)) start h
    (fun q _ hq => by unfold stop at hq; simp; omega) (fun q _ hq => by unfold stop at hq; simp; omega)
  refine ⟨pre, suf, hs, hm, fun a ha => ?_, fun b hb => ?_⟩
  · simpa [stop] using hpre a ha
  · simpa [stop] using hsuf b hb

private theorem findAdj_spec (h : Canon m) (start : Int) : ∃ pre suf, findAdj m start = (pre, suf) ∧ m = pre ++ suf ∧
    (∀ a ∈ pre, stop a < start) ∧ ∀ b ∈ suf, start ≤ stop b := by
  obtain ⟨pre, suf, hs, hm, hpre, hsuf⟩ := seek_spec (fun q => decide (q.1 + q.2 < start)) start h
    (fun q _ hq => by unfold stop at hq; simp; omega) (fun q _ hq => by unfold stop at hq; simp; omega)
  refine ⟨pre, suf, hs, hm, fun a ha => ?_, fun b hb => ?_⟩
  · simpa [stop] using hpre a ha
  · simpa [stop] using hsuf b hb

theorem findInc_snd (h : Canon m) (start : Int) : (findInc m start).2 = after start m := by
  obtain ⟨pre, suf, hs, rfl, hpre, hsuf⟩ := findInc_spec h start
  rw [hs, after_append hpre]
  cases suf with
  | nil => rfl
  | cons b suf => rw [after_cons_of_lt (hsuf b (by simp))]

/-! ### Entries of the map -/

private theorem assign_mid (hpre : ∀ a ∈ pre, a.1 < k) (hrest : ∀ b ∈ rest, k < b.1) :
    assign (pre ++ rest) k v = pre ++ (k, v) :: rest := by
  induction pre with
  | nil =>
    cases rest with
    | nil => rfl
    | cons b rest => simp [assign, hrest b (by simp)]
  | cons a pre ih =>
    have ha := hpre a (by simp)
    rw [List.cons_append, assign, if_neg (by omega), if_neg (by omega), ih fun b hb => hpre b (by simp [hb])]
    rfl

theorem emplace_last (h : ∀ a ∈ m, a.1 < iv.1) : emplace m iv = m ++ [iv] := by
  induction m with
  | nil => rfl
  | cons a m ih =>
    have ha := h a (by simp)
    rw [emplace, if_neg (by omega), if_neg (by omega), ih fun b hb => h b (by simp [hb])]
    rfl

/-! ### Insertion -/

abbrev span (start len : Int) : Finset Int := between start (start + len)

/-- What `insert` does to the map. -/
structure Inserts (m m' : List Interval) (start len : Int) : Prop where
  canon : Canon m'
  elems : elems m' = elems m ∪ span start len
  total : total m' = total m + len

private theorem inserts_mid {mid : List Interval} (h : Canon (pre ++ mid ++ rest)) {iv : Interval} (hlen : 0 < iv.2)
    (hpre : ∀ a ∈ pre, stop a < iv.1) (hrest : ∀ b ∈ rest, stop iv < b.1)
    (helems : range iv = elems mid ∪ span start len) (htotal : iv.2 = total mid + len) :
    Inserts (pre ++ mid ++ rest) (pre ++ iv :: rest) start len := by
  obtain ⟨hpm, hr, -⟩ := canon_append.1 h
  obtain ⟨hp, -⟩ := canon_append.1 hpm
  refine ⟨canon_append.2 ⟨hp, canon_cons.2 ⟨hlen, hrest, hr⟩, fun a ha b hb => ?_⟩, ?_, ?_⟩
  · rcases List.mem_cons.1 hb with rfl | hb
    · exact hpre a ha
    · have := hpre a ha
      have := hrest b hb
      have : iv.1 < stop iv := by unfold stop; omega
      omega
  · simp only [elems_append, elems_cons, helems]
    ext x
    simp only [mem_union]
    tauto
  · simp only [total_append, total_cons]
    omega

private theorem insertMap_spec (h : Canon m) (hlen : 0 < len) (hdisj : Disjoint (span start len) (elems m)) :
    ∃ m' iv, insertMap m start len = some (m', iv) ∧ Inserts m m' start len := by
  obtain ⟨pre, suf, hs, hm, hpre, hsuf⟩ := findAdj_spec h start
  have hout : ∀ x ∈ elems m, ¬(start ≤ x ∧ x < start + len) := by
    intro x hx hin
    exact Finset.disjoint_left.1 hdisj (mem_between.2 hin) hx
  have hpre1 : ∀ a ∈ pre, a.1 < start := by
    intro a ha
    have := hpre a ha
    have := h.lt_stop (i := a) (by simp [hm, ha])
    omega
  unfold insertMap
  rw [hs]
  cases suf with
  | nil =>
    rw [List.append_nil] at hm
    subst hm
    refine ⟨_, _, rfl, ?_⟩
    have hassign : assign (m ++ []) start len = m ++ [(start, len)] := assign_mid hpre1 (by simp)
    have hmid : Inserts (m ++ [] ++ []) (m ++ [(start, len)]) start len :=
      inserts_mid (by simpa using h) hlen hpre (by simp) (by simp [range, stop]) (by simp)
    simp only [List.append_nil] at hassign hmid
    rwa [hassign]
  | cons p rest =>
    subst hm
    obtain ⟨-, hcr, hsep⟩ := canon_append.1 h
    obtain ⟨hp2, hprest, hcrest⟩ := canon_cons.1 hcr
    have hpmem : p ∈ pre ++ p :: rest := by simp
    have hstart : start ≤ stop p := hsuf p (by simp)
    have hpin : p.1 < stop p := h.lt_stop hpmem
    by_cases hlt : p.1 < start
    · -- the range starts where `p` ends
      have htouch : stop p = start := by
        by_contra hne
        refine hout start (mem_elems.2 ⟨p, hpmem, by omega, by omega⟩) ⟨by omega, by omega⟩
      have htouch' : p.1 + p.2 = start := htouch
      simp only [hlt, htouch', ne_eq]
      have hmid : ∀ (mid rest' : List Interval) {n : Int}, rest = mid ++ rest' → n = p.2 + total mid + len →
          range (p.1, n) = elems (p :: mid) ∪ span start len → (∀ b ∈ rest', p.1 + n < b.1) → 0 < n →
          Inserts (pre ++ p :: rest) (pre ++ (p.1, n) :: rest') start len := by
        intro mid rest' n hrest hn hrange hb hpos
        subst hrest
        have : Inserts (pre ++ p :: mid ++ rest') (pre ++ (p.1, n) :: rest') start len :=
          inserts_mid (by simpa using h) hpos (fun a ha => hsep a ha p (by simp)) hb hrange (by simp [hn])
        simpa using this
      cases rest with
      | nil =>
        refine ⟨_, _, rfl, hmid [] [] rfl (by simp) ?_ (by simp) (by omega)⟩
        ext x
        simp only [elems_cons, elems_nil, union_empty, mem_union, mem_range, mem_between, stop]
        omega
      | cons n rest =>
        have hn1 : stop p < n.1 := hprest n (by simp)
        have hnin : n.1 < stop n := h.lt_stop (by simp)
        have hnext : start + len ≤ n.1 := by
          by_contra hlt'
          exact hout n.1 (mem_elems.2 ⟨n, by simp, le_refl _, hnin⟩) ⟨by omega, by omega⟩
        have hnrest := (canon_cons.1 hcrest).2.1
        by_cases heq : start + len = n.1
        · simp only [heq]
          have hn2 : 0 < n.2 := h.pos n (by simp)
          refine ⟨_, _, rfl, hmid [n] rest rfl (by simp; omega) ?_ (fun b hb => ?_) (by omega)⟩
          · ext x
            simp only [elems_cons, elems_nil, union_empty, mem_union, mem_range, mem_between, stop]
            omega
          · have := hnrest b hb
            unfold stop at this
            omega
        · simp only [heq]
          refine ⟨_, _, rfl, hmid [] (n :: rest) rfl (by simp) ?_ (fun b hb => ?_) (by omega)⟩
          · ext x
            simp only [elems_cons, elems_nil, union_empty, mem_union, mem_range, mem_between, stop]
            omega
          · rcases List.mem_cons.1 hb with rfl | hb
            · omega
            · have := hnrest b hb
              omega
    · have hge : start + len ≤ p.1 := by
        by_contra hlt'
        exact hout p.1 (mem_elems.2 ⟨p, hpmem, le_refl _, hpin⟩) ⟨by omega, by omega⟩
      simp only [hlt]
      by_cases heq : start + len = p.1
      · simp only [heq]
        refine ⟨_, _, rfl, ?_⟩
        rw [assign_mid hpre1 fun b hb => by have := hprest b hb; omega]
        have : Inserts (pre ++ [p] ++ rest) (pre ++ (start, len + p.2) :: rest) start len := by
          refine inserts_mid (by simpa using h) (by simp only; omega) hpre (fun b hb => ?_) ?_ (by simp; omega)
          · have := hprest b hb
            unfold stop at this ⊢
            omega
          · ext x
            simp only [elems_cons, elems_nil, union_empty, mem_union, mem_range, mem_between, stop]
            omega
        simpa using this
      · have hgt : p.1 > start + len := by omega
        simp only [heq, hgt]
        refine ⟨_, _, rfl, ?_⟩
        rw [assign_mid hpre1 fun b hb => ?_]
        · have : Inserts (pre ++ [] ++ p :: rest) (pre ++ (start, len) :: p :: rest) start len := by
            refine inserts_mid (by simpa using h) hlen hpre (fun b hb => ?_) (by simp [range, stop]) (by simp)
            rcases List.mem_cons.1 hb with rfl | hb
            · exact hgt
            · have := hprest b hb
              unfold stop at this ⊢
              omega
          simpa using this
        · rcases List.mem_cons.1 hb with rfl | hb
          · omega
          · have := hprest b hb
            omega

/-! ### Sets -/

/-- The set that an interval set stands for. Its size fits the field that holds it. -/
structure Rep (s : IntervalSet) (S : Finset Int) : Prop where
  canon : Canon s.m
  elems : elems s.m = S
  size : s.size = S.card
  fits : S.card < 2 ^ 63

variable {s a t : IntervalSet} {S A : Finset Int} {L : List Interval}

/-- A finite set has one interval set. -/
theorem Rep.unique (hs : Rep s S) (ht : Rep t S) : s = t := by
  obtain ⟨m, size⟩ := s
  obtain ⟨m', size'⟩ := t
  have hm : m = m' := hs.canon.eq_of_elems ht.canon (hs.elems.trans ht.elems.symm)
  have hsize : size = size' := hs.size.trans ht.size.symm
  rw [hm, hsize]

theorem wrap64_of_lt {x : Int} (h0 : 0 ≤ x) (h : x < 2 ^ 63) : wrap64 x = x := by
  unfold wrap64
  omega

theorem rep_empty : Rep {} ∅ := ⟨canon_nil, rfl, rfl, by simp⟩

theorem Rep.total (h : Rep s S) : Intervals.total s.m = S.card := by rw [← h.canon.card_elems, h.elems]

theorem Rep.isEmpty_iff (h : Rep s S) : s.m = [] ↔ S = ∅ := by
  rw [← h.canon.total_eq_zero, h.total]
  simp

theorem Rep.size_eq_zero (h : Rep s S) : s.size = 0 ↔ S = ∅ := by
  rw [h.size]
  simp

theorem Rep.insert (h : Rep s S) (hlen : 0 < len) (hdisj : Disjoint (span start len) S)
    (hfits : (S ∪ span start len).card < 2 ^ 63) :
    ∃ t, s.insert start len = some t ∧ Rep t (S ∪ span start len) := by
  obtain ⟨m', iv, hm, hins⟩ := insertMap_spec h.canon hlen (by rwa [h.elems])
  refine ⟨⟨m', wrap64 (s.size + len)⟩, by simp [IntervalSet.insert, hm, not_le.2 hlen], hins.canon, ?_, ?_, hfits⟩
  · rw [hins.elems, h.elems]
  · have hcard : ((S ∪ span start len).card : Int) = S.card + len := by
      rw [← h.elems, ← hins.elems, hins.canon.card_elems, hins.total, h.canon.card_elems]
    have : s.size + len = (S ∪ span start len).card := by rw [hcard, h.size]
    rw [this]
    exact wrap64_of_lt (by omega) (by exact_mod_cast hfits)

/-! ### Removal -/

private theorem findInc_of_subset (h : Canon m) (hlen : 0 < len) (hsub : span start len ⊆ elems m) :
    ∃ pre p rest, findInc m start = (pre, p :: rest) ∧ m = pre ++ p :: rest ∧ p.1 ≤ start ∧ start + len ≤ stop p := by
  obtain ⟨iv, hiv, hfirst, hstop⟩ := h.exists_interval (by omega) hsub
  obtain ⟨pre, suf, hs, rfl, hpre, hsuf⟩ := findInc_spec h start
  have hivs : iv ∈ suf := by
    rcases List.mem_append.1 hiv with hiv | hiv
    · have := hpre iv hiv
      omega
    · exact hiv
  cases suf with
  | nil => simp at hivs
  | cons p rest =>
    have hp : p = iv := by
      rcases List.mem_cons.1 hivs with hp | hp
      · exact hp.symm
      · have := (canon_cons.1 (canon_append.1 h).2.1).2.1 iv hp
        have := hsuf p (by simp)
        omega
    exact ⟨pre, p, rest, hs, rfl, hp ▸ hfirst, hp ▸ hstop⟩

def pieces (p : Interval) (start len : Int) : List Interval :=
  (if start - p.1 ≠ 0 then [(p.1, start - p.1)] else []) ++
    if p.2 - (start - p.1) - len ≠ 0 then [(start + len, p.2 - (start - p.1) - len)] else []

private theorem mem_pieces (hlen : 0 < len) (hfirst : p.1 ≤ start) (hstop : start + len ≤ stop p)
    (hq : q ∈ pieces p start len) : 0 < q.2 ∧ p.1 ≤ q.1 ∧ stop q ≤ stop p := by
  unfold stop at *
  rcases List.mem_append.1 hq with hq | hq
  all_goals
    split at hq
    · rw [List.mem_singleton.1 hq]
      exact ⟨by simp only; omega, by simp only; omega, by simp only; omega⟩
    · simp at hq

private theorem canon_pieces (hlen : 0 < len) (hfirst : p.1 ≤ start) (hstop : start + len ≤ stop p) :
    Canon (pieces p start len) := by
  refine ⟨?_, fun q hq => (mem_pieces hlen hfirst hstop hq).1⟩
  unfold pieces
  split
  · split
    · simp [stop]
      omega
    · simp
  · split <;> simp

private theorem elems_pieces (hlen : 0 < len) (hfirst : p.1 ≤ start) (hstop : start + len ≤ stop p) :
    elems (pieces p start len) = range p \ span start len := by
  unfold stop at hstop
  ext x
  rw [pieces, elems_append, mem_union, mem_sdiff, mem_range, mem_between]
  have hbefore : x ∈ elems (if start - p.1 ≠ 0 then [(p.1, start - p.1)] else []) ↔ p.1 ≤ x ∧ x < start := by
    split
    · simp [stop]
    · simp
      omega
  have hafter : x ∈ elems (if p.2 - (start - p.1) - len ≠ 0 then [(start + len, p.2 - (start - p.1) - len)] else []) ↔
      start + len ≤ x ∧ x < stop p := by
    split <;> simp [stop] <;> omega
  rw [hbefore, hafter]
  unfold stop
  omega

private theorem erase_eq (h : Canon m) (hm : m = pre ++ p :: rest) (hfind : findInc m start = (pre, p :: rest))
    (hlen : 0 < len)
    (hfirst : p.1 ≤ start) (hstop : start + len ≤ stop p) {size : Int} (hsize : 0 ≤ wrap64 (size - len)) :
    (⟨m, size⟩ : IntervalSet).erase start len = some ⟨pre ++ pieces p start len ++ rest, wrap64 (size - len)⟩ := by
  subst hm
  have hbefore : ∀ b ∈ pre, b.1 < start + len := by
    intro b hb
    have := (canon_append.1 h).2.2 b hb p (by simp)
    have := h.lt_stop (i := b) (by simp [hb])
    omega
  have hafter : ∀ b ∈ rest, start + len < b.1 := by
    intro b hb
    have := (canon_cons.1 (canon_append.1 h).2.1).2.1 b hb
    omega
  have hp2 : ¬p.2 < start - p.1 + len := by
    unfold stop at hstop
    omega
  have hassign : ∀ v, assign (pre ++ rest) (start + len) v = pre ++ (start + len, v) :: rest :=
    fun v => assign_mid hbefore hafter
  have hassign' : ∀ u v, assign (pre ++ (p.1, u) :: rest) (start + len) v =
      pre ++ (p.1, u) :: (start + len, v) :: rest := by
    intro u v
    have : assign (pre ++ [(p.1, u)] ++ rest) (start + len) v = pre ++ [(p.1, u)] ++ (start + len, v) :: rest := by
      refine assign_mid (fun b hb => ?_) hafter
      rcases List.mem_append.1 hb with hb | hb
      · exact hbefore b hb
      · rw [List.mem_singleton.1 hb]
        omega
    simpa using this
  simp only [erase, hfind, not_lt.2 hsize, not_lt.2 hfirst, hp2, pieces]
  by_cases hb : start - p.1 ≠ 0 <;> by_cases ha : p.2 - (start - p.1) - len ≠ 0 <;> simp [hb, ha, hassign, hassign']

theorem Rep.erase (h : Rep s S) (hlen : 0 < len) (hsub : span start len ⊆ S) :
    ∃ t, s.erase start len = some t ∧ Rep t (S \ span start len) := by
  obtain ⟨pre, p, rest, hfind, hm, hfirst, hstop⟩ := findInc_of_subset h.canon hlen (by rwa [h.elems])
  have hcard : ((S \ span start len).card : Int) = S.card - len := by
    have := Finset.card_sdiff_add_card_eq_card hsub
    rw [card_between] at this
    omega
  have hwrap : wrap64 (s.size - len) = (S \ span start len).card := by
    have := h.fits
    rw [h.size, ← hcard]
    exact wrap64_of_lt (by omega) (by omega)
  have hcanon := h.canon
  rw [hm] at hcanon
  obtain ⟨hcpre, hcsuf, hsep⟩ := canon_append.1 hcanon
  obtain ⟨-, hprest, hcrest⟩ := canon_cons.1 hcsuf
  refine ⟨⟨pre ++ pieces p start len ++ rest, wrap64 (s.size - len)⟩,
    erase_eq h.canon hm hfind hlen hfirst hstop (by omega), ?_, ?_, hwrap, ?_⟩
  · have hcp := canon_pieces hlen hfirst hstop
    have hin := fun q hq => mem_pieces (q := q) hlen hfirst hstop hq
    refine canon_append.2 ⟨canon_append.2 ⟨hcpre, hcp, fun a ha b hb => ?_⟩, hcrest, fun a ha b hb => ?_⟩
    · have := hsep a ha p (by simp)
      have := hin b hb
      omega
    · rcases List.mem_append.1 ha with ha | ha
      · exact hsep a ha b (by simp [hb])
      · have := hprest b hb
        have := hin a ha
        omega
  · -- the range meets no other interval
    rw [← h.elems, hm, elems_append, elems_append, elems_append, elems_cons, elems_pieces hlen hfirst hstop]
    ext x
    simp only [mem_union, mem_sdiff, mem_between]
    have hx1 : x ∈ Intervals.elems pre → x < p.1 := by
      intro hx
      obtain ⟨b, hb, -, hxb⟩ := mem_elems.1 hx
      have := hsep b hb p (by simp)
      omega
    have hx2 : x ∈ Intervals.elems rest → stop p < x := hcsuf.stop_lt
    constructor
    · rintro ((hx | hx) | hx)
      · have := hx1 hx
        exact ⟨.inl hx, by omega⟩
      · exact ⟨.inr (.inl hx.1), hx.2⟩
      · have := hx2 hx
        exact ⟨.inr (.inr hx), by omega⟩
    · rintro ⟨hx | hx | hx, hout⟩
      · exact .inl (.inl hx)
      · exact .inl (.inr ⟨hx, hout⟩)
      · exact .inr hx
  · have := h.fits
    omega

/-! ### Whole sets -/

private theorem subtract_list (hL : Canon L) (h : Rep s S) (hsub : elems L ⊆ S) :
    ∃ t, L.foldlM (fun (s : IntervalSet) p => s.erase p.1 p.2) s = some t ∧ Rep t (S \ elems L) := by
  induction L generalizing s S with
  | nil => exact ⟨s, rfl, by simpa using h⟩
  | cons p L ih =>
    rw [elems_cons] at hsub
    obtain ⟨t, ht, hrep⟩ := h.erase (hL.pos p (by simp)) (Finset.union_subset_left hsub)
    obtain ⟨u, hu, hrep'⟩ := ih hL.tail hrep
      (Finset.subset_sdiff.2 ⟨Finset.union_subset_right hsub, hL.disjoint.symm⟩)
    refine ⟨u, by rw [List.foldlM_cons, ht]; exact hu, ?_⟩
    rwa [elems_cons, ← Finset.sup_eq_union, ← sdiff_sdiff_left]

theorem Rep.subtract (h : Rep s S) (ha : Rep a A) (hsub : A ⊆ S) : ∃ t, s.subtract a = some t ∧ Rep t (S \ A) := by
  obtain ⟨t, ht, hrep⟩ := subtract_list ha.canon h (by rwa [ha.elems])
  rw [ha.elems] at hrep
  exact ⟨t, ht, hrep⟩

private theorem insert_list (hL : Canon L) (h : Rep s S) (hdisj : Disjoint (elems L) S)
    (hfits : (S ∪ elems L).card < 2 ^ 63) :
    ∃ t, L.foldlM (fun (s : IntervalSet) p => s.insert p.1 p.2) s = some t ∧ Rep t (S ∪ elems L) := by
  induction L generalizing s S with
  | nil => exact ⟨s, rfl, by simpa using h⟩
  | cons p L ih =>
    rw [elems_cons, ← union_assoc] at hfits
    rw [elems_cons] at hdisj
    obtain ⟨hdp, hdL⟩ := Finset.disjoint_union_left.1 hdisj
    have hle : (S ∪ range p).card ≤ (S ∪ range p ∪ elems L).card := Finset.card_le_card Finset.subset_union_left
    obtain ⟨t, ht, hrep⟩ := h.insert (hL.pos p (by simp)) hdp (lt_of_le_of_lt hle hfits)
    obtain ⟨u, hu, hrep'⟩ := ih hL.tail hrep (Finset.disjoint_union_right.2 ⟨hdL, hL.disjoint.symm⟩) hfits
    refine ⟨u, by rw [List.foldlM_cons, ht]; exact hu, ?_⟩
    rwa [elems_cons, ← union_assoc]

theorem Rep.insertSet (h : Rep s S) (ha : Rep a A) (hdisj : Disjoint A S) (hfits : (S ∪ A).card < 2 ^ 63) :
    ∃ t, s.insertSet a = some t ∧ Rep t (S ∪ A) := by
  obtain ⟨t, ht, hrep⟩ := insert_list ha.canon h (by rwa [ha.elems]) (by rwa [ha.elems])
  rw [ha.elems] at hrep
  exact ⟨t, ht, hrep⟩

end IntervalSet
end Lunule
