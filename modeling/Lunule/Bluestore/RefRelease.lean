import Lunule.Bluestore.RefCount

/-!
# Releasing references

`put` walks like `get`, but takes a reference away: the counts that the walk still has to reach are `g`, and on the range that
is still to be walked the map counts one more. Records whose last reference goes are listed in `release`. `unshared` is only
cleared where some byte keeps more than one reference, so that the final look at the whole map decides alone.
-/

namespace Lunule.Bluestore
open RangeMap List
open Exec (exec exec_append_eq_some exec_cons_eq_some)

namespace RefMap
variable {m before rest : List Entry} {p : Entry} {b offset length : ℕ} {g : ℕ → ℕ} {release : List PExtent}
  {unshared : Bool} {rel : List PExtent}

/-- The extents are in order, and cover those bytes of the range from `offset` on that count nothing. -/
structure Freed (rel : List PExtent) (offset length : ℕ) (g : ℕ → ℕ) : Prop where
  sep : Sep Prod.fst (fun e : PExtent => e.1 + e.2) rel
  ge : ∀ e ∈ rel, offset ≤ e.1
  mem : ∀ b, (∃ e ∈ rel, e.1 ≤ b ∧ b < e.1 + e.2) ↔ offset ≤ b ∧ b < offset + length ∧ g b = 0

private theorem freed_nil (h : ∀ b, offset ≤ b → b < offset + length → g b ≠ 0) : Freed [] offset length g := by
  refine ⟨sep_nil, by simp, fun b => ?_⟩
  simp only [not_mem_nil, false_and, exists_false, false_iff, not_and]
  exact h b

private theorem Freed.skip {n : ℕ} (h : Freed rel (offset + n) (length - n) g) (hn : n ≤ length)
    (hkeep : ∀ b, offset ≤ b → b < offset + n → g b ≠ 0) : Freed rel offset length g := by
  refine ⟨h.sep, fun e he => (Nat.le_add_right _ _).trans (h.ge e he), fun b => ?_⟩
  rw [h.mem b]
  constructor
  · rintro ⟨hlo, hhi, hg⟩
    exact ⟨by omega, by omega, hg⟩
  · rintro ⟨hlo, hhi, hg⟩
    by_contra hno
    exact hkeep b hlo (by omega) hg

private theorem Freed.cons {n : ℕ} (h : Freed rel (offset + n) (length - n) g) (hpos : 0 < n)
    (hn : n ≤ length) (hfree : ∀ b, offset ≤ b → b < offset + n → g b = 0) :
    Freed ((offset, n) :: rel) offset length g := by
  refine ⟨sep_cons.2 ⟨by dsimp only; omega, h.ge, h.sep⟩,
    forall_mem_cons.2 ⟨le_refl _, fun e he => (Nat.le_add_right _ _).trans (h.ge e he)⟩, fun b => ?_⟩
  simp only [mem_cons, exists_eq_or_imp, h.mem b]
  constructor
  · rintro (⟨hlo, hhi⟩ | ⟨hlo, hhi, hg⟩)
    · exact ⟨hlo, by omega, hfree b hlo hhi⟩
    · exact ⟨by omega, by omega, hg⟩
  · rintro ⟨hlo, hhi, hg⟩
    by_cases hb : b < offset + n
    · exact .inl ⟨hlo, hb⟩
    · exact .inr ⟨by omega, by omega, hg⟩

private theorem shared_cases {P : Prop} [Decidable P] (h : (unshared && decide P) = false) : unshared = false ∨ ¬P := by
  rwa [Bool.and_eq_false_iff, decide_eq_false_iff_not] at h

private theorem count_at (h : Cursor before (p :: rest) p.offset)
    (hsum : ∀ b, refsAt before b + refsAt (p :: rest) b = g b + within p.offset length b) (hlo : p.offset ≤ b)
    (hhi : b < p.stop) : p.refs = g b + within p.offset length b := by
  obtain ⟨-, -, hfirst, -⟩ := canon_cons.1 h.canon_rest
  have hbefore : refsAt before b = 0 := refsAt_of_le fun q hq => (h.before_le q hq).trans hlo
  have hafter : refsAt rest b = 0 := refsAt_of_lt fun q hq => hhi.trans_le (hfirst q hq)
  have := hsum b
  rw [refsAt_cons, hbefore, hafter, Entry.refsOn, if_pos ⟨hlo, hhi⟩] at this
  omega

private theorem putLoop_short (h : Cursor before (p :: rest) p.offset) (hlen : 0 < length) (hshort : length < p.length)
    (hg : Fits g) (hsum : ∀ b, refsAt before b + refsAt (p :: rest) b = g b + within p.offset length b)
    (hun : unshared = false → ∃ b, 1 < g b) :
    ∃ m rel unshared', putLoop before (p :: rest) p.offset length release unshared = some (m, release ++ rel, unshared') ∧
      Rep m g ∧ Freed rel p.offset length g ∧ (unshared' = false → ∃ b, 1 < g b) := by
  obtain ⟨-, hrefs, hfirst, -⟩ := canon_cons.1 h.canon_rest
  obtain ⟨hright, htail⟩ := h.canon_rest.tail hshort
  have hstop : p.stop = p.offset + p.length := rfl
  have hrlt := p.refs_lt
  -- a byte of the part that stays keeps all references of the record
  have hkeep : g (p.offset + length) = p.refs := by
    have := count_at h hsum (b := p.offset + length) (by omega) (by omega)
    rw [within, if_neg (by omega)] at this
    omega
  have hunr : (unshared && decide (p.refs = 1)) = false → ∃ b, 1 < g b := by
    intro hfalse
    rcases shared_cases hfalse with hfalse | hne
    · exact hun hfalse
    · exact ⟨p.offset + length, by omega⟩
  rw [putLoop, if_neg (by omega), if_neg (by simp), if_pos hshort]
  split
  · rename_i hshared
    have hfirst' : g p.offset = p.refs - 1 := by
      have := count_at h hsum (b := p.offset) (le_refl _) (by omega)
      rw [within, if_pos (by omega)] at this
      omega
    refine ⟨_, [], _, by rw [append_nil], h.cut (by omega) (by omega) hg hlen hshort (by omega) fun b => ?_, ?_,
      fun hfalse => ?_⟩
    · rw [hsum b, within]
      split_ifs <;> omega
    · refine freed_nil fun b hlo hhi => ?_
      have := count_at h hsum hlo (by omega)
      rw [within, if_pos (by omega)] at this
      omega
    · rcases shared_cases hfalse with hfalse | hne
      · exact hunr hfalse
      · exact ⟨p.offset, by omega⟩
  · rename_i hone
    refine ⟨_, _, _, rfl, ⟨canon_append.2 ⟨h.canon_before, htail, ?_, ?_⟩, fun b => ?_⟩, ?_, hunr⟩
    · intro q hq
      have hqp := h.before_le q (mem_reverse.1 hq)
      refine forall_mem_cons.2 ⟨?_, fun r hr => ?_⟩
      · rw [record_offset]
        omega
      · have := hfirst r hr
        omega
    · -- the part that stays does not touch anything on the left
      intro q hq r hr
      have hqp := h.before_le q (mem_reverse.1 (mem_of_getLast? hq))
      simp only [head?_cons, Option.mem_def, Option.some.injEq] at hr
      subst hr
      rw [record_offset]
      omega
    · have := hsum b
      rw [refsAt_append, refsAt_reverse]
      simp only [refsAt_cons, Entry.refsOn, record_refs hrlt, record_offset, within] at this ⊢
      split_ifs at this ⊢ <;> omega
    · refine Freed.cons (freed_nil fun b hlo hhi => by omega) hlen (le_refl _) fun b hlo hhi => ?_
      have := count_at h hsum hlo (by omega)
      rw [within, if_pos (by omega)] at this
      omega

private theorem putLoop_spec (release : List PExtent) (h : Cursor before rest offset) (hg : Fits g)
    (hsum : ∀ b, refsAt before b + refsAt rest b = g b + within offset length b)
    (hcov : ∀ b, offset ≤ b → b < offset + length → 0 < refsAt rest b) (hun : unshared = false → ∃ b, 1 < g b) :
    ∃ m rel unshared', putLoop before rest offset length release unshared = some (m, release ++ rel, unshared') ∧ Rep m g ∧
      Freed rel offset length g ∧ (unshared' = false → ∃ b, 1 < g b) := by
  have hdone : ∀ {before rest offset}, Cursor before rest offset →
      (∀ b, refsAt before b + refsAt rest b = g b + within offset 0 b) → Rep (close before rest) g := by
    intro before rest offset h hsum
    refine h.close hg fun b => ?_
    rw [hsum b, within, if_neg (by omega)]
    rfl
  induction rest generalizing before offset length release unshared with
  | nil =>
    have hzero : length = 0 := by
      by_contra hne
      have := hcov offset (le_refl _) (by omega)
      simp at this
    subst hzero
    rw [putLoop, if_pos rfl]
    exact ⟨_, [], unshared, by rw [append_nil], hdone h hsum, freed_nil (by omega), hun⟩
  | cons p rest ih =>
    rcases eq_zero_or_pos length with rfl | hlen
    · rw [putLoop, if_pos rfl]
      exact ⟨_, [], unshared, by rw [append_nil], hdone h hsum, freed_nil (by omega), hun⟩
    obtain ⟨hplen, hrefs, hfirst, -, hrest⟩ := canon_cons.1 h.canon_rest
    have hstop : p.stop = p.offset + p.length := rfl
    -- the byte at the position is covered, so the record starts there
    have hoff : p.offset = offset := by
      obtain ⟨q, hq, hqb⟩ := exists_of_refsAt_pos (hcov offset (le_refl _) (by omega))
      have hge := h.rest_ge p (by simp)
      rcases mem_cons.1 hq with rfl | hq
      · omega
      · have := hfirst q hq
        omega
    subst hoff
    by_cases hshort : length < p.length
    · exact putLoop_short h hlen hshort hg hsum hun
    have hcount : ∀ b, p.offset ≤ b → b < p.stop → p.refs = g b + 1 := by
      intro b hlo hhi
      have := count_at h hsum hlo hhi
      rwa [within, if_pos (by omega)] at this
    have hcov' : ∀ b, p.stop ≤ b → b < p.stop + (length - p.length) → 0 < refsAt rest b := by
      intro b hlo hhi
      have := hcov b (by omega) (by omega)
      rwa [refsAt_cons, Entry.refsOn, if_neg (by omega), zero_add] at this
    rw [putLoop, if_neg (by omega), if_neg (by simp), if_neg hshort]
    split
    · rename_i hshared
      have hplt := p.refs_lt
      obtain ⟨hcur, hpush⟩ := h.pass (r := p.refs - 1) (by omega) (by omega) hg fun b hb => by
        have hafter : refsAt rest b = 0 := refsAt_of_lt fun q hq => hb.trans_le (hfirst q hq)
        have hsum' := hsum b
        rw [refsAt_cons, hafter, Entry.refsOn, within] at hsum'
        rw [within]
        split_ifs at hsum' ⊢ <;> omega
      have hsum' : ∀ b, refsAt (push before (record p.offset p.length (p.refs - 1))) b + refsAt rest b =
          g b + within p.stop (length - p.length) b := by
        intro b
        have hsum' := hsum b
        rw [refsAt_cons, Entry.refsOn, within] at hsum'
        rw [hpush, within, within]
        split_ifs at hsum' ⊢ <;> omega
      have hun' : (unshared && decide (p.refs - 1 = 1)) = false → ∃ b, 1 < g b := by
        intro hfalse
        rcases shared_cases hfalse with hfalse | hne
        · exact hun hfalse
        · have := hcount p.offset (le_refl _) (by omega)
          exact ⟨p.offset, by omega⟩
      obtain ⟨m, rel, unshared', hrun, hrep, hfreed, hflag⟩ := ih release hcur hsum' hcov' hun'
      refine ⟨m, rel, unshared', hrun, hrep, hfreed.skip (by omega) fun b hlo hhi => ?_, hflag⟩
      have := hcount b hlo hhi
      omega
    · rename_i hone
      have hcur : Cursor before rest p.stop :=
        ⟨h.canon_before, hrest, fun q hq => (h.before_le q hq).trans (by omega), hfirst⟩
      have hsum' : ∀ b, refsAt before b + refsAt rest b = g b + within p.stop (length - p.length) b := by
        intro b
        have hsum' := hsum b
        rw [refsAt_cons, Entry.refsOn, within] at hsum'
        rw [within]
        split_ifs at hsum' ⊢ <;> omega
      obtain ⟨m, rel, unshared', hrun, hrep, hfreed, hflag⟩ := ih (release ++ [(p.offset, p.length)]) hcur hsum' hcov' hun
      rw [append_assoc] at hrun
      refine ⟨m, (p.offset, p.length) :: rel, unshared', hrun, hrep, hfreed.cons hplen (by omega) fun b hlo hhi => ?_, hflag⟩
      have := hcount b hlo hhi
      omega

private theorem put_spec (release : List PExtent) (h : Canon m) (hlen : 0 < length)
    (hcov : ∀ b, offset ≤ b → b < offset + length → 0 < refsAt m b)
    (hg : Fits fun b => refsAt m b - within offset length b) :
    ∃ m' rel, put m offset length release = some (m', release ++ rel, m'.all (·.refs = 1)) ∧
      (Rep m' fun b => refsAt m b - within offset length b) ∧
      Freed rel offset length fun b => refsAt m b - within offset length b := by
  obtain ⟨p, hp, hlo, hhi⟩ := exists_of_refsAt_pos (hcov offset (le_refl _) (by omega))
  obtain ⟨before, rest, hc, rfl⟩ := covering_of_mem h.sep hp hlo hhi
  obtain ⟨before', p', hsplit, -, -, -, hcur, hsum⟩ := splitBefore_spec h hlo hhi
  have hsum' : ∀ b, refsAt before' b + refsAt (p' :: rest) b =
      refsAt (before.reverse ++ p :: rest) b - within offset length b + within offset length b := by
    intro b
    rw [hsum b, refsAt_append, refsAt_reverse]
    have := hcov b
    rw [refsAt_append, refsAt_reverse] at this
    rw [within]
    split_ifs with hb
    · have := this hb.1 hb.2
      omega
    · omega
  have hcov' : ∀ b, offset ≤ b → b < offset + length → 0 < refsAt (p' :: rest) b := by
    intro b hb hb'
    have hzero : refsAt before' b = 0 := refsAt_of_le fun q hq => (hcur.before_le q hq).trans hb
    have hpos := hcov b hb hb'
    have := hsum b
    rw [refsAt_append, refsAt_reverse] at hpos
    omega
  have hun : (decide (¬(p.offset < offset ∧ p.refs ≠ 1))) = false →
      ∃ b, 1 < refsAt (before.reverse ++ p :: rest) b - within offset length b := by
    intro hfalse
    rw [decide_eq_false_iff_not, not_not] at hfalse
    have hpos := h.refs_pos p (by simp)
    refine ⟨p.offset, ?_⟩
    rw [refsAt_of_mem h.sep hp ⟨le_refl _, by omega⟩, within, if_neg (by omega)]
    omega
  obtain ⟨m', rel, unshared', hrun, hrep, hfreed, hflag⟩ := putLoop_spec release hcur hg hsum' hcov' hun
  refine ⟨m', rel, ?_, hrep, hfreed⟩
  unfold put
  rw [hc]
  dsimp only
  rw [hsplit]
  rw [hrun]
  -- a byte that keeps more than one reference has a record that says so
  cases unshared' with
  | true => rfl
  | false =>
    obtain ⟨b, hb⟩ := hflag rfl
    have hb' := hrep.refsAt b
    obtain ⟨q, hq, hqb⟩ := exists_of_refsAt_pos (m := m') (b := b) (by omega)
    have hqrefs := refsAt_of_mem hrep.canon.sep hq hqb
    have hall : m'.all (·.refs = 1) = false := by
      rw [all_eq_false]
      exact ⟨q, hq, by simp only [decide_eq_true_eq]; omega⟩
    rw [hall]
    rfl

/-! ### Questions -/

private theorem containsLoop_spec (h : Canon rest) (hgt : ∀ p ∈ rest, offset < p.stop) :
    containsLoop rest offset length ↔ ∀ b, offset ≤ b → b < offset + length → 0 < refsAt rest b := by
  induction rest generalizing offset length with
  | nil =>
    rw [containsLoop, decide_eq_true_iff]
    constructor
    · omega
    · intro hall
      by_contra hne
      have := hall offset (le_refl _) (by omega)
      simp at this
  | cons p rest ih =>
    obtain ⟨-, -, hfirst, -, hrest⟩ := canon_cons.1 h
    have hp := hgt p (by simp)
    have hon : ∀ b, p.offset ≤ b → b < p.stop → 0 < refsAt (p :: rest) b := by
      intro b hlo hhi
      rw [h.refsAt_pos]
      exact ⟨p, by simp, hlo, hhi⟩
    rw [containsLoop]
    rcases eq_zero_or_pos length with rfl | hlen
    · rw [if_pos rfl]
      exact ⟨fun _ b hlo hhi => by omega, fun _ => rfl⟩
    rw [if_neg (by omega)]
    split
    · -- nothing covers the first byte
      rename_i hlt
      have hzero : refsAt (p :: rest) offset = 0 := by
        refine refsAt_of_lt fun q hq => ?_
        rcases mem_cons.1 hq with rfl | hq
        · exact hlt
        · have := hfirst q hq
          omega
      simp only [Bool.false_eq_true, false_iff]
      intro hall
      have := hall offset (le_refl _) (by omega)
      omega
    · rename_i hle
      split
      · rename_i hlong
        exact ⟨fun _ b hlo hhi => hon b (by omega) (by omega), fun _ => rfl⟩
      have heq : offset + (p.stop - offset) = p.stop := by omega
      rw [heq, ih hrest fun q hq => ?_]
      · constructor
        · intro hall b hlo hhi
          by_cases hb : b < p.stop
          · exact hon b (by omega) hb
          · have := hall b (by omega) (by omega)
            rw [refsAt_cons]
            omega
        · intro hall b hlo hhi
          have := hall b (by omega) (by omega)
          rwa [refsAt_cons, Entry.refsOn, if_neg (by omega), zero_add] at this
      · have hq' := hfirst q hq
        have hqpos := hrest.sep.pos q hq
        omega

private theorem contains_spec (h : Canon m) (hlen : 0 < length) :
    contains m offset length ↔ ∀ b, offset ≤ b → b < offset + length → 0 < refsAt m b := by
  unfold contains
  cases hc : covering Entry.offset Entry.stop m offset with
  | none =>
    simp only [Bool.false_eq_true, false_iff]
    intro hall
    obtain ⟨p, hp, hlo, hhi⟩ := exists_of_refsAt_pos (hall offset (le_refl _) (by omega))
    obtain ⟨before, rest, hfound, -⟩ := covering_of_mem h.sep hp hlo hhi
    rw [hc] at hfound
    cases hfound
  | some r =>
    obtain ⟨before, p, rest⟩ := r
    obtain ⟨rfl, hlo, hhi⟩ := covering_spec h.sep hc
    obtain ⟨-, hrest, hcross, -⟩ := canon_append.1 h
    have hzero : ∀ b, offset ≤ b → refsAt before.reverse b = 0 := fun b hb =>
      refsAt_of_le fun q hq => (hcross q hq p (by simp)).trans (hlo.trans hb)
    rw [containsLoop_spec hrest]
    · refine forall_congr' fun b => forall_congr' fun hb => ?_
      rw [refsAt_append, hzero b hb, zero_add]
    · obtain ⟨-, -, hfirst, -, hrest'⟩ := canon_cons.1 hrest
      refine forall_mem_cons.2 ⟨hhi, fun q hq => ?_⟩
      have hq' := hfirst q hq
      have hqpos := hrest'.sep.pos q hq
      omega

private theorem intersects_spec (h : Canon m) (hlen : 0 < length) :
    intersects m offset length ↔ ∃ b, offset ≤ b ∧ b < offset + length ∧ 0 < refsAt m b := by
  unfold intersects
  rcases hs : seek Entry.offset Entry.stop m offset with ⟨before, rest⟩
  obtain ⟨rfl, hle, hgt⟩ := seek_spec h.sep hs
  obtain ⟨-, hrest, -⟩ := sep_append.1 h.sep
  cases rest with
  | nil =>
    simp only [Bool.false_eq_true, false_iff, not_exists, not_and]
    intro b hlo hhi
    rw [refsAt_append, refsAt_nil, refsAt_of_le fun q hq => (hle q (mem_reverse.1 hq)).trans hlo]
    omega
  | cons p rest =>
    obtain ⟨hpos, hfirst, -⟩ := sep_cons.1 hrest
    have hp := hgt p (by simp)
    simp only [Bool.not_eq_true', decide_eq_false_iff_not]
    constructor
    · intro _
      refine ⟨max p.offset offset, by omega, by omega, h.refsAt_pos.2 ⟨p, by simp, by omega, by omega⟩⟩
    rintro ⟨b, hlo, hhi, hb⟩
    obtain ⟨q, hq, hqb⟩ := exists_of_refsAt_pos hb
    rcases mem_append.1 hq with hq | hq
    · have := hle q (mem_reverse.1 hq)
      omega
    · rcases mem_cons.1 hq with rfl | hq
      · omega
      · have := hfirst q hq
        omega

private theorem checkFrom_of_canon {pos refs : ℕ} (h : Canon m) (hpos : ∀ p ∈ m, pos ≤ p.offset)
    (hne : ∀ p ∈ m.head?, p.offset = pos → p.refs ≠ refs) : checkFrom pos refs m := by
  induction m generalizing pos refs with
  | nil => rfl
  | cons p m ih =>
    obtain ⟨-, -, hfirst, hnext, hm⟩ := canon_cons.1 h
    have hp := hpos p (by simp)
    rw [checkFrom, if_neg (by omega), if_neg fun hno => hne p rfl hno.1 hno.2]
    exact ih hm hfirst fun q hq heq hsame => hnext q hq heq.symm hsame.symm

private theorem check_of_canon (h : Canon m) : check m :=
  checkFrom_of_canon h (by simp) fun p hp _ hzero => by
    have := h.refs_pos p (List.mem_of_mem_head? hp)
    omega

/-! ### Runs -/

def Call.getsOn (b : ℕ) : Call → ℕ
  | .get offset length => within offset length b
  | .put _ _ => 0

def Call.putsOn (b : ℕ) : Call → ℕ
  | .get _ _ => 0
  | .put offset length => within offset length b

def gets (calls : List Call) (b : ℕ) : ℕ := (calls.map (Call.getsOn b)).sum

def puts (calls : List Call) (b : ℕ) : ℕ := (calls.map (Call.putsOn b)).sum

/-- Lengths are 32-bit values, ranges end below `2 ^ 64`, and a `put` is made on bytes that have references. -/
def Call.Allowed (f : ℕ → ℕ) : Call → Prop
  | .get offset length => length < 2 ^ 32 ∧ offset + length < 2 ^ 64
  | .put offset length => 0 < length ∧ length < 2 ^ 32 ∧ ∀ b, offset ≤ b → b < offset + length → 1 ≤ f b

/-- Every call is allowed after the calls before it, and what it leads to fits 32 bits. -/
def Valid (calls : List Call) : Prop :=
  ∀ pre c post, calls = pre ++ c :: post → c.Allowed (fun b => gets pre b - puts pre b) ∧
    Fits fun b => gets (pre ++ [c]) b - puts (pre ++ [c]) b

variable {calls : List Call} {c : Call}

private theorem gets_concat : gets (calls ++ [c]) b = gets calls b + c.getsOn b := by simp [gets]

private theorem puts_concat : puts (calls ++ [c]) b = puts calls b + c.putsOn b := by simp [puts]

private theorem Valid.of_concat (h : Valid (calls ++ [c])) : Valid calls := by
  intro pre c' post heq
  exact h pre c' (post ++ [c]) (by rw [heq]; simp)

private theorem Valid.last (h : Valid (calls ++ [c])) : c.Allowed (fun b => gets calls b - puts calls b) ∧
    Fits fun b => gets (calls ++ [c]) b - puts (calls ++ [c]) b := h calls c [] rfl

/-- What holds of the map after some calls. -/
structure Counted (m : List Entry) (calls : List Call) : Prop where
  le : ∀ b, puts calls b ≤ gets calls b
  rep : Rep m fun b => gets calls b - puts calls b

private theorem Counted.get (h : Counted m calls) (hv : Valid (calls ++ [.get offset length])) :
    ∃ m', RefMap.get m offset length = some m' ∧ Counted m' (calls ++ [.get offset length]) := by
  obtain ⟨⟨hlt, -⟩, hfits⟩ := hv.last
  have hsame : (fun b => gets (calls ++ [.get offset length]) b - puts (calls ++ [.get offset length]) b) =
      fun b => refsAt m b + within offset length b := by
    funext b
    have := h.le b
    rw [gets_concat, puts_concat, Call.getsOn, Call.putsOn, h.rep.refsAt b]
    omega
  rw [hsame] at hfits
  obtain ⟨m', hget, hrep⟩ := get_spec h.rep.canon hlt hfits
  refine ⟨m', hget, fun b => ?_, hsame ▸ hrep⟩
  have := h.le b
  rw [gets_concat, puts_concat, Call.putsOn]
  omega

private theorem Counted.put (release : List PExtent) (h : Counted m calls)
    (hv : Valid (calls ++ [.put offset length])) :
    ∃ m' rel, RefMap.put m offset length release = some (m', release ++ rel, m'.all (·.refs = 1)) ∧
      Counted m' (calls ++ [.put offset length]) ∧
      Freed rel offset length fun b => gets (calls ++ [.put offset length]) b - puts (calls ++ [.put offset length]) b := by
  obtain ⟨⟨hlen, -, hcov⟩, hfits⟩ := hv.last
  have hsame : (fun b => gets (calls ++ [.put offset length]) b - puts (calls ++ [.put offset length]) b) =
      fun b => refsAt m b - within offset length b := by
    funext b
    rw [gets_concat, puts_concat, Call.getsOn, Call.putsOn, h.rep.refsAt b]
    omega
  rw [hsame] at hfits ⊢
  obtain ⟨m', rel, hput, hrep, hfreed⟩ := put_spec release h.rep.canon hlen
    (fun b hlo hhi => by rw [h.rep.refsAt b]; exact hcov b hlo hhi) hfits
  refine ⟨m', rel, hput, ⟨fun b => ?_, hsame ▸ hrep⟩, hfreed⟩
  have hle := h.le b
  rw [gets_concat, puts_concat, Call.getsOn, Call.putsOn, within]
  split_ifs with hb
  · have hone : 1 ≤ gets calls b - puts calls b := hcov b hb.1 hb.2
    omega
  · omega

private theorem counted_of_valid (h : Valid calls) : ∃ m, exec step [] calls = some m ∧ Counted m calls := by
  induction calls using List.reverseRecOn with
  | nil => exact ⟨[], rfl, fun b => le_refl _, canon_nil, fun b => rfl⟩
  | append_singleton calls c ih =>
    obtain ⟨m, hrun, hm⟩ := ih h.of_concat
    have hlast : ∃ m', step m c = some m' ∧ Counted m' (calls ++ [c]) := by
      cases c with
      | get offset length => exact hm.get h
      | put offset length =>
        obtain ⟨m', rel, hput, hm', -⟩ := hm.put [] h
        exact ⟨m', by rw [step, hput]; rfl, hm'⟩
    obtain ⟨m', hstep, hm'⟩ := hlast
    exact ⟨m', exec_append_eq_some.2 ⟨m, hrun, exec_cons_eq_some.2 ⟨m', hstep, rfl⟩⟩, hm'⟩

/-- The map counts references, byte by byte. -/
theorem refMap_counts (calls : List Call) (h : Valid calls) : ∃ m, exec step [] calls = some m ∧ check m ∧
      (∀ b, puts calls b ≤ gets calls b ∧ refsAt m b = gets calls b - puts calls b) ∧
      (∀ offset length release, Valid (calls ++ [.put offset length]) →
        ∃ m' rel, put m offset length release = some (m', release ++ rel, m'.all (·.refs = 1)) ∧
          Freed rel offset length fun b =>
            gets (calls ++ [.put offset length]) b - puts (calls ++ [.put offset length]) b) ∧
      ∀ offset length, 0 < length →
        (contains m offset length ↔ ∀ b, offset ≤ b → b < offset + length → 1 ≤ gets calls b - puts calls b) ∧
        (intersects m offset length ↔ ∃ b, offset ≤ b ∧ b < offset + length ∧ 1 ≤ gets calls b - puts calls b) := by
  obtain ⟨m, hrun, hm⟩ := counted_of_valid h
  refine ⟨m, hrun, check_of_canon hm.rep.canon, fun b => ⟨hm.le b, hm.rep.refsAt b⟩, ?_, ?_⟩
  · intro offset length release hv
    obtain ⟨m', rel, hput, -, hfreed⟩ := hm.put release hv
    exact ⟨m', rel, hput, hfreed⟩
  · intro offset length hlen
    rw [contains_spec hm.rep.canon hlen, intersects_spec hm.rep.canon hlen]
    simp only [hm.rep.refsAt]
    exact ⟨Iff.rfl, Iff.rfl⟩

private theorem fits_of_few {n : ℕ} (hlen : calls.length < 2 ^ 32) (hn : n < 2 ^ 32)
    (hend : ∀ c ∈ calls, ∀ b, n ≤ b → c.getsOn b = 0) : Fits fun b => gets calls b - puts calls b := by
  have hle : ∀ b, gets calls b ≤ calls.length := by
    intro b
    refine (sum_le_card_nsmul _ 1 fun x hx => ?_).trans (by simp)
    obtain ⟨c, -, rfl⟩ := mem_map.1 hx
    cases c with
    | get offset length =>
      rw [Call.getsOn, within]
      split_ifs <;> omega
    | put offset length => exact Nat.zero_le 1
  have hzero : ∀ b, n ≤ b → gets calls b = 0 := by
    intro b hb
    refine sum_eq_zero fun x hx => ?_
    obtain ⟨c, hc, rfl⟩ := mem_map.1 hx
    exact hend c hc b hb
  refine ⟨fun b => ?_, fun b k hne hrun => ?_⟩
  · have := hle b
    omega
  · by_contra hk
    have hlast := hrun n (by omega)
    rw [hzero (b + n) (by omega)] at hlast
    omega

/-- Ten bytes of a blob are referenced and two of them a second time; then four of them are put. -/
private def sharedCalls : List Call := [.get 0 10, .get 4 2, .put 2 4]

private theorem valid_sharedCalls : Valid sharedCalls := by
  intro pre c post heq
  have hsub : ∀ c' ∈ pre ++ [c], c' ∈ sharedCalls := by
    intro c' hc'
    rw [heq]
    simp only [mem_append, mem_cons] at hc' ⊢
    tauto
  have hlen : (pre ++ [c]).length < 2 ^ 32 := by
    have := congrArg List.length heq
    simp only [sharedCalls, length_cons, length_nil, length_append] at this ⊢
    omega
  refine ⟨?_, fits_of_few (n := 10) hlen (by decide) fun c' hc' b hb => ?_⟩
  · unfold sharedCalls at heq
    rcases pre with _ | ⟨c1, _ | ⟨c2, _ | ⟨c3, pre⟩⟩⟩ <;> simp only [nil_append, cons_append] at heq
    · obtain ⟨rfl, -⟩ := heq
      exact ⟨by decide, by decide⟩
    · obtain ⟨rfl, rfl, -⟩ := heq
      exact ⟨by decide, by decide⟩
    · obtain ⟨rfl, rfl, rfl, -⟩ := heq
      refine ⟨by decide, by decide, fun b hlo hhi => ?_⟩
      simp only [gets, puts, map_cons, map_nil, sum_cons, Call.getsOn, Call.putsOn, within]
      split_ifs <;> omega
    · simp at heq
  · have hmem := hsub c' hc'
    simp only [sharedCalls, mem_cons, not_mem_nil, or_false] at hmem
    rcases hmem with rfl | rfl | rfl
    · rw [Call.getsOn, within, if_neg (by omega)]
    · rw [Call.getsOn, within, if_neg (by omega)]
    · rfl

theorem refMap_counts_shared : ∃ m, exec step [] sharedCalls = some m ∧ check m ∧
      (∀ b, puts sharedCalls b ≤ gets sharedCalls b ∧ refsAt m b = gets sharedCalls b - puts sharedCalls b) ∧
      contains m 4 6 ∧ ¬intersects m 2 2 := by
  obtain ⟨m, hrun, hcheck, hcount, -, hask⟩ := refMap_counts sharedCalls valid_sharedCalls
  refine ⟨m, hrun, hcheck, hcount, (hask 4 6 (by decide)).1.2 fun b hlo hhi => ?_, fun hno => ?_⟩
  · simp only [sharedCalls, gets, puts, map_cons, map_nil, sum_cons, Call.getsOn, Call.putsOn, within]
    split_ifs <;> omega
  · obtain ⟨b, hlo, hhi, hb⟩ := (hask 2 2 (by decide)).2.1 hno
    simp only [sharedCalls, gets, puts, map_cons, map_nil, sum_cons, Call.getsOn, Call.putsOn, within] at hb
    split_ifs at hb <;> omega

private theorem get_one (k : ℕ) : get [record 0 1 k] 0 1 = some [record 0 1 (k + 1)] := by
  have hsum : wrap32 (wrap32 k + 1) = wrap32 (k + 1) := Nat.mod_add_mod _ _ _
  show some [record 0 1 (wrap32 k + 1)] = _
  simp only [record, hsum]

private theorem exec_replicate_get (n k : ℕ) :
    exec step [record 0 1 k] (List.replicate n (.get 0 1)) = some [record 0 1 (k + n)] := by
  induction n generalizing k with
  | zero => rfl
  | succ n ih =>
    rw [replicate_succ, exec_cons_eq_some]
    exact ⟨_, get_one k, by rw [ih]; congr 3; omega⟩

private theorem exists_gets_one (n : ℕ) : ∃ calls m, (∀ c ∈ calls, c = Call.get 0 1) ∧ exec step [] calls = some m ∧
    gets calls 0 = n + 1 ∧ puts calls 0 = 0 ∧ refsAt m 0 = wrap32 (n + 1) := by
  refine ⟨.get 0 1 :: List.replicate n (.get 0 1), [record 0 1 (1 + n)], ?_, ?_, ?_, ?_, ?_⟩
  · exact forall_mem_cons.2 ⟨rfl, fun c hc => eq_of_mem_replicate hc⟩
  · exact exec_cons_eq_some.2 ⟨[record 0 1 1], rfl, exec_replicate_get _ _⟩
  · simp [gets, Call.getsOn, within, Nat.add_comm]
  · simp [puts, Call.putsOn]
  · show wrap32 (1 + n) + 0 = wrap32 (n + 1)
    rw [Nat.add_comm 1 n, Nat.add_zero]

/-- The 32-bit count wraps: after 2^32 references to a byte the map has none. -/
theorem refs_wrap : ∃ calls m, (∀ c ∈ calls, c = Call.get 0 1) ∧ exec step [] calls = some m ∧ gets calls 0 = 2 ^ 32 ∧
    puts calls 0 = 0 ∧ refsAt m 0 = 0 := by
  obtain ⟨calls, m, hcalls, hrun, hgets, hputs, hrefs⟩ := exists_gets_one (2 ^ 32 - 1)
  exact ⟨calls, m, hcalls, hrun, hgets, hputs, hrefs⟩

end RefMap
end Lunule.Bluestore
