import Lunule.Bluestore.RefMap

/-!
# The reference map counts references

`refsAt m b` sums the references of the records that cover the byte `b`, so it is additive in the map. The loops of `get` and
`put` walk along the map: what lies before the position is canonical and already has the new counts, what lies from it on has
the old ones, and the range still to be walked makes up the difference. Each turn moves a record across the position, merging
it with its left neighbour, and keeps that sum.

The fields are 32 bits wide. A merged record is a run of bytes with one count, so a length can only wrap if the count is the
same on 2^32 bytes in a row (`Fits`).
-/

namespace Lunule.Bluestore
open RangeMap List Option
open Entry (stop)

/-- The references that an entry has on a byte. -/
def Entry.refsOn (p : Entry) (b : ℕ) : ℕ := if p.offset ≤ b ∧ b < p.stop then p.refs else 0

namespace RefMap

def refsAt (m : List Entry) (b : ℕ) : ℕ := (m.map (Entry.refsOn · b)).sum

def within (offset length b : ℕ) : ℕ := if offset ≤ b ∧ b < offset + length then 1 else 0

structure Canon (m : List Entry) : Prop where
  sep : Sep Entry.offset stop m
  merged : Merged Entry.offset stop Entry.refs m
  refs_pos : ∀ p ∈ m, 0 < p.refs

/-- The map is canonical and counts `g`. -/
structure Rep (m : List Entry) (g : ℕ → ℕ) : Prop where
  canon : Canon m
  refsAt : ∀ b, refsAt m b = g b

structure Fits (g : ℕ → ℕ) : Prop where
  refs : ∀ b, g b < 2 ^ 32
  run : ∀ b n, g b ≠ 0 → (∀ i < n, g (b + i) = g b) → n < 2 ^ 32

variable {m before rest : List Entry} {p : Entry} {b offset length : ℕ} {g : ℕ → ℕ}

@[simp] theorem refsAt_nil : refsAt [] b = 0 := rfl
@[simp] theorem refsAt_cons : refsAt (p :: m) b = p.refsOn b + refsAt m b := by simp [refsAt]
@[simp] theorem refsAt_append : refsAt (m ++ rest) b = refsAt m b + refsAt rest b := by simp [refsAt]

@[simp] theorem refsAt_reverse : refsAt m.reverse b = refsAt m b := by
  induction m with
  | nil => rfl
  | cons p m ih =>
    simp only [reverse_cons, refsAt_append, refsAt_cons, refsAt_nil]
    omega

private theorem refsAt_eq_zero (h : ∀ p ∈ m, ¬(p.offset ≤ b ∧ b < p.stop)) : refsAt m b = 0 := by
  induction m with
  | nil => rfl
  | cons p m ih =>
    rw [forall_mem_cons] at h
    rw [refsAt_cons, ih h.2, Entry.refsOn, if_neg h.1]

theorem refsAt_of_lt (h : ∀ p ∈ m, b < p.offset) : refsAt m b = 0 :=
  refsAt_eq_zero fun p hp hb => absurd hb.1 (h p hp).not_ge

theorem refsAt_of_le (h : ∀ p ∈ m, p.stop ≤ b) : refsAt m b = 0 :=
  refsAt_eq_zero fun p hp hb => absurd hb.2 (h p hp).not_gt

theorem refsAt_of_mem (h : Sep Entry.offset stop m) (hp : p ∈ m) (hb : p.offset ≤ b ∧ b < p.stop) :
    refsAt m b = p.refs := by
  induction m with
  | nil => cases hp
  | cons q m ih =>
    obtain ⟨-, hfirst, hm⟩ := sep_cons.1 h
    rw [refsAt_cons]
    rcases mem_cons.1 hp with rfl | hp
    · have hrest : refsAt m b = 0 := refsAt_of_lt fun r hr => hb.2.trans_le (hfirst r hr)
      rw [hrest, Entry.refsOn, if_pos hb]
      rfl
    · have := hfirst p hp
      rw [ih hm hp, Entry.refsOn, if_neg (by omega), zero_add]

theorem exists_of_refsAt_pos (h : 0 < refsAt m b) : ∃ p ∈ m, p.offset ≤ b ∧ b < p.stop := by
  by_contra hno
  exact h.ne' (refsAt_eq_zero fun p hp hb => hno ⟨p, hp, hb⟩)

theorem Canon.refsAt_pos (h : Canon m) : 0 < refsAt m b ↔ ∃ p ∈ m, p.offset ≤ b ∧ b < p.stop := by
  refine ⟨exists_of_refsAt_pos, ?_⟩
  rintro ⟨p, hp, hb⟩
  rw [refsAt_of_mem h.sep hp hb]
  exact h.refs_pos p hp

theorem canon_nil : Canon [] := ⟨sep_nil, .nil, by simp⟩

theorem canon_append : Canon (m ++ rest) ↔ Canon m ∧ Canon rest ∧ (∀ p ∈ m, ∀ q ∈ rest, p.stop ≤ q.offset) ∧
    ∀ p ∈ m.getLast?, ∀ q ∈ rest.head?, p.stop = q.offset → p.refs ≠ q.refs := by
  constructor
  · rintro ⟨hsep, hmerged, hpos⟩
    obtain ⟨hs, hs', hcross⟩ := sep_append.1 hsep
    obtain ⟨hm, hm', hbound⟩ := merged_append.1 hmerged
    exact ⟨⟨hs, hm, fun p hp => hpos p (mem_append_left _ hp)⟩,
      ⟨hs', hm', fun p hp => hpos p (mem_append_right _ hp)⟩, hcross, hbound⟩
  · rintro ⟨h, h', hcross, hbound⟩
    refine ⟨sep_append.2 ⟨h.sep, h'.sep, hcross⟩, merged_append.2 ⟨h.merged, h'.merged, hbound⟩, fun p hp => ?_⟩
    rcases mem_append.1 hp with hp | hp
    · exact h.refs_pos p hp
    · exact h'.refs_pos p hp

theorem canon_cons : Canon (p :: m) ↔ 0 < p.length ∧ 0 < p.refs ∧ (∀ q ∈ m, p.stop ≤ q.offset) ∧
    (∀ q ∈ m.head?, p.stop = q.offset → p.refs ≠ q.refs) ∧ Canon m := by
  constructor
  · rintro ⟨hsep, hmerged, hpos⟩
    obtain ⟨hlen, hfirst, hm⟩ := sep_cons.1 hsep
    obtain ⟨hbound, hm'⟩ := isChain_cons.1 hmerged
    refine ⟨?_, hpos p (by simp), hfirst, hbound, hm, hm', (forall_mem_cons.1 hpos).2⟩
    unfold stop at hlen
    omega
  · rintro ⟨hlen, hrefs, hfirst, hbound, hm⟩
    refine ⟨sep_cons.2 ⟨?_, hfirst, hm.sep⟩, isChain_cons.2 ⟨hbound, hm.merged⟩, forall_mem_cons.2 ⟨hrefs, hm.refs_pos⟩⟩
    unfold stop
    omega

private theorem canon_concat : Canon (m ++ [p]) ↔ Canon m ∧ 0 < p.length ∧ 0 < p.refs ∧ (∀ q ∈ m, q.stop ≤ p.offset) ∧
    ∀ q ∈ m.getLast?, q.stop = p.offset → q.refs ≠ p.refs := by
  rw [canon_append, canon_cons]
  simp only [not_mem_nil, false_imp_iff, implies_true, head?_nil, mem_def, reduceCtorEq, canon_nil,
    and_true, mem_singleton, forall_eq, head?_cons, some.injEq, forall_eq', and_assoc]

@[simp] theorem record_offset : (record offset length b).offset = offset := rfl

private theorem record_length (h : length < 2 ^ 32) : (record offset length b).length = length := Nat.mod_eq_of_lt h

theorem record_refs (h : b < 2 ^ 32) : (record offset length b).refs = b := Nat.mod_eq_of_lt h

private theorem record_stop (offset refs : ℕ) (h : length < 2 ^ 32) :
    (record offset length refs).stop = offset + length := by
  rw [stop, record_offset, record_length h]

private theorem Fits.length_lt (hg : Fits g) {r : ℕ} (hr : 0 < r)
    (h : ∀ b, offset ≤ b → b < offset + length → g b = r) : length < 2 ^ 32 := by
  rcases eq_zero_or_pos length with rfl | hlen
  · decide
  · have h0 : g offset = r := h offset (le_refl _) (by omega)
    refine hg.run offset length (by omega) fun i _ => ?_
    rw [h (offset + i) (by omega) (by omega), h0]

private theorem push_spec (hb : Canon before.reverse) (hle : ∀ q ∈ before, q.stop ≤ p.offset) (hlen : 0 < p.length)
    (hrefs : 0 < p.refs) (hg : Fits g) (hsum : ∀ b < p.stop, refsAt before b + p.refsOn b = g b) :
    ∃ r before', push before p = r :: before' ∧ r.stop = p.stop ∧ r.refs = p.refs ∧ Canon (r :: before').reverse ∧
      (∀ q ∈ r :: before', q.stop ≤ p.stop) ∧ ∀ b, refsAt (r :: before') b = refsAt before b + p.refsOn b := by
  have hstop : p.offset ≤ p.stop := Nat.le_add_right _ _
  unfold push
  cases before with
  | nil =>
    refine ⟨p, [], rfl, rfl, rfl, canon_cons.2 ⟨hlen, hrefs, by simp, by simp, canon_nil⟩, by simp, fun b => ?_⟩
    simp
  | cons q before =>
    rw [reverse_cons, canon_concat] at hb
    obtain ⟨hb', hqlen, hqrefs, hqle, hqbound⟩ := hb
    have hqp := hle q (by simp)
    have hold : ∀ r ∈ before, r.stop ≤ p.stop := fun r hr => (hle r (mem_cons_of_mem _ hr)).trans hstop
    rw [maybeMergeLeft]
    split
    · rename_i hm
      obtain ⟨hsame, htouch⟩ := hm
      -- the merged record covers a run of bytes with one count
      have hrun : ∀ b, q.offset ≤ b → b < q.offset + (q.length + p.length) → g b = q.refs := by
        intro b hlo _
        have hbefore : refsAt before b = 0 := refsAt_of_le fun r hr => (hqle r (mem_reverse.2 hr)).trans hlo
        unfold stop at htouch hsum
        have := hsum b (by omega)
        rw [refsAt_cons, hbefore, Entry.refsOn, Entry.refsOn, stop, stop] at this
        split_ifs at this <;> omega
      have hfit := hg.length_lt hqrefs hrun
      have hstop' : (record q.offset (q.length + p.length) q.refs).stop = p.stop := by
        rw [record_stop _ _ hfit]
        unfold stop at htouch ⊢
        omega
      refine ⟨_, before, rfl, hstop', (record_refs q.refs_lt).trans hsame, ?_, ?_, fun b => ?_⟩
      · rw [reverse_cons, canon_concat, record_length hfit, record_refs q.refs_lt]
        exact ⟨hb', by omega, hqrefs, hqle, hqbound⟩
      · exact forall_mem_cons.2 ⟨hstop'.le, hold⟩
      · rw [refsAt_cons, refsAt_cons, Entry.refsOn, hstop', record_refs q.refs_lt, record_offset, Entry.refsOn, Entry.refsOn,
          htouch, hsame]
        unfold stop at htouch ⊢
        split_ifs <;> omega
    · rename_i hm
      refine ⟨p, q :: before, rfl, rfl, rfl, ?_, ?_, fun b => ?_⟩
      · rw [reverse_cons, canon_concat, reverse_cons, canon_concat]
        refine ⟨⟨hb', hqlen, hqrefs, hqle, hqbound⟩, hlen, hrefs, fun r hr => hle r (by simpa [or_comm] using hr), ?_⟩
        intro r hr
        simp only [getLast?_concat, mem_def, some.injEq] at hr
        subst hr
        exact fun htouch hsame => hm ⟨hsame, htouch⟩
      · exact forall_mem_cons.2 ⟨le_refl _, forall_mem_cons.2 ⟨hqp.trans hstop, hold⟩⟩
      · rw [refsAt_cons, add_comm]

private theorem close_spec (hb : Canon before.reverse) (hr : Canon rest)
    (hcross : ∀ q ∈ before, ∀ p ∈ rest, q.stop ≤ p.offset)
    (hg : Fits g) (hsum : ∀ b, refsAt before b + refsAt rest b = g b) : Rep (close before rest) g := by
  cases rest with
  | nil => exact ⟨hb, fun b => by rw [close, refsAt_reverse, ← hsum]; simp⟩
  | cons p rest =>
    obtain ⟨hlen, hrefs, hfirst, hbound, hrest⟩ := canon_cons.1 hr
    obtain ⟨r, before', hpush, hstop, hsame, hcanon, hle, hcount⟩ := push_spec hb (fun q hq => hcross q hq p (by simp)) hlen
      hrefs hg fun b hlt => by
        have := hsum b
        rwa [refsAt_cons, refsAt_of_lt (m := rest) fun q hq => hlt.trans_le (hfirst q hq), add_zero] at this
    rw [close, hpush]
    refine ⟨canon_append.2 ⟨hcanon, hrest, fun q hq s hs => ?_, ?_⟩, fun b => ?_⟩
    · exact (hle q (mem_reverse.1 hq)).trans (hfirst s hs)
    · intro q hq
      simp only [getLast?_reverse, head?_cons, mem_def, some.injEq] at hq
      subst hq
      rw [hstop, hsame]
      exact hbound
    · rw [refsAt_append, refsAt_reverse, hcount, ← hsum, refsAt_cons]
      omega

/-! ### Walking along the map -/

/-- A position at `offset`: everything before it ends there or earlier, everything from it on starts there or later. -/
structure Cursor (before rest : List Entry) (offset : ℕ) : Prop where
  canon_before : Canon before.reverse
  canon_rest : Canon rest
  before_le : ∀ p ∈ before, p.stop ≤ offset
  rest_ge : ∀ p ∈ rest, offset ≤ p.offset

theorem Cursor.close (h : Cursor before rest offset) (hg : Fits g) (hsum : ∀ b, refsAt before b + refsAt rest b = g b) :
    Rep (close before rest) g :=
  close_spec h.canon_before h.canon_rest (fun q hq p hp => (h.before_le q hq).trans (h.rest_ge p hp)) hg hsum

private theorem Cursor.push (h : Cursor before rest offset) (hoff : p.offset = offset) (hlen : 0 < p.length)
    (hrefs : 0 < p.refs)
    (hrest : ∀ q ∈ rest, p.stop ≤ q.offset) (hg : Fits g) (hsum : ∀ b < p.stop, refsAt before b + p.refsOn b = g b) :
    Cursor (push before p) rest p.stop ∧ ∀ b, refsAt (RefMap.push before p) b = refsAt before b + p.refsOn b := by
  obtain ⟨r, before', hpush, -, -, hcanon, hle, hcount⟩ := push_spec h.canon_before (hoff ▸ h.before_le) hlen hrefs hg hsum
  rw [hpush]
  exact ⟨⟨hcanon, h.canon_rest, hle, hrest⟩, hcount⟩

theorem Canon.tail (h : Canon (p :: rest)) (hshort : length < p.length) :
    (record (p.offset + length) (p.length - length) p.refs).stop = p.stop ∧
      Canon (record (p.offset + length) (p.length - length) p.refs :: rest) := by
  obtain ⟨-, hrefs, hfirst, hnext, hrest⟩ := canon_cons.1 h
  have hplt := p.length_lt
  have hrem : p.length - length < 2 ^ 32 := by omega
  have hstop : (record (p.offset + length) (p.length - length) p.refs).stop = p.stop := by
    rw [record_stop _ _ hrem, stop]
    omega
  rw [canon_cons, hstop, record_length hrem, record_refs p.refs_lt]
  exact ⟨rfl, by omega, hrefs, hfirst, hnext, hrest⟩

section
variable {r : ℕ} (h : Cursor before (p :: rest) p.offset) (hr : 0 < r) (hlt : r < 2 ^ 32) (hg : Fits g)
include h hr hlt hg

theorem Cursor.cut (hlen : 0 < length) (hshort : length < p.length) (hne : r ≠ p.refs)
    (hsum : ∀ b, refsAt before b + refsAt (p :: rest) b + r * within p.offset length b =
      g b + p.refs * within p.offset length b) :
    Rep (RefMap.close before (record p.offset length r :: record (p.offset + length) (p.length - length) p.refs :: rest))
      g := by
  obtain ⟨-, -, hfirst, -⟩ := canon_cons.1 h.canon_rest
  obtain ⟨hright, htail⟩ := h.canon_rest.tail hshort
  have hstop : p.stop = p.offset + p.length := rfl
  have hplt := p.length_lt
  have hslt : length < 2 ^ 32 := by omega
  have hleft := record_stop p.offset r hslt
  refine close_spec h.canon_before ?_ ?_ hg fun b => ?_
  · rw [canon_cons, hleft, record_length hslt, record_refs hlt]
    refine ⟨hlen, hr, forall_mem_cons.2 ⟨le_refl _, fun q hq => ?_⟩, ?_, htail⟩
    · exact le_trans (by omega) (hfirst q hq)
    · intro q hq
      simp only [head?_cons, mem_def, some.injEq] at hq
      subst hq
      rw [record_refs p.refs_lt]
      exact fun _ => hne
  · intro q hq
    have hqp := h.before_le q hq
    refine forall_mem_cons.2 ⟨hqp, forall_mem_cons.2 ⟨?_, fun r hr => ?_⟩⟩
    · rw [record_offset]
      omega
    · have := hfirst r hr
      omega
  · have := hsum b
    simp only [refsAt_cons, Entry.refsOn, hleft, record_refs hlt, record_refs p.refs_lt, record_offset, within]
      at this ⊢
    split_ifs at this ⊢ <;> omega

theorem Cursor.pass (hsum : ∀ b < p.stop, refsAt before b + r * within p.offset p.length b = g b) :
    Cursor (RefMap.push before (record p.offset p.length r)) rest p.stop ∧
      ∀ b, refsAt (RefMap.push before (record p.offset p.length r)) b =
        refsAt before b + r * within p.offset p.length b := by
  obtain ⟨hplen, -, hfirst, -, hrest⟩ := canon_cons.1 h.canon_rest
  have hpstop : (record p.offset p.length r).stop = p.stop := record_stop p.offset r p.length_lt
  have hon : ∀ b, (record p.offset p.length r).refsOn b = r * within p.offset p.length b := by
    intro b
    rw [Entry.refsOn, within, hpstop, record_refs hlt, record_offset, stop]
    split_ifs <;> omega
  have hnew : Cursor before rest p.offset :=
    ⟨h.canon_before, hrest, h.before_le, fun q hq => h.rest_ge q (mem_cons_of_mem _ hq)⟩
  have := hnew.push (p := record p.offset p.length r) rfl (by rw [record_length p.length_lt]; exact hplen)
    (by rw [record_refs hlt]; exact hr) (by rw [hpstop]; exact hfirst) hg
    fun b hb => by rw [hon, hsum b (hpstop ▸ hb)]
  simpa only [hpstop, hon] using this

end

theorem splitBefore_spec (h : Canon (before.reverse ++ p :: rest)) (hlo : p.offset ≤ offset) (hhi : offset < p.stop) :
    ∃ before' p', splitBefore before p offset = (before', p') ∧ p'.offset = offset ∧ p'.stop = p.stop ∧ p'.refs = p.refs ∧
      Cursor before' (p' :: rest) offset ∧
      ∀ b, refsAt before' b + refsAt (p' :: rest) b = refsAt before b + refsAt (p :: rest) b := by
  obtain ⟨hb, hp, hcross, hbound⟩ := canon_append.1 h
  obtain ⟨-, hrefs, hfirst, -⟩ := canon_cons.1 hp
  have hcross' : ∀ q ∈ before, q.stop ≤ p.offset := fun q hq => hcross q (mem_reverse.2 hq) p (by simp)
  have hplen := p.length_lt
  have hpstop : p.stop = p.offset + p.length := rfl
  unfold splitBefore
  split
  · rename_i hlt
    have hleft : offset - p.offset < 2 ^ 32 := by omega
    obtain ⟨hstop, htail⟩ := hp.tail (show offset - p.offset < p.length by omega)
    rw [Nat.add_sub_cancel' hlo, show p.length - (offset - p.offset) = p.stop - offset by omega] at hstop htail
    have hlstop : (record p.offset (offset - p.offset) p.refs).stop = offset := by
      rw [record_stop _ _ hleft]
      omega
    refine ⟨_, _, rfl, rfl, hstop, record_refs p.refs_lt, ⟨?_, htail, ?_, ?_⟩, fun b => ?_⟩
    · rw [reverse_cons, canon_concat, record_length hleft, record_refs p.refs_lt]
      exact ⟨hb, by omega, hrefs, fun q hq => hcross q hq p (by simp), fun q hq => hbound q hq p (by simp)⟩
    · exact forall_mem_cons.2 ⟨hlstop.le, fun q hq => (hcross' q hq).trans hlo⟩
    · exact forall_mem_cons.2 ⟨le_refl _, fun q hq => hhi.le.trans (hfirst q hq)⟩
    · simp only [refsAt_cons, Entry.refsOn, record_refs p.refs_lt, record_offset]
      split_ifs <;> omega
  · rename_i hge
    have heq : p.offset = offset := by omega
    refine ⟨before, p, rfl, heq, rfl, rfl, ⟨hb, hp, heq ▸ hcross', ?_⟩, fun b => rfl⟩
    exact forall_mem_cons.2 ⟨heq.ge, fun q hq => hhi.le.trans (hfirst q hq)⟩

/-! ### `get` -/

private theorem getLoop_cons (hlen : 0 < length) (hle : p.offset ≤ offset) : getLoop before (p :: rest) offset length =
      if p.offset < offset ∧ p.stop ≤ offset then none
      else
        let (before, p) := splitBefore before p offset
        if p.offset ≠ offset then none
        else if length < p.length then
          some (close before
            (record offset length (p.refs + 1) :: record (offset + length) (p.length - length) p.refs :: rest))
        else getLoop (push before (record offset p.length (p.refs + 1))) rest (offset + p.length) (length - p.length) := by
  have hgap : fillGap before p offset length = (before, offset, length) := if_neg (by omega)
  rw [getLoop, if_neg (by omega), hgap]
  dsimp only
  rw [if_neg (by omega)]

private theorem getLoop_at (h : Cursor before (p :: rest) p.offset) (hlen : 0 < length) (hlt : length < 2 ^ 32)
    (hg : Fits g) (hsum : ∀ b, refsAt before b + refsAt (p :: rest) b + within p.offset length b = g b)
    (ih : ∀ before', Cursor before' rest p.stop → p.length ≤ length →
      (∀ b, refsAt before' b + refsAt rest b + within p.stop (length - p.length) b = g b) →
      ∃ m, getLoop before' rest p.stop (length - p.length) = some m ∧ Rep m g) :
    ∃ m, getLoop before (p :: rest) p.offset length = some m ∧ Rep m g := by
  obtain ⟨hplen, -, hfirst, -, -⟩ := canon_cons.1 h.canon_rest
  have hstop : p.stop = p.offset + p.length := rfl
  have hafter : ∀ b < p.stop, refsAt rest b = 0 := fun b hb => refsAt_of_lt fun q hq => hb.trans_le (hfirst q hq)
  -- the record gets one more reference, which its field can hold
  have hmore : p.refs + 1 < 2 ^ 32 := by
    have hat := hsum p.offset
    have := hg.refs p.offset
    rw [refsAt_cons, Entry.refsOn, within, if_pos ⟨le_refl _, by omega⟩, if_pos ⟨le_refl _, by omega⟩] at hat
    omega
  have hsplit : splitBefore before p p.offset = (before, p) := if_neg (lt_irrefl _)
  rw [getLoop_cons hlen (le_refl _), if_neg (by omega), hsplit]
  dsimp only
  rw [if_neg (by simp)]
  split
  · -- the range ends within the record
    rename_i hshort
    refine ⟨_, rfl, h.cut (by omega) hmore hg hlen hshort (by omega) fun b => ?_⟩
    rw [← hsum b, Nat.succ_mul]
    omega
  obtain ⟨hcur, hpush⟩ := h.pass (by omega) hmore hg fun b hb => by
    have := hsum b
    rw [refsAt_cons, hafter b hb, Entry.refsOn, hstop] at this
    rw [← this, within, within]
    split_ifs <;> omega
  refine ih _ hcur (by omega) fun b => ?_
  rw [hpush, ← hsum b, refsAt_cons, Entry.refsOn, within, within, within, hstop]
  split_ifs <;> omega

private theorem getLoop_gap {newlen : ℕ} (hgap : offset < p.offset) (hlen : 0 < length)
    (hnew : min (p.offset - offset) length = newlen) :
    getLoop before (p :: rest) offset length =
      getLoop (push before (record offset newlen 1)) (p :: rest) (offset + newlen) (length - newlen) := by
  have hfill : fillGap before p offset length =
      (push before (record offset newlen 1), offset + newlen, length - newlen) := by
    rw [fillGap, if_pos hgap, hnew]
  rw [getLoop, if_neg (by omega), hfill]
  dsimp only
  by_cases hzero : length - newlen = 0
  · rw [if_pos hzero, hzero, getLoop, if_pos rfl]
  · rw [if_neg hzero, getLoop_cons (by omega) (by omega)]

private theorem getLoop_spec (h : Cursor before rest offset) (hlt : length < 2 ^ 32) (hg : Fits g)
    (hsum : ∀ b, refsAt before b + refsAt rest b + within offset length b = g b) :
    ∃ m, getLoop before rest offset length = some m ∧ Rep m g := by
  have hdone : ∀ {before rest offset}, Cursor before rest offset →
      (∀ b, refsAt before b + refsAt rest b + within offset 0 b = g b) → Rep (close before rest) g := by
    intro before rest offset h hsum
    refine h.close hg fun b => ?_
    rw [← hsum b, within, if_neg (by omega)]
    rfl
  induction rest generalizing before offset length with
  | nil =>
    rw [getLoop]
    rcases eq_zero_or_pos length with rfl | hlen
    · exact ⟨_, rfl, hdone h hsum⟩
    have hstop := record_stop offset 1 hlt
    rw [if_neg (by omega)]
    refine ⟨_, rfl, close_spec h.canon_before ?_ ?_ hg fun b => ?_⟩
    · rw [canon_cons, record_length hlt, record_refs (by decide)]
      exact ⟨hlen, by decide, by simp, by simp, canon_nil⟩
    · intro q hq p hp
      obtain rfl := mem_singleton.1 hp
      exact h.before_le q hq
    · rw [← hsum b, refsAt_cons, Entry.refsOn, hstop, record_refs (by decide), record_offset, within]
      simp
  | cons p rest ih =>
    rcases eq_zero_or_pos length with rfl | hlen
    · rw [getLoop, if_pos rfl]
      exact ⟨_, rfl, hdone h hsum⟩
    by_cases hgap : offset < p.offset
    · obtain ⟨newlen, hnew⟩ : ∃ newlen, min (p.offset - offset) length = newlen := ⟨_, rfl⟩
      have hnlt : newlen < 2 ^ 32 := by omega
      have hstop := record_stop offset 1 hnlt
      have hone : (1 : ℕ) < 2 ^ 32 := by decide
      have hcount : ∀ b, (record offset newlen 1).refsOn b = within offset newlen b := by
        intro b
        rw [Entry.refsOn, hstop, record_refs hone, record_offset, within]
      have hlater : ∀ q ∈ p :: rest, offset + newlen ≤ q.offset := by
        intro q hq
        obtain ⟨-, -, hfirst, -⟩ := canon_cons.1 h.canon_rest
        rcases mem_cons.1 hq with rfl | hq
        · omega
        · have := hfirst q hq
          unfold stop at this
          omega
      have hfree : ∀ b < offset + newlen, refsAt (p :: rest) b = 0 := fun b hb =>
        refsAt_of_lt fun q hq => hb.trans_le (hlater q hq)
      obtain ⟨hcur, hpush⟩ := h.push (p := record offset newlen 1) rfl (by rw [record_length hnlt]; omega)
        (by rw [record_refs hone]; decide) (by rw [hstop]; exact hlater) hg fun b hb => by
          rw [hstop] at hb
          have := hsum b
          rw [hfree b hb] at this
          rw [hcount, ← this, within, within]
          split_ifs <;> omega
      rw [hstop] at hcur
      have hsum' : ∀ b, refsAt (RefMap.push before (record offset newlen 1)) b + refsAt (p :: rest) b +
          within (offset + newlen) (length - newlen) b = g b := by
        intro b
        rw [hpush, hcount, ← hsum b, within, within, within]
        split_ifs <;> omega
      rw [getLoop_gap hgap hlen hnew]
      rcases eq_zero_or_pos (length - newlen) with hzero | hmore
      · rw [hzero] at hsum' ⊢
        exact ⟨_, rfl, hdone hcur hsum'⟩
      · have heq : offset + newlen = p.offset := by omega
        rw [heq] at hcur hsum' ⊢
        exact getLoop_at hcur hmore (by omega) hg hsum' fun before' hcur' _ hsum'' => ih hcur' (by omega) hsum''
    · have heq : offset = p.offset := by
        have := h.rest_ge p (by simp)
        omega
      subst heq
      exact getLoop_at h hlen hlt hg hsum fun before' hcur _ hsum' => ih hcur (by omega) hsum'

theorem get_spec (h : Canon m) (hlt : length < 2 ^ 32) (hg : Fits fun b => refsAt m b + within offset length b) :
    ∃ m', get m offset length = some m' ∧ Rep m' fun b => refsAt m b + within offset length b := by
  unfold get
  rcases hs : seek Entry.offset stop m offset with ⟨before, rest⟩
  obtain ⟨rfl, hle, hgt⟩ := seek_spec h.sep hs
  simp only [refsAt_append, refsAt_reverse] at hg ⊢
  obtain ⟨hb, hr, hcross, -⟩ := canon_append.1 h
  by_cases hfirst : ∀ p ∈ rest, offset ≤ p.offset
  · exact getLoop_spec ⟨hb, hr, hle, hfirst⟩ hlt hg fun b => rfl
  -- the first record starts before the range
  cases rest with
  | nil => exact absurd (by simp) hfirst
  | cons p rest =>
    obtain ⟨-, -, hnext, -⟩ := canon_cons.1 hr
    have hhi := hgt p (by simp)
    have hlo : p.offset < offset := by
      by_contra hno
      refine hfirst (forall_mem_cons.2 ⟨not_lt.1 hno, fun q hq => ?_⟩)
      have := hnext q hq
      omega
    rcases eq_zero_or_pos length with rfl | hlen
    · rw [getLoop, if_pos rfl]
      refine ⟨_, rfl, close_spec hb hr (fun q hq s hs => hcross q (mem_reverse.2 hq) s hs) hg fun b => ?_⟩
      rw [within, if_neg (by omega)]
      rfl
    obtain ⟨before', p', hsplit, hoff, -, -, hcur, hsum⟩ := splitBefore_spec h hlo.le hhi
    have hsplit' : splitBefore before' p' offset = (before', p') := if_neg (by omega)
    have hstep : getLoop before (p :: rest) offset length = getLoop before' (p' :: rest) offset length := by
      rw [getLoop_cons hlen hlo.le, if_neg (by omega), hsplit, getLoop_cons hlen hoff.le, if_neg (by omega), hsplit']
    rw [hstep]
    refine getLoop_spec hcur hlt hg fun b => ?_
    rw [hsum b]

end RefMap
end Lunule.Bluestore
