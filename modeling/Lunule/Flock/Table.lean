import Lunule.Flock.Adjust

/-!
# Setting and removing locks

Both loops over the old locks of an owner keep that the locks still to be looked at are the owner's locks that overlap
the range in question, and that outside this range nobody's holdings have changed (`Clearing`). While a lock is set its
range grows over locks of the same type (`Merging`); at the end it overlaps no lock of its owner and is inserted.
-/

namespace Lunule.Flock
open Filelock LockState Range
variable {s t : LockState} {l a b lock old R N : Filelock} {H₀ O nbs : List Filelock}
  {o : Nat × Nat × Nat} {x B : Nat} {T : LockType}

/-- The owner of `N` loses its holdings on the range of `N`; `O` are the locks still to be looked at. -/
structure Clearing (B : Nat) (H₀ : List Filelock) (N : Filelock) (s : LockState) (O : List Filelock) : Prop where
  tracks : Tracks s
  tight : Tight s.heldCounts
  compat : s.held.Pairwise Compat
  fits : ∀ l ∈ s.held, l.Within B
  lockFits : N.Within B
  olds : ∀ l ∈ s.held, l.key = N.key → (l.range.Overlaps N.range ↔ l ∈ O)
  mem : ∀ l ∈ O, l ∈ s.held ∧ l.key = N.key
  nodup : O.Nodup
  outside : ∀ o x T, ¬(o = N.key ∧ N.range.Covers x) → (Held s.held o x T ↔ Held H₀ o x T)

namespace Clearing
section
variable (h : Clearing B H₀ N s (old :: O))
include h

private theorem overlaps : old.range.Overlaps N.range :=
  (h.olds old (h.mem old (by simp)).1 (h.mem old (by simp)).2).2 (by simp)

private theorem mem_tail (hl : l ∈ O) : l ∈ s.held.erase old ∧ l.key = N.key := by
  obtain ⟨hmem, hkey⟩ := h.mem l (by simp [hl])
  have hne : l ≠ old := by
    rintro rfl
    exact (List.nodup_cons.1 h.nodup).1 hl
  exact ⟨(List.mem_erase_of_ne hne).2 hmem, hkey⟩

private theorem carve :
    Clearing B H₀ N ((s.carve (decide (N.length = 0)) N old).pruneHeld old.client) O := by
  obtain ⟨hold, hkey⟩ := h.mem old (by simp)
  have hov := h.overlaps
  obtain ⟨htracks, hframe, hperm⟩ := h.tracks.carve h.compat hold (h.fits old hold) h.lockFits hov
  obtain ⟨hcompat, hfits⟩ := sound_cut h.compat h.fits hold h.lockFits hov
  have hmem := fun l => hperm.mem_iff (a := l)
  refine ⟨htracks.pruneHeld _, Counts.tight_prune fun d hd => ?_, (perm_compat hperm).2 hcompat,
    fun l hl => hfits l ((hmem l).1 hl), h.lockFits, fun l hl hlkey => ?_, fun l hl => ?_, (List.nodup_cons.1 h.nodup).2,
    fun o x T hx => ?_⟩
  · rw [hframe d hd]
    exact h.tight d
  · rcases List.mem_append.1 ((hmem l).1 hl) with hl | hl
    · refine iff_of_false (mem_pieces hov hl).2.2.2 fun hlO => ?_
      exact not_mem_of_pieces h.compat hold hov hl (h.mem l (by simp [hlO])).1
    · obtain ⟨hne, hl⟩ := (List.Nodup.mem_erase_iff (nodup_of_compat h.compat)).1 hl
      rw [h.olds l hl hlkey, List.mem_cons, or_iff_right hne]
  · obtain ⟨hl, hlkey⟩ := h.mem_tail hl
    exact ⟨(hmem l).2 (List.mem_append_right _ hl), hlkey⟩
  · rw [← h.outside o x T hx, ← held_cut hold hov hkey hx]
    exact Held.perm hperm

end

theorem carve_all (h : Clearing B H₀ N s O) : Clearing B H₀ N
    (O.foldl (fun s old => (s.carve (decide (N.length = 0)) N old).pruneHeld old.client) s) [] := by
  induction O generalizing s with
  | nil => exact h
  | cons old O ih => exact ih h.carve

theorem held_iff (h : Clearing B H₀ N s []) : Held s.held o x T ↔ Held H₀ o x T ∧ ¬(o = N.key ∧ N.range.Covers x) := by
  constructor
  · rintro ⟨l, hl, hlo, hlx, hlT⟩
    have hx : ¬(o = N.key ∧ N.range.Covers x) := by
      rintro ⟨rfl, hNx⟩
      have := (h.olds l hl hlo).1 (overlaps_iff.2 ⟨x, hlx, hNx⟩)
      simp at this
    exact ⟨(h.outside o x T hx).1 ⟨l, hl, hlo, hlx, hlT⟩, hx⟩
  · rintro ⟨hheld, hx⟩
    exact (h.outside o x T hx).2 hheld

end Clearing

/-! ### A lock that grows -/

/-- The new lock `N` as it has grown from the request `R`, with the neighbors `nbs` still to be looked at. -/
structure Merging (B : Nat) (H₀ : List Filelock) (R N : Filelock) (s : LockState) (O nbs : List Filelock) : Prop where
  clearing : Clearing B H₀ N s O
  lock : N = R.on N.range
  reach : ∀ x, R.range.Covers x → N.range.Covers x
  grown : ∀ x T, N.range.Covers x → ¬R.range.Covers x → (Held H₀ R.key x T ↔ T = R.type)
  others : ∀ l ∈ s.held, l.key ≠ R.key → Compat N l
  near : ∀ l ∈ nbs, l ∈ s.held ∧ l.key = R.key ∧ l.range.Touches N.range
  nearNodup : nbs.Nodup

private theorem fits_join (ha : a.Within B) (hb : b.Within B) : (a.on (a.range.join b.range)).Within B := by
  unfold Within at *
  unfold Range.join range on
  by_cases h0 : a.length = 0 ∨ b.length = 0
  · simp only [h0, if_true]
    omega
  · simp only [h0, if_false]
    omega

namespace Merging

private theorem key (h : Merging B H₀ R N s O nbs) : N.key = R.key := by
  rw [h.lock]
  rfl

private theorem type (h : Merging B H₀ R N s O nbs) : N.type = R.type := by
  rw [h.lock]
  rfl

private theorem compat_join (hab : a.range.Overlaps b.range ∨ a.range.Touches b.range) (hkey : b.key = a.key)
    (htype : b.type = a.type) (ha : Compat a l) (hb : Compat b l) : Compat (a.on (a.range.join b.range)) l := by
  intro ho
  rcases (overlaps_join hab).1 ho.symm with ho | ho
  · exact ha ho.symm
  · have := hb ho.symm
    rw [hkey, htype] at this
    exact this

private theorem join (h : Merging B H₀ R N s O nbs) (hold : old ∈ s.held) (hkey : old.key = R.key)
    (htype : old.type = R.type) (hov : N.range.Overlaps old.range ∨ N.range.Touches old.range) :
    Merging B H₀ R (N.on (N.range.join old.range)) ((s.eraseHeld old).pruneHeld old.client) (O.erase old)
      (nbs.erase old) := by
  have hc := h.clearing
  have hn := nodup_of_compat hc.compat
  have hmem : ∀ l, l ∈ s.held.erase old ↔ l ≠ old ∧ l ∈ s.held := fun l => List.Nodup.mem_erase_iff hn
  -- another lock of the owner does not overlap `old`
  have hout : ∀ l ∈ s.held, l ≠ old → l.key = R.key → ¬l.range.Overlaps old.range := fun l hl hne hlkey ho =>
    (compat_of_mem hc.compat hl hold hne ho).1 (hlkey.trans hkey.symm)
  have hclearing : Clearing B H₀ (N.on (N.range.join old.range)) ((s.eraseHeld old).pruneHeld old.client) (O.erase old) := by
    refine ⟨(hc.tracks.eraseHeld hold).pruneHeld _, Counts.tight_prune fun d hd => ?_,
      hc.compat.sublist (List.erase_sublist ..), fun l hl => hc.fits l (List.mem_of_mem_erase hl),
      fits_join hc.lockFits (hc.fits old hold), fun l hl hlkey => ?_, fun l hl => ?_, hc.nodup.erase _, fun o x T hx => ?_⟩
    · rw [frame_eraseHeld s old d hd]
      exact hc.tight d
    · obtain ⟨hne, hl⟩ := (hmem l).1 hl
      rw [range_on, overlaps_join hov, List.mem_erase_of_ne hne, ← hc.olds l hl hlkey]
      exact or_iff_left (hout l hl hne (hlkey.trans h.key))
    · obtain ⟨hne, hlO⟩ := (List.Nodup.mem_erase_iff hc.nodup).1 hl
      obtain ⟨hl, hlkey⟩ := hc.mem l hlO
      exact ⟨(hmem l).2 ⟨hne, hl⟩, hlkey⟩
    · rw [key_on, range_on, covers_join hov] at hx
      rw [← hc.outside o x T fun hNx => hx ⟨hNx.1, .inl hNx.2⟩]
      constructor
      · rintro ⟨l, hl, hrest⟩
        exact ⟨l, List.mem_of_mem_erase hl, hrest⟩
      · rintro ⟨l, hl, hlo, hlx, hlT⟩
        have hne : l ≠ old := by
          rintro rfl
          exact hx ⟨hlo.symm.trans (hkey.trans h.key.symm), .inr hlx⟩
        exact ⟨l, (hmem l).2 ⟨hne, hl⟩, hlo, hlx, hlT⟩
  refine ⟨hclearing, ?_, fun x hx => (covers_join hov).2 (.inl (h.reach x hx)), fun x T hx hRx => ?_,
    fun l hl hlkey => ?_, fun l hl => ?_, h.nearNodup.erase _⟩
  · rw [range_on, h.lock]
    rfl
  · by_cases hNx : N.range.Covers x
    · exact h.grown x T hNx hRx
    have holdx : old.range.Covers x := ((covers_join hov).1 hx).resolve_left hNx
    rw [← hc.outside R.key x T fun hcov => hNx hcov.2]
    constructor
    · rintro ⟨l, hl, hlo, hlx, hlT⟩
      rw [← hlT, eq_of_covers hc.compat hl hold (hlo.trans hkey.symm) hlx holdx, htype]
    · rintro rfl
      exact ⟨old, hold, hkey, holdx, htype⟩
  · obtain ⟨hne, hl⟩ := (hmem l).1 hl
    exact compat_join hov (hkey.trans h.key.symm) (htype.trans h.type.symm) (h.others l hl hlkey)
      (compat_of_mem hc.compat hold hl (Ne.symm hne))
  · obtain ⟨hne, hl⟩ := (List.Nodup.mem_erase_iff h.nearNodup).1 hl
    obtain ⟨hl, hlkey, htouch⟩ := h.near l hl
    exact ⟨(hmem l).2 ⟨hne, hl⟩, hlkey, htouch.join hov (hout l hl hne hlkey)⟩

private theorem carve (h : Merging B H₀ R N s (old :: O) nbs) :
    Merging B H₀ R N ((s.carve (decide (N.length = 0)) N old).pruneHeld old.client) O nbs := by
  have hc := h.clearing
  obtain ⟨hold, hkey⟩ := hc.mem old (by simp)
  have hov := hc.overlaps
  obtain ⟨-, -, hperm⟩ := hc.tracks.carve hc.compat hold (hc.fits old hold) hc.lockFits hov
  refine ⟨hc.carve, h.lock, h.reach, h.grown, fun l hl hlkey => ?_, fun l hl => ?_, h.nearNodup⟩
  · rcases List.mem_append.1 (hperm.mem_iff.1 hl) with hl | hl
    · exact absurd ((mem_pieces hov hl).1.trans (hkey.trans h.key)) hlkey
    · exact h.others l (List.mem_of_mem_erase hl) hlkey
  · obtain ⟨hl, hlkey, htouch⟩ := h.near l hl
    have hne : l ≠ old := by
      rintro rfl
      exact htouch.not_overlaps hov
    exact ⟨hperm.mem_iff.2 (List.mem_append_right _ ((List.mem_erase_of_ne hne).2 hl)), hlkey, htouch⟩

end Merging

/-! ### The loops of `adjust_locks` -/

theorem asInt_of_lt {v : Nat} (h : v < 2 ^ 31) : asInt v = v := by
  unfold asInt
  rw [Nat.mod_eq_of_lt (by omega), if_pos h]

/-- The last byte of the two locks joined. -/
def joinedEnd (N old : Filelock) : Nat := max (N.start + N.length) (old.start + old.length) - 1

/-- The end of the two locks joined is not cut. -/
def Whole (N old : Filelock) : Prop := N.length = 0 ∨ old.length = 0 ∨ asInt (joinedEnd N old) = joinedEnd N old

instance : Decidable (Whole N old) := inferInstanceAs (Decidable (_ ∨ _))

private theorem adjustOld_same (hold : old.Within B) (hN : N.Within B) (hwhole : Whole N old)
    (htype : old.type = N.type) : adjustOld (decide (N.length = 0)) (s, N) old =
      ((s.eraseHeld old).pruneHeld old.client, N.on (N.range.join old.range)) := by
  have hstart : (if old.start < N.start then old.start else N.start) = min N.start old.start := by
    split <;> omega
  unfold adjustOld
  simp only [htype, if_true, hstart, decide_eq_true_eq]
  by_cases h0 : N.length = 0 ∨ old.length = 0
  · simp [on, Range.join, range, h0]
  have hend : (if lastByte N > lastByte old then lastByte N else lastByte old) = joinedEnd N old := by
    rw [lastByte_eq hN (by omega), lastByte_eq hold (by omega), joinedEnd]
    split <;> omega
  have hlen : add64 (sub64 (joinedEnd N old) (min N.start old.start)) 1 =
      max (N.start + N.length) (old.start + old.length) - min N.start old.start := by
    unfold Within at hold hN
    unfold joinedEnd
    rw [sub64_of_le (by omega) (by omega), add64_of_lt (by omega)]
    omega
  simp only [hend, (or_assoc.2 hwhole).resolve_left h0, hlen]
  simp [on, Range.join, range, h0]

private theorem Whole.join (hold : Whole N old) (hl : Whole N l) : Whole (N.on (N.range.join old.range)) l := by
  by_cases h0 : N.length = 0 ∨ old.length = 0
  · simp [Whole, on, Range.join, range, h0]
  by_cases h1 : l.length = 0
  · exact .inr (.inl h1)
  have hN : N.length ≠ 0 := fun h => h0 (.inl h)
  have hold := (or_assoc.2 hold).resolve_left h0
  have hl := (hl.resolve_left hN).resolve_left h1
  -- the end is that of one of the two joins
  have hmax : joinedEnd (N.on (N.range.join old.range)) l = joinedEnd N old ∨
      joinedEnd (N.on (N.range.join old.range)) l = joinedEnd N l := by
    simp only [joinedEnd, on, Range.join, range, h0, if_false]
    omega
  refine .inr (.inr ?_)
  rcases hmax with h | h
  · rw [h, hold]
  · rw [h, hl]

private theorem adjustOld_other (htype : old.type ≠ N.type) {toEnd : Bool} :
    adjustOld toEnd (s, N) old = ((s.carve toEnd N old).pruneHeld old.client, N) := by
  unfold adjustOld
  simp [htype]

/-- Only the last of the old locks can reach to the end. -/
private theorem Clearing.length_ne_zero {l : Filelock} (hc : Clearing B H₀ N s (old :: O)) (hl : l ∈ O)
    (hle : old.start ≤ l.start) : old.length ≠ 0 := by
  intro h0
  obtain ⟨hold, hkey⟩ := hc.mem old (by simp)
  obtain ⟨hlmem, hlkey⟩ := hc.mem l (by simp [hl])
  have heq : l = old := eq_of_covers hc.compat hlmem hold (hlkey.trans hkey.symm) (covers_start l.range)
    (show old.range.Covers l.start from ⟨hle, .inl h0⟩)
  exact (List.nodup_cons.1 hc.nodup).1 (heq ▸ hl)

theorem Merging.adjustAll (h : Merging B H₀ R N s O nbs) (hsorted : O.Pairwise (·.start ≤ ·.start))
    (hflag : O ≠ [] → (N.length = 0 ↔ R.length = 0)) (hwhole : ∀ l ∈ O, l.type = N.type → Whole N l) :
    ∃ s' N', O.foldl (adjustOld (decide (R.length = 0))) (s, N) = (s', N') ∧ Merging B H₀ R N' s' [] nbs := by
  induction O generalizing s N with
  | nil => exact ⟨s, N, rfl, h⟩
  | cons old O ih =>
    have hc := h.clearing
    obtain ⟨hold, hkey⟩ := hc.mem old (by simp)
    obtain ⟨hfirst, hsorted⟩ := List.pairwise_cons.1 hsorted
    obtain ⟨hw, hwhole⟩ := List.forall_mem_cons.1 hwhole
    have hflag := hflag (by simp)
    have htoEnd : decide (R.length = 0) = decide (N.length = 0) := by rw [decide_eq_decide, hflag]
    rw [List.foldl_cons]
    by_cases htype : old.type = N.type
    · rw [htoEnd, adjustOld_same (hc.fits old hold) hc.lockFits (hw htype) htype, ← htoEnd]
      have hj := h.join hold (hkey.trans h.key) (htype.trans h.type) (.inl hc.overlaps.symm)
      have hnear : old ∉ nbs := fun hmem => (h.near old hmem).2.2.not_overlaps hc.overlaps
      rw [List.erase_cons_head, List.erase_of_not_mem hnear] at hj
      refine ih hj hsorted (fun hne => ?_) fun l hl hltype => (hw htype).join (hwhole l hl hltype)
      obtain ⟨l, hl⟩ := List.exists_mem_of_ne_nil O hne
      have holdlen := hc.length_ne_zero hl (hfirst l hl)
      rw [← hflag]
      show (N.range.join old.range).length = 0 ↔ N.length = 0
      unfold Range.join range
      by_cases h0 : N.length = 0
      · simp [h0]
      · simp only [h0, holdlen, or_self, if_false, iff_false]
        omega
    · rw [adjustOld_other htype]
      exact ih (htoEnd ▸ h.carve) hsorted (fun _ => hflag) hwhole

private theorem coalesced_eq (hold : old.Within B) (hN : N.Within B) (ht : old.range.Touches N.range) :
    coalesced N old = some (N.on (N.range.join old.range)) := by
  unfold Within at hold hN
  unfold Range.Touches range at ht
  simp only at ht
  have ha : add64 old.start old.length = old.start + old.length := add64_of_lt (by omega)
  have hb : add64 N.start N.length = N.start + N.length := add64_of_lt (by omega)
  have hc : add64 old.length N.length = old.length + N.length := add64_of_lt (by omega)
  unfold coalesced on Range.join range
  rw [ha, hb, hc]
  by_cases h0 : N.length = 0
  · simp only [h0, if_true]
    rw [if_pos (by omega)]
    congr 2
    omega
  by_cases h1 : old.length = 0
  · simp only [h0, h1, if_false, if_true]
    rw [if_pos (by omega)]
    congr 2
    omega
  simp only [h0, h1, if_false, or_self]
  by_cases h2 : old.start + old.length = N.start
  · rw [if_pos h2]
    congr 2
    · omega
    · omega
  · rw [if_neg h2, if_pos (by omega)]
    congr 2
    · omega
    · omega

theorem Merging.coalesceAll (h : Merging B H₀ R N s [] nbs) :
    ∃ s' N', nbs.foldlM coalesce (s, N) = some (s', N') ∧ Merging B H₀ R N' s' [] [] := by
  induction nbs generalizing s N with
  | nil => exact ⟨s, N, rfl, h⟩
  | cons old nbs ih =>
    obtain ⟨hold, hkey, htouch⟩ := h.near old (by simp)
    have hc := h.clearing
    have hcons : ∀ {r : LockState × Filelock}, coalesce (s, N) old = some r →
        (old :: nbs).foldlM coalesce (s, N) = nbs.foldlM coalesce r := by
      intro r hr
      rw [List.foldlM_cons, hr]
      rfl
    by_cases htype : old.type = N.type
    · have hstep : coalesce (s, N) old = some ((s.eraseHeld old).pruneHeld old.client, N.on (N.range.join old.range)) := by
        unfold coalesce
        simp only [htype, if_true, coalesced_eq (hc.fits old hold) hc.lockFits htouch, Option.map_some]
      rw [hcons hstep]
      have hj := h.join hold hkey (htype.trans h.type) (.inr htouch.symm)
      rw [List.erase_cons_head] at hj
      exact ih hj
    · have hstep : coalesce (s, N) old = some (s.pruneHeld old.client, N) := by
        unfold coalesce
        simp [htype]
      rw [hcons hstep]
      exact ih { h with
        clearing := { hc with tracks := hc.tracks.pruneHeld _, tight := Counts.tight_prune fun d _ => hc.tight d }
        near := fun l hl => h.near l (by simp [hl])
        nearNodup := (List.nodup_cons.1 h.nearNodup).2 }

/-! ### The lock is inserted -/

structure Held.Inv (B : Nat) (s : LockState) : Prop where
  tracks : Tracks s
  tight : Tight s.heldCounts
  compat : s.held.Pairwise Compat
  fits : ∀ l ∈ s.held, l.Within B

theorem Clearing.inv (h : Clearing B H₀ N s O) : Held.Inv B s := ⟨h.tracks, h.tight, h.compat, h.fits⟩

theorem Merging.insert (h : Merging B H₀ R N s [] []) : Held.Inv B (s.insertHeld N) ∧
    ∀ o x T, Held (s.insertHeld N).held o x T ↔
      (o = R.key ∧ R.range.Covers x ∧ T = R.type) ∨ (¬(o = R.key ∧ R.range.Covers x) ∧ Held H₀ o x T) := by
  have hc := h.clearing
  have hperm : (s.insertHeld N).held.Perm (N :: s.held) := perm_insertLock _ _
  have hapart : ∀ l ∈ s.held, l.key = R.key → ¬l.range.Overlaps N.range := by
    intro l hl hlkey ho
    simpa using (hc.olds l hl (hlkey.trans h.key.symm)).1 ho
  constructor
  · refine ⟨hc.tracks.insertHeld N, fun d => ?_, (perm_compat hperm).2 (List.pairwise_cons.2 ⟨fun l hl => ?_, hc.compat⟩),
      fun l hl => ?_⟩
    · by_cases hd : d = N.client
      · subst hd
        have hcount := hc.tracks.counted N.client
        show Function.update _ _ _ _ ≠ _
        rw [Function.update_self, hcount]
        simp only [ne_eq, Option.some.injEq]
        omega
      · rw [frame_insertHeld s N d hd]
        exact hc.tight d
    · by_cases hlkey : l.key = R.key
      · exact fun ho => absurd ho.symm (hapart l hl hlkey)
      · exact h.others l hl hlkey
    · rcases List.mem_cons.1 (hperm.mem_iff.1 hl) with rfl | hl
      · exact hc.lockFits
      · exact hc.fits l hl
  · intro o x T
    rw [Held.perm hperm]
    have hcons : Held (N :: s.held) o x T ↔ (o = R.key ∧ N.range.Covers x ∧ T = R.type) ∨
        (¬(o = R.key ∧ N.range.Covers x) ∧ Held s.held o x T) := by
      constructor
      · rintro ⟨l, hl, hlo, hlx, hlT⟩
        rcases List.mem_cons.1 hl with rfl | hl
        · exact .inl ⟨hlo.symm.trans h.key, hlx, hlT.symm.trans h.type⟩
        · refine .inr ⟨fun ⟨ho, hNx⟩ => ?_, l, hl, hlo, hlx, hlT⟩
          exact hapart l hl (hlo.trans ho) (overlaps_iff.2 ⟨x, hlx, hNx⟩)
      · rintro (⟨ho, hNx, hT⟩ | ⟨-, l, hl, hrest⟩)
        · exact ⟨N, by simp, h.key.trans ho.symm, hNx, h.type.trans hT.symm⟩
        · exact ⟨l, by simp [hl], hrest⟩
    rw [hcons]
    by_cases ho : o = R.key
    · subst ho
      by_cases hRx : R.range.Covers x
      · simp [hRx, h.reach x hRx]
      · by_cases hNx : N.range.Covers x
        · simp [hRx, hNx, h.grown x T hNx hRx]
        · simp [hRx, hNx, hc.outside R.key x T fun hcov => hNx hcov.2]
    · simp [ho, hc.outside o x T fun hcov => ho (hcov.1.trans h.key)]

end Lunule.Flock
