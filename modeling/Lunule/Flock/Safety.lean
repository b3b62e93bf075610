import Lunule.Flock.Table

/-!
# Safety of the lock table

While no joined lock is cut, the scan for overlapping locks finds exactly those although it stops at an
exclusive lock: a lock before it that still overlapped would overlap the exclusive lock as well. Hence two locks that
overlap are shared locks of different owners, setting and removing a lock change what its owner holds on the range and
nothing else, and the counts of each client are the numbers of its locks. Beyond `2 ^ 31` the end of two joined locks is
cut to an `int` (`holder_after_truncation`).
-/

namespace Lunule.Flock
open Filelock LockState Exec Function Option
variable {s t : LockState} {l a lock q : Filelock} {L H m : List Filelock} {c n : Nat} {o : Nat × Nat × Nat} {x B : Nat}
  {T : LockType}

/-! ### The scan -/

def Neighbor (q l : Filelock) : Prop := ¬l.range.Overlaps q.range ∧ l.key = q.key ∧ l.range.Touches q.range

instance : Decidable (Neighbor q l) := inferInstanceAs (Decidable (_ ∧ _))

variable (q) (H)

def overlapping : List Filelock := H.filter fun l => decide (l.range.Overlaps q.range)

def neighbors : List Filelock := H.filter fun l => decide (Neighbor q l)

def ownOverlapping : List Filelock := (overlapping q H).filter fun l => ownerEqual l q

variable {H}

private theorem key_neighborCheckLock : (neighborCheckLock q).key = q.key := by
  unfold neighborCheckLock
  split <;> rfl

variable {q} {k : Counts}

private theorem neighbor_iff (hl : l.Within B) (hq : q.Within B) (ho : ¬l.range.Overlaps q.range) :
    (ownerEqual (neighborCheckLock q) l && shareSpace l (neighborCheckLock q)) = true ↔ Neighbor q l := by
  rw [Bool.and_eq_true, ownerEqual_iff, key_neighborCheckLock, shareSpace_neighborCheck hl hq ho, Neighbor]
  exact ⟨fun h => ⟨ho, h.1.symm, h.2⟩, fun h => ⟨h.2.1.symm, h.2.2⟩⟩

private theorem far_of_excl (hc : Compat l a) (hle : a.start ≤ l.start) (hexcl : l.type = .excl)
    (hlt : l.start < q.start) : ¬a.range.Overlaps q.range ∧ ¬a.range.Touches q.range := by
  have hno : ¬l.range.Overlaps a.range := fun ho => by
    have := (hc ho).2.1
    simp [hexcl] at this
  unfold Range.Overlaps range at *
  unfold Range.Touches
  simp only at hno ⊢
  omega

private theorem scan_spec (hq : q.Within B) (hsorted : L.Pairwise fun a b => b.start ≤ a.start) (hc : L.Pairwise Compat)
    (hfits : ∀ l ∈ L, l.Within B) (ov ne : List Filelock) : scan q L ov ne = ((overlapping q L).reverse ++ ov, (neighbors q L).reverse ++ ne) := by
  induction L generalizing ov ne with
  | nil => rfl
  | cons l L ih =>
    obtain ⟨hle, hsorted⟩ := List.pairwise_cons.1 hsorted
    obtain ⟨hcl, hc⟩ := List.pairwise_cons.1 hc
    have hl := hfits l (by simp)
    have hspace : shareSpace l q = true ↔ l.range.Overlaps q.range := by
      unfold Within at hl hq
      exact shareSpace_iff (by omega) (by omega)
    have ih := ih hsorted hc fun a ha => hfits a (by simp [ha])
    -- where the scan stops nothing is left to find
    have hstop : l.start < q.start ∧ l.type = .excl → overlapping q L = [] ∧ neighbors q L = [] := by
      rintro ⟨hlt, hexcl⟩
      constructor <;> refine List.filter_eq_nil_iff.2 fun a ha => ?_
      · simpa using (far_of_excl (hcl a ha) (hle a ha) hexcl hlt).1
      · simp only [decide_eq_true_eq]
        exact fun hn => (far_of_excl (hcl a ha) (hle a ha) hexcl hlt).2 hn.2.2
    have hout : ∀ ov' ne', (if l.start < q.start ∧ l.type = .excl then (ov', ne') else scan q L ov' ne') =
        ((overlapping q L).reverse ++ ov', (neighbors q L).reverse ++ ne') := by
      intro ov' ne'
      split
      · rename_i h
        simp [hstop h]
      · exact ih ov' ne'
    rw [scan]
    by_cases ho : l.range.Overlaps q.range
    · have hn : ¬Neighbor q l := fun h => h.1 ho
      simp only [hspace.2 ho, hout]
      simp [overlapping, neighbors, ho, hn]
    have hno : ¬shareSpace l q = true := fun h => ho (hspace.1 h)
    have hneighbor := neighbor_iff hl hq ho
    by_cases hn : Neighbor q l
    · simp only [hno, hneighbor.2 hn, hout]
      simp [overlapping, neighbors, ho, hn]
    · have hnn : ¬(ownerEqual (neighborCheckLock q) l && shareSpace l (neighborCheckLock q)) = true := fun h => hn (hneighbor.1 h)
      simp only [hno, hnn, hout]
      simp [overlapping, neighbors, ho, hn]

private theorem lt_of_mem_dropWhile {en : Nat} (hsorted : m.Pairwise (·.start ≤ ·.start))
    (hl : l ∈ m.dropWhile (·.start ≤ en)) : en < l.start := by
  induction m with
  | nil => simp at hl
  | cons a m ih =>
    obtain ⟨ha, hm⟩ := List.pairwise_cons.1 hsorted
    by_cases hle : a.start ≤ en
    · rw [List.dropWhile_cons_of_pos (by simpa using hle)] at hl
      exact ih hm hl
    rw [List.dropWhile_cons_of_neg (by simpa using hle)] at hl
    rcases List.mem_cons.1 hl with rfl | hl
    · omega
    · have := ha l hl
      omega

private theorem start_le_endpoint (hl : l.Within B) (hq : q.Within B)
    (h : l.range.Overlaps q.range ∨ l.range.Touches q.range) :
    l.start ≤ if q.length ≠ 0 then add64 q.start q.length else 2 ^ 64 - 1 := by
  unfold Within at hl hq
  unfold Range.Overlaps Range.Touches range at h
  simp only at h
  by_cases h0 : q.length = 0
  · simp only [h0, ne_eq, not_true_eq_false, if_false]
    omega
  · rw [if_pos h0, add64_of_lt (by omega)]
    omega

section
variable (h : Held.Inv B s)
include h

theorem getOverlappingLocks_eq (hq : q.Within B) : getOverlappingLocks s.held q = (overlapping q s.held, neighbors q s.held) := by
  unfold getOverlappingLocks overlapping neighbors
  dsimp only
  generalize hen : (if q.length ≠ 0 then add64 q.start q.length else 2 ^ 64 - 1) = en
  have hout : ∀ l ∈ s.held, en < l.start → ¬l.range.Overlaps q.range ∧ ¬Neighbor q l := by
    intro l hl hlt
    have hle := fun hd => hen ▸ start_le_endpoint (h.fits l hl) hq hd
    exact ⟨fun ho => not_lt.2 (hle (.inl ho)) hlt, fun hn => not_lt.2 (hle (.inr hn.2.2)) hlt⟩
  have hfilter : ∀ P : Filelock → Bool, (∀ l ∈ s.held, en < l.start → ¬P l = true) →
      s.held.filter P = (s.held.takeWhile (·.start ≤ en)).filter P := by
    intro P hP
    have hdrop := List.filter_eq_nil_iff.2 fun l hl =>
      hP l ((List.dropWhile_sublist _).subset hl) (lt_of_mem_dropWhile h.tracks.sorted hl)
    have hsplit := congrArg (List.filter P) (List.takeWhile_append_dropWhile (p := (·.start ≤ en)) (l := s.held))
    rw [List.filter_append, hdrop, List.append_nil] at hsplit
    exact hsplit.symm
  rw [hfilter _ fun l hl hlt => by simpa using (hout l hl hlt).1,
    hfilter _ fun l hl hlt => by simpa using (hout l hl hlt).2]
  cases hpre : s.held.takeWhile (·.start ≤ en) with
  | nil =>
    have hlast : lastBefore s.held en = s.held.head?.toList := by
      unfold lastBefore
      rw [hpre]
    rw [hlast]
    -- every lock starts behind; the first is looked at and left
    cases hheld : s.held with
    | nil => rfl
    | cons a rest =>
      have ha : a ∈ s.held := by simp [hheld]
      have hlt : en < a.start := by
        rw [hheld] at hpre
        by_contra hle
        rw [List.takeWhile_cons_of_pos (by simpa using hle)] at hpre
        simp at hpre
      simp only [List.head?_cons, toList_some]
      rw [scan_spec hq (List.pairwise_singleton _ _) (List.pairwise_singleton _ _) (by simpa using h.fits a ha)]
      simp [overlapping, neighbors, (hout a ha hlt).1, (hout a ha hlt).2]
  | cons a pre =>
    have hsub := hpre ▸ List.takeWhile_sublist _
    have hcompat := List.pairwise_reverse.2 ((h.compat.sublist hsub).imp fun hab => hab.symm)
    have hsorted := List.pairwise_reverse.2 (h.tracks.sorted.sublist hsub)
    have hlast : lastBefore s.held en = (a :: pre).reverse := by
      unfold lastBefore
      rw [hpre]
    rw [hlast, scan_spec hq hsorted hcompat fun l hl => h.fits l (hsub.subset (List.mem_reverse.1 hl))]
    simp only [overlapping, neighbors, List.filter_reverse, List.reverse_reverse, List.append_nil]

/-! ### Setting and removing a lock -/

private theorem Held.Inv.congr (hh : t.held = s.held) (hc : t.heldCounts = s.heldCounts) : Held.Inv B t :=
  ⟨⟨hh ▸ h.tracks.sorted, by rw [hh, hc]; exact h.tracks.counted⟩, hc ▸ h.tight, hh ▸ h.compat, hh ▸ h.fits⟩

section
variable (hq : q.Within B)
include hq

private theorem clearing_start : Clearing B s.held q s (ownOverlapping q s.held) := by
  refine ⟨h.tracks, h.tight, h.compat, h.fits, hq, fun l hl hkey => ?_, fun l hl => ?_, ?_, fun _ _ _ _ => Iff.rfl⟩
  · simp [ownOverlapping, overlapping, hl, ownerEqual_iff, hkey]
  · simp only [ownOverlapping, overlapping, List.mem_filter, ownerEqual_iff] at hl
    exact ⟨hl.1.1, hl.2⟩
  · exact ((nodup_of_compat h.compat).filter _).filter _

section
variable (hothers : ∀ l ∈ s.held, l.key ≠ q.key → Compat q l)
include hothers

private theorem merging_start :
    Merging B s.held q q s (ownOverlapping q s.held) (neighbors q s.held) := by
  refine ⟨clearing_start h hq, rfl, fun _ hx => hx, fun x T hx hnx => absurd hx hnx, hothers, fun l hl => ?_,
    (nodup_of_compat h.compat).filter _⟩
  rw [neighbors, List.mem_filter, decide_eq_true_eq] at hl
  exact ⟨hl.1, hl.2.2⟩

/-- The lock is set: its owner holds it on the range, and nothing else changes. -/
theorem grant_spec (hwhole : ∀ l ∈ ownOverlapping q s.held, l.type = q.type → Whole q l) :
    ∃ r, s.grant q (ownOverlapping q s.held) (neighbors q s.held) = some r ∧ r.ret = true ∧ Held.Inv B r.state ∧
      (∀ o x T, Held r.state.held o x T ↔
        (o = q.key ∧ q.range.Covers x ∧ T = q.type) ∨ (¬(o = q.key ∧ q.range.Covers x) ∧ Held s.held o x T)) := by
  have hheld : (s.removeWaiting q).held = s.held ∧ (s.removeWaiting q).heldCounts = s.heldCounts := by
    unfold removeWaiting
    split <;> exact ⟨rfl, rfl⟩
  have hinv := h.congr hheld.1 hheld.2
  have hm := merging_start hinv hq (by rwa [hheld.1])
  rw [hheld.1] at hm
  obtain ⟨s1, N1, hfold, hm1⟩ := hm.adjustAll ((h.tracks.sorted.filter _).filter _) (fun _ => Iff.rfl) hwhole
  obtain ⟨s2, N2, hfold2, hm2⟩ := hm1.coalesceAll
  obtain ⟨hinv2, hview⟩ := hm2.insert
  refine ⟨⟨s2.insertHeld N2, N2, true, false⟩, ?_, rfl, hinv2, hview⟩
  unfold grant adjustLocks
  rw [hfold, hfold2]
  rfl

end

private theorem removeLock_spec : Held.Inv B (s.removeLock q) ∧
    ∀ o x T, Held (s.removeLock q).held o x T ↔ Held s.held o x T ∧ ¬(o = q.key ∧ q.range.Covers x) := by
  have hc := (clearing_start h hq).carve_all
  have heq : s.removeLock q = (ownOverlapping q s.held).foldl
      (fun s old => (s.carve (decide (q.length = 0)) q old).pruneHeld old.client) s := by
    unfold removeLock
    rw [getOverlappingLocks_eq h hq]
    rfl
  rw [heq]
  exact ⟨hc.inv, fun o x T => hc.held_iff⟩

private theorem addLock_cases (hwhole : (∀ l ∈ s.held, l.key ≠ q.key → Compat q l) →
      ∀ l ∈ ownOverlapping q s.held, l.type = q.type → Whole q l) (waitOnFail replay isDeadlock : Bool) :
    ∃ r, s.addLock q waitOnFail replay isDeadlock = some r ∧
      ((r = s.block q waitOnFail replay isDeadlock ∧ r.ret = false) ∨
        ((∀ l ∈ s.held, l.key ≠ q.key → Compat q l) ∧
          s.grant q (ownOverlapping q s.held) (neighbors q s.held) = some r)) := by
  have hblock : (s.block q waitOnFail replay isDeadlock).ret = false := by
    unfold block
    split
    · split <;> rfl
    · rfl
  have hmem : ∀ l ∈ s.held, l.key ≠ q.key → l.range.Overlaps q.range →
      l ∈ (overlapping q s.held).filter fun l => !ownerEqual l q := by
    intro l hl hkey ho
    have hown : ownerEqual l q = false := by
      rw [Bool.eq_false_iff]
      exact fun heq => hkey (ownerEqual_iff.1 heq)
    simp [overlapping, hl, ho, hown]
  suffices hothers : s.addLock q waitOnFail replay isDeadlock = some (s.block q waitOnFail replay isDeadlock) ∨
      (s.addLock q waitOnFail replay isDeadlock = s.grant q (ownOverlapping q s.held) (neighbors q s.held) ∧
        ∀ l ∈ s.held, l.key ≠ q.key → Compat q l) by
    rcases hothers with heq | ⟨heq, hothers⟩
    · exact ⟨_, heq, .inl ⟨rfl, hblock⟩⟩
    · obtain ⟨r, hr, -⟩ := grant_spec h hq hothers (hwhole hothers)
      exact ⟨r, heq.trans hr, .inr ⟨hothers, hr⟩⟩
  unfold addLock
  simp only [getOverlappingLocks_eq h hq, splitByOwner]
  split
  · rename_i hempty
    refine .inr ⟨rfl, fun l hl hkey ho => ?_⟩
    have := hmem l hl hkey ho.symm
    rw [List.isEmpty_iff.1 hempty] at this
    simp at this
  split
  · exact .inl rfl
  split
  · exact .inl rfl
  rename_i hne hshared hexcl
  refine .inr ⟨rfl, fun l hl hkey ho => ⟨Ne.symm hkey, ?_, ?_⟩⟩
  · cases hq' : q.type with
    | shared => rfl
    | excl => exact absurd hq' hshared
  · cases hlt : l.type with
    | shared => rfl
    | excl => exact absurd (List.any_eq_true.2 ⟨l, hmem l hl hkey ho.symm, by simpa using hlt⟩) hexcl

end
end

/-! ### Waiting locks -/

private theorem eraseWaiting_eq_some {rest : List Filelock} (h : eraseWaiting q m = some rest) :
    ∃ p k k', p.client = q.client ∧ m = k ++ p :: k' ∧ rest = k ++ k' := by
  induction m generalizing rest with
  | nil => cases h
  | cons a m ih =>
    obtain ⟨-, h⟩ := ite_none_left_eq_some.1 h
    split at h
    · rename_i hfound
      cases h
      exact ⟨a, [], m, client_eq_of_key (ownerEqual_iff.1 hfound.2), rfl, rfl⟩
    · obtain ⟨rest', hr, rfl⟩ := map_eq_some_iff.1 h
      obtain ⟨p, k, k', hp, rfl, rfl⟩ := ih hr
      exact ⟨p, a :: k, k', hp, rfl, rfl⟩

/-- The waiting locks are sorted and counted. -/
structure Waiting.Inv (s : LockState) : Prop where
  sorted : s.waiting.Pairwise (·.start ≤ ·.start)
  counted : Counted s.waiting s.waitingCounts
  tight : Tight s.waitingCounts

private theorem Waiting.Inv.addWaiting (h : Waiting.Inv s) (l : Filelock) : Waiting.Inv (s.addWaiting l) := by
  refine ⟨sorted_insertLock h.sorted, (h.counted.cons l).perm (perm_insertLock _ _).symm, fun d => ?_⟩
  by_cases hd : d = l.client
  · subst hd
    show update _ _ _ _ ≠ _
    rw [update_self, h.counted l.client]
    simp only [ne_eq, some.injEq]
    omega
  · show update _ _ _ _ ≠ _
    rw [update_of_ne hd]
    exact h.tight d

private theorem Waiting.Inv.removeWaiting (h : Waiting.Inv s) (q : Filelock) : Waiting.Inv (s.removeWaiting q) := by
  unfold LockState.removeWaiting
  split
  · exact h
  rename_i rest hrest
  obtain ⟨p, k, k', hp, hdrop, rfl⟩ := eraseWaiting_eq_some hrest
  have hsplit := List.takeWhile_append_dropWhile (p := (·.start ≠ q.start)) (l := s.waiting)
  rw [hdrop, ← List.append_assoc] at hsplit
  have hall := hsplit ▸ List.perm_middle
  rw [List.append_assoc] at hall
  have hcounted := (h.counted.perm hall).erase (l := p) (by simp)
  rw [List.erase_cons_head, hp] at hcounted
  refine ⟨h.sorted.sublist ?_, fun d => ?_, Counts.tight_prune fun d hd => ?_⟩
  · have hsub := (List.sublist_cons_self p k').append_left (s.waiting.takeWhile (·.start ≠ q.start) ++ k)
    rwa [hsplit, List.append_assoc] at hsub
  · show Counts.get _ d = _
    rw [Counts.get_prune]
    exact hcounted d
  · rw [Counts.add_of_ne hd]
    exact h.tight d

/-! ### All locks of a client -/

private theorem counted_filter (h : Counted H k) (c : Nat) :
    Counted (H.filter (·.client ≠ c)) (update k c none) := by
  intro d
  rw [List.countP_filter]
  by_cases hd : d = c
  · subst hd
    have hnone : H.countP (fun l => decide (l.client = d) && decide (l.client ≠ d)) = 0 :=
      List.countP_eq_zero.2 fun l _ => by simp
    rw [hnone]
    unfold Counts.get
    rw [update_self]
    rfl
  · have hsame : (fun l : Filelock => decide (l.client = d) && decide (l.client ≠ c)) = fun l => decide (l.client = d) := by
      funext l
      by_cases hl : l.client = d
      · simp [hl, hd]
      · simp [hl]
    rw [hsame, ← h d]
    unfold Counts.get
    rw [update_of_ne hd]

private theorem tight_update (h : Tight k) (c : Nat) : Tight (update k c none) := by
  intro d
  by_cases hd : d = c
  · subst hd
    rw [update_self]
    nofun
  · rw [update_of_ne hd]
    exact h d

private theorem counts_eq (hc : Counted H k) (ht : Tight k) (c : Nat) :
    k c = if H.countP (·.client = c) = 0 then none else some (H.countP (·.client = c) : Int) := by
  have hget := hc c
  unfold Counts.get at hget
  cases hk : k c with
  | none =>
    rw [hk, getD_none] at hget
    rw [if_pos (by omega)]
  | some v =>
    rw [hk, getD_some] at hget
    have hne : v ≠ 0 := fun h0 => ht c (by rw [hk, h0])
    rw [if_neg (by omega), hget]

/-! ### Runs -/

structure Inv (B : Nat) (s : LockState) : Prop where
  held : Held.Inv B s
  waiting : Waiting.Inv s

private theorem inv_init : Inv B {} := ⟨⟨⟨.nil, fun _ => rfl⟩, nofun, .nil, nofun⟩, ⟨.nil, fun _ => rfl, nofun⟩⟩

private theorem Inv.block (h : Inv B s) (waitOnFail replay isDeadlock : Bool) :
    Inv B (s.block q waitOnFail replay isDeadlock).state := by
  unfold LockState.block
  split
  · split
    · exact h
    · exact ⟨h.held.congr rfl rfl, h.waiting.addWaiting q⟩
  · exact h

structure SameWaiting (s t : LockState) : Prop where
  waiting : t.waiting = s.waiting
  counts : t.waitingCounts = s.waitingCounts

namespace SameWaiting

private theorem trans {u : LockState} (h : SameWaiting s t) (h' : SameWaiting t u) : SameWaiting s u :=
  ⟨h'.waiting.trans h.waiting, h'.counts.trans h.counts⟩

private theorem insertHeld (s : LockState) (l : Filelock) : SameWaiting s (s.insertHeld l) := ⟨rfl, rfl⟩

private theorem trim (s : LockState) (old : Filelock) (n : Nat) : SameWaiting s (s.trim old n) := by
  unfold LockState.trim
  split <;> exact ⟨rfl, rfl⟩

private theorem carve (s : LockState) (toEnd : Bool) (lock old : Filelock) :
    SameWaiting s (s.carve toEnd lock old) := by
  unfold LockState.carve
  split
  · exact trim ..
  split
  · exact (insertHeld ..).trans (trim ..)
  · split
    · dsimp only
      exact (insertHeld ..).trans (trim ..)
    · exact trim ..

private theorem adjustOld (toEnd : Bool) (p : LockState × Filelock) (old : Filelock) :
    SameWaiting p.1 (LockState.adjustOld toEnd p old).1 := by
  unfold LockState.adjustOld
  dsimp only
  split
  · exact ⟨rfl, rfl⟩
  · exact trans (carve ..) ⟨rfl, rfl⟩

variable {p p' : LockState × Filelock}

private theorem coalesce {old : Filelock} (h : LockState.coalesce p old = some p') : SameWaiting p.1 p'.1 := by
  unfold LockState.coalesce at h
  split at h
  · obtain ⟨-, -, rfl⟩ := map_eq_some_iff.1 h
    exact ⟨rfl, rfl⟩
  · cases h
    exact ⟨rfl, rfl⟩

private theorem foldlM {old : List Filelock} (h : old.foldlM LockState.coalesce p = some p') :
    SameWaiting p.1 p'.1 := by
  induction old generalizing p with
  | nil =>
    cases h
    exact ⟨rfl, rfl⟩
  | cons a old ih =>
    obtain ⟨p1, h1, h2⟩ := bind_eq_some_iff.1 h
    exact (coalesce h1).trans (ih h2)

private theorem grant {own nbs : List Filelock} {r : Added} (hr : s.grant q own nbs = some r) :
    SameWaiting (s.removeWaiting q) r.state := by
  obtain ⟨p, hp, rfl⟩ := map_eq_some_iff.1 hr
  have hfirst := List.foldlRecOn own (LockState.adjustOld (decide (q.length = 0)))
    (motive := fun p => SameWaiting (s.removeWaiting q) p.1) (b := (s.removeWaiting q, q)) ⟨rfl, rfl⟩
    fun p hp old _ => hp.trans (adjustOld _ p old)
  exact (hfirst.trans (foldlM hp)).trans ⟨rfl, rfl⟩

private theorem removeLock (s : LockState) (q : Filelock) : SameWaiting s (s.removeLock q) := by
  exact List.foldlRecOn _ _ (motive := SameWaiting s) ⟨rfl, rfl⟩ fun t ht old _ => (ht.trans (carve t _ q old)).trans ⟨rfl, rfl⟩

end SameWaiting

private theorem Waiting.Inv.same (h : Waiting.Inv s) (hw : SameWaiting s t) : Waiting.Inv t :=
  ⟨hw.waiting ▸ h.sorted, by rw [hw.waiting, hw.counts]; exact h.counted, hw.counts ▸ h.tight⟩

def Small (_ : LockState) : LockOp → Prop
  | .add lock _ _ _ => lock.Fits
  | .remove lock => lock.Fits
  | .removeWaiting _ => True
  | .removeAll _ => True

instance (s : LockState) : (op : LockOp) → Decidable (Small s op)
  | .add lock _ _ _ => inferInstanceAs (Decidable lock.Fits)
  | .remove lock => inferInstanceAs (Decidable lock.Fits)
  | .removeWaiting _ | .removeAll _ => isTrue trivial

/-- A lock that no other owner keeps from being set is joined with whole locks only. -/
def Joined (B : Nat) (s : LockState) : LockOp → Prop
  | .add lock _ _ _ => lock.Within B ∧ ((∀ l ∈ s.held, l.key ≠ lock.key → Compat lock l) →
      ∀ l ∈ ownOverlapping lock s.held, l.type = lock.type → Whole lock l)
  | .remove lock => lock.Within B
  | .removeWaiting _ => True
  | .removeAll _ => True

instance : Decidable (Compat a l) := inferInstanceAs (Decidable (_ → _))

instance (s : LockState) : (op : LockOp) → Decidable (Joined B s op)
  | .add .. => inferInstanceAs (Decidable (_ ∧ _))
  | .remove lock => inferInstanceAs (Decidable (lock.Within B))
  | .removeWaiting _ | .removeAll _ => isTrue trivial

private theorem whole_of_fits (h : Held.Inv (2 ^ 31) s) (hq : q.Fits) :
    ∀ l ∈ ownOverlapping q s.held, l.type = q.type → Whole q l := by
  intro l hl _
  have hend := (h.fits l (List.mem_of_mem_filter (List.mem_of_mem_filter hl))).1
  unfold Fits at hq
  refine .inr (.inr (asInt_of_lt ?_))
  unfold joinedEnd
  omega

private theorem Inv.removeHeldOf (h : Inv B s) (c : Nat) : Inv B (s.removeHeldOf c) := by
  unfold LockState.removeHeldOf
  split
  · have hh := h.held
    exact ⟨⟨⟨hh.tracks.sorted.filter _, counted_filter hh.tracks.counted c⟩, tight_update hh.tight c, hh.compat.filter _,
      fun l hl => hh.fits l (List.mem_of_mem_filter hl)⟩, h.waiting.same ⟨rfl, rfl⟩⟩
  · exact h

private theorem Inv.removeWaitingOf (h : Inv B s) (c : Nat) : Inv B (s.removeWaitingOf c) := by
  unfold LockState.removeWaitingOf
  split
  · exact ⟨h.held.congr rfl rfl, h.waiting.sorted.filter _, counted_filter h.waiting.counted c,
      tight_update h.waiting.tight c⟩
  · exact h

private theorem Inv.step {op : LockOp} (h : Inv B s) (hop : Joined B s op) (ht : step s op = some t) : Inv B t := by
  cases op with
  | add lock waitOnFail replay isDeadlock =>
    obtain ⟨r, hr, hcases⟩ := addLock_cases h.held hop.1 hop.2 waitOnFail replay isDeadlock
    obtain rfl : r.state = t := by simpa [Flock.step, hr] using ht
    rcases hcases with ⟨rfl, -⟩ | ⟨hothers, hgrant⟩
    · exact h.block waitOnFail replay isDeadlock
    · obtain ⟨r', hr', -, hinv, -⟩ := grant_spec h.held hop.1 hothers (hop.2 hothers)
      rw [hgrant, some.injEq] at hr'
      subst hr'
      exact ⟨hinv, (h.waiting.removeWaiting lock).same (.grant hgrant)⟩
  | remove lock =>
    cases ht
    exact ⟨(removeLock_spec h.held hop).1, h.waiting.same (.removeLock s lock)⟩
  | removeWaiting lock =>
    cases ht
    refine ⟨?_, h.waiting.removeWaiting lock⟩
    unfold LockState.removeWaiting
    split
    · exact h.held
    · exact h.held.congr rfl rfl
  | removeAll client =>
    cases ht
    exact (h.removeHeldOf client).removeWaitingOf client

theorem inv_of_joined {ops : List LockOp} (hok : AllSteps step (Joined B) {} ops) (hrun : exec step {} ops = some s) :
    Inv B s :=
  exec_invariant (fun _ _ _ h hop ht => h.step hop ht) inv_init hok hrun

private theorem Inv.joined_of_small {op : LockOp} (h : Inv (2 ^ 31) s) (hop : Small s op) : Joined (2 ^ 31) s op := by
  cases op with
  | add lock _ _ _ => exact ⟨Fits.within hop, fun _ => whole_of_fits h.held hop⟩
  | remove lock => exact Fits.within hop
  | removeWaiting lock => trivial
  | removeAll client => trivial

private theorem inv_of_run {ops : List LockOp} (hok : AllSteps step Small {} ops) (hrun : exec step {} ops = some s) :
    Inv (2 ^ 31) s :=
  exec_invariant (fun _ _ _ h hop ht => h.step (h.joined_of_small hop) ht) inv_init hok hrun

/-! ### What owners hold -/

def holder (H : List Filelock) (o : Nat × Nat × Nat) (x : Nat) : Option LockType :=
  (H.find? fun l => decide (l.key = o ∧ l.range.Covers x)).map (·.type)

private theorem holder_eq_some (hc : H.Pairwise Compat) : holder H o x = some T ↔ Held H o x T := by
  unfold holder
  rw [map_eq_some_iff]
  constructor
  · rintro ⟨l, hl, rfl⟩
    have hp := List.find?_some hl
    rw [decide_eq_true_eq] at hp
    exact ⟨l, List.mem_of_find?_eq_some hl, hp.1, hp.2, rfl⟩
  rintro ⟨l, hl, hkey, hx, rfl⟩
  cases hf : H.find? fun l => decide (l.key = o ∧ l.range.Covers x) with
  | none =>
    have := List.find?_eq_none.1 hf l hl
    simp [hkey, hx] at this
  | some a =>
    have ha := List.find?_some hf
    rw [decide_eq_true_eq] at ha
    exact ⟨a, rfl, by rw [eq_of_covers hc (List.mem_of_find?_eq_some hf) hl (ha.1.trans hkey.symm) ha.2 hx]⟩

private theorem holder_congr (hc : H.Pairwise Compat) {v : Option LockType} (h : ∀ T, Held H o x T ↔ v = some T) :
    holder H o x = v := by
  refine ext fun T => ?_
  rw [holder_eq_some hc, h T]

/-- While the end points are at most `2 ^ 31`: setting a lock gives its owner the type on the range, removing takes the
range from the owner, nothing else changes, and the ranges of one owner are disjoint. -/
theorem holder_exact {ops : List LockOp} (hok : AllSteps step Small {} ops) (hrun : exec step {} ops = some s) :
    (s.held.Pairwise fun a b => a.key = b.key → ¬a.range.Overlaps b.range) ∧
    (∀ lock waitOnFail replay isDeadlock, lock.Fits → ∃ r, s.addLock lock waitOnFail replay isDeadlock = some r ∧
      (r.ret = true → ∀ o x, holder r.state.held o x =
        if o = lock.key ∧ lock.range.Covers x then some lock.type else holder s.held o x)) ∧
    (∀ lock, lock.Fits → ∀ o x, holder (s.removeLock lock).held o x =
      if o = lock.key ∧ lock.range.Covers x then none else holder s.held o x) := by
  have h := inv_of_run hok hrun
  refine ⟨h.held.compat.imp fun hab hkey ho => (hab ho).1 hkey, fun lock waitOnFail replay isDeadlock hfits => ?_,
    fun lock hfits o x => ?_⟩
  · obtain ⟨r, hr, hcases⟩ := addLock_cases h.held hfits.within (fun _ => whole_of_fits h.held hfits) waitOnFail replay isDeadlock
    refine ⟨r, hr, fun hret o x => ?_⟩
    rcases hcases with ⟨-, hfalse⟩ | ⟨hothers, hgrant⟩
    · simp [hret] at hfalse
    obtain ⟨r', hr', -, hinv, hview⟩ := grant_spec h.held hfits.within hothers (whole_of_fits h.held hfits)
    rw [hgrant, some.injEq] at hr'
    subst hr'
    refine holder_congr hinv.compat fun T => ?_
    rw [hview]
    split
    · rename_i hx
      simp [hx, eq_comm]
    · rename_i hx
      rw [holder_eq_some h.held.compat]
      exact ⟨fun hT => hT.elim (fun hT => absurd ⟨hT.1, hT.2.1⟩ hx) And.right, fun hT => .inr ⟨hx, hT⟩⟩
  · obtain ⟨hinv, hview⟩ := removeLock_spec h.held hfits.within
    refine holder_congr hinv.compat fun T => ?_
    rw [hview]
    split
    · rename_i hx
      simp [hx]
    · rename_i hx
      rw [holder_eq_some h.held.compat]
      exact ⟨And.left, fun hT => ⟨hT, hx⟩⟩

def sampleLock (start length : Nat) (type : LockType) : Filelock := ⟨start, length, 4100, 2 ^ 63, 1, type⟩

theorem holder_exact_split : ∃ s r, exec step {} [.add (sampleLock 0 0 .shared) true false false] = some s ∧
    s.addLock (sampleLock 10 5 .excl) true false false = some r ∧ r.ret = true ∧
    holder r.state.held (sampleLock 0 0 .shared).key 12 = some .excl ∧
    holder r.state.held (sampleLock 0 0 .shared).key 100 = some .shared := by
  have hrun : exec step {} [.add (sampleLock 0 0 .shared) true false false] = some _ := rfl
  obtain ⟨r, hr, hview⟩ := (holder_exact (by decide) hrun).2.1 (sampleLock 10 5 .excl) true false false (by decide)
  have hret : r.ret = true := by
    cases hr
    rfl
  refine ⟨_, r, rfl, hr, hret, ?_, ?_⟩
  · rw [hview hret]
    rfl
  · rw [hview hret]
    rfl

/-- Beyond `2 ^ 31` a joined lock loses bytes: the end `2 ^ 32 + 9` of the lock held becomes the `int` `9`. -/
theorem holder_after_truncation :
    ∃ s r, exec step {} [.add (sampleLock 0 (2 ^ 32 + 10) .shared) true false false] = some s ∧
      s.addLock (sampleLock 0 5 .shared) true false false = some r ∧ r.ret = true ∧
      holder s.held (sampleLock 0 5 .shared).key 100 = some .shared ∧
      ¬(sampleLock 0 5 .shared).range.Covers 100 ∧
      holder r.state.held (sampleLock 0 5 .shared).key 100 = none :=
  ⟨_, _, rfl, rfl, rfl, rfl, by decide, rfl⟩

/-- The safety of the lock table: locks of different owners that overlap are shared, the scan finds exactly the locks
that overlap, and the counts are those of the locks held and waiting. -/
theorem table_safe {ops : List LockOp} (hok : AllSteps step Small {} ops) (hrun : exec step {} ops = some s) :
    (s.held.Pairwise fun a b => a.key ≠ b.key → a.range.Overlaps b.range → a.type = .shared ∧ b.type = .shared) ∧
    (∀ q, q.Fits → (getOverlappingLocks s.held q).1 = s.held.filter fun l => decide (l.range.Overlaps q.range)) ∧
    (∀ c, s.heldCounts c =
      if s.held.countP (·.client = c) = 0 then none else some (s.held.countP (·.client = c) : Int)) ∧
    (∀ c, s.waitingCounts c =
      if s.waiting.countP (·.client = c) = 0 then none else some (s.waiting.countP (·.client = c) : Int)) := by
  have h := inv_of_run hok hrun
  refine ⟨h.held.compat.imp fun hab _ ho => (hab ho).2, fun q hq => ?_, counts_eq h.held.tracks.counted h.held.tight,
    counts_eq h.waiting.counted h.waiting.tight⟩
  rw [getOverlappingLocks_eq h.held hq.within, overlapping]

theorem table_safe_waiting : ∃ s, exec step {} [.add (sampleLock 0 10 .shared) true false false,
      .add ⟨5, 0, 4200, 7, 2, .shared⟩ true false false, .add ⟨8, 1, 4300, 7, 2, .excl⟩ true false false] = some s ∧
    s.waitingCounts 4300 = some 1 ∧ s.heldCounts 4100 = some 1 ∧
    (getOverlappingLocks s.held (sampleLock 8 1 .shared)).1 = s.held := by
  have hrun : exec step {} [.add (sampleLock 0 10 .shared) true false false,
      .add ⟨5, 0, 4200, 7, 2, .shared⟩ true false false, .add ⟨8, 1, 4300, 7, 2, .excl⟩ true false false] = some _ := rfl
  obtain ⟨-, hscan, hheld, hwaiting⟩ := table_safe (by decide) hrun
  refine ⟨_, rfl, ?_, ?_, ?_⟩
  · rw [hwaiting]
    rfl
  · rw [hheld]
    rfl
  · rw [hscan _ (by decide)]
    rfl

end Lunule.Flock
