import Lunule.Flock.Basic
import Lunule.Lib.Exec

/-!
# Joining and cutting locks

While no sum of end points wraps, the end-point arithmetic of the source is that of ranges, but for the end of two locks
that are joined, which is kept in an `int`: `share_space` is overlap, a lock of the same owner and type is joined to the
new one, and one of another type loses the range of the new one and keeps the parts before and after it. The locks held
stay sorted, and any two that overlap are shared locks of different owners.
-/

namespace Lunule.Flock
variable {s t : LockState} {l a b lock old : Filelock} {m H : List Filelock} {c n B : Nat}

/-! ### Owners and ranges -/

namespace Filelock
variable (l)

def range : Range := ⟨l.start, l.length⟩

def key : Nat × Nat × Nat := (l.client, l.owner, if l.owner.testBit 63 then 0 else l.pid)

def on (r : Range) : Filelock := { l with start := r.start, length := r.length }

@[simp] theorem range_on (r : Range) : (l.on r).range = r := rfl
@[simp] theorem key_on (r : Range) : (l.on r).key = l.key := rfl

/-- The end points are at most `2 ^ 31`. -/
def Fits : Prop := l.start + l.length ≤ 2 ^ 31

/-- The end points are at most `B`, and no sum with them wraps. -/
def Within (B : Nat) : Prop := l.start + l.length ≤ B ∧ l.start + l.length + 2 < 2 ^ 64

variable {l}

instance : Decidable l.Fits := inferInstanceAs (Decidable (_ ≤ _))

instance {B : Nat} : Decidable (l.Within B) := inferInstanceAs (Decidable (_ ∧ _))

theorem Fits.within (h : l.Fits) : l.Within (2 ^ 31) := by
  unfold Fits at h
  unfold Within
  omega

theorem client_eq_of_key (h : a.key = b.key) : a.client = b.client := (Prod.mk.inj h).1

end Filelock

open Filelock Range

theorem ownerEqual_iff : ownerEqual a b = true ↔ a.key = b.key := by
  unfold ownerEqual key
  by_cases hc : a.client = b.client
  · by_cases ho : a.owner = b.owner
    · by_cases ht : b.owner.testBit 63
      · simp [ho, ht]
      · simp [ho, ht]
    · simp [ho]
  · simp [hc]

def Compat (a b : Filelock) : Prop := a.range.Overlaps b.range → a.key ≠ b.key ∧ a.type = .shared ∧ b.type = .shared

theorem Compat.symm (h : Compat a b) : Compat b a := fun ho =>
  have h' := h ho.symm
  ⟨h'.1.symm, h'.2.2, h'.2.1⟩

private theorem Compat.mono (h : Compat a b) (hkey : l.key = a.key) (htype : l.type = a.type)
    (hsub : ∀ x, l.range.Covers x → a.range.Covers x) : Compat l b := by
  intro ho
  obtain ⟨x, hx, hxb⟩ := overlaps_iff.1 ho
  have h' := h (overlaps_iff.2 ⟨x, hsub x hx, hxb⟩)
  exact ⟨hkey ▸ h'.1, htype ▸ h'.2.1, h'.2.2⟩

/-! ### End points -/

theorem lastByte_eq (h : l.Within B) (hlen : l.length ≠ 0) : lastByte l = l.start + l.length - 1 := by
  unfold Within at h
  unfold lastByte sub64 add64
  omega

theorem shareSpace_iff (hl : l.start + l.length < 2 ^ 64) (hq : lock.start + lock.length < 2 ^ 64) :
    shareSpace l lock = true ↔ l.range.Overlaps lock.range := by
  unfold shareSpace shareSpaceIn lastByte sub64 add64 Range.Overlaps range
  simp only [Bool.or_eq_true, Bool.and_eq_true, decide_eq_true_eq]
  by_cases hlen : lock.length = 0
  · rw [if_neg (by omega)]
    omega
  · rw [if_pos hlen]
    omega

theorem add64_of_lt {x y : Nat} (h : x + y < 2 ^ 64) : add64 x y = x + y := Nat.mod_eq_of_lt h

theorem sub64_of_le {x y : Nat} (h : y ≤ x) (hx : x < 2 ^ 64) : sub64 x y = x - y := by
  unfold sub64
  omega

private theorem range_neighborCheckLock (h : lock.Within B) : (neighborCheckLock lock).range = ⟨lock.start - 1,
    if lock.length = 0 then 0 else if lock.start = 0 then lock.length + 1 else lock.length + 2⟩ := by
  unfold Within at h
  unfold neighborCheckLock range
  rw [add64_of_lt (by omega), add64_of_lt (by omega)]
  by_cases h0 : lock.start = 0
  · by_cases hlen : lock.length = 0 <;> simp [h0]
  · by_cases hlen : lock.length = 0 <;> simp [h0]

theorem shareSpace_neighborCheck (hl : l.Within B) (hq : lock.Within B) (ho : ¬l.range.Overlaps lock.range) :
    shareSpace l (neighborCheckLock lock) = true ↔ l.range.Touches lock.range := by
  have hrange := range_neighborCheckLock hq
  have hstart := congrArg Range.start hrange
  have hlength := congrArg Range.length hrange
  unfold Within at hl hq
  rw [shareSpace_iff (by omega) (by simp only [range] at hstart hlength; split_ifs at hlength <;> omega), hrange]
  unfold Range.Overlaps range at *
  unfold Range.Touches
  simp only at ho ⊢
  by_cases hlen : lock.length = 0
  · simp only [if_pos hlen, true_or, true_and]
    omega
  by_cases h0 : lock.start = 0
  · simp only [if_neg hlen, if_pos h0]
    omega
  · simp only [if_neg hlen, if_neg h0]
    omega

/-! ### The locks held -/

theorem compat_of_mem (h : H.Pairwise Compat) (ha : a ∈ H) (hb : b ∈ H) (hne : a ≠ b) : Compat a b := by
  have : Std.Symm Compat := ⟨fun _ _ => Compat.symm⟩
  exact h.forall ha hb hne

theorem nodup_of_compat (h : H.Pairwise Compat) : H.Nodup := by
  refine h.imp fun hab heq => ?_
  subst heq
  exact (hab (overlaps_self _)).1 rfl

variable {x : Nat} {o : Nat × Nat × Nat}

theorem eq_of_covers (h : H.Pairwise Compat) (ha : a ∈ H) (hb : b ∈ H) (hkey : a.key = b.key)
    (hax : a.range.Covers x) (hbx : b.range.Covers x) : a = b := by
  by_contra hne
  exact (compat_of_mem h ha hb hne (overlaps_iff.2 ⟨x, hax, hbx⟩)).1 hkey

theorem perm_compat (hp : H.Perm m) : H.Pairwise Compat ↔ m.Pairwise Compat := hp.pairwise_iff fun h => h.symm

theorem perm_insertLock (m : List Filelock) (l : Filelock) : (insertLock m l).Perm (l :: m) := by
  have h : (insertLock m l).Perm (l :: (m.takeWhile (·.start ≤ l.start) ++ m.dropWhile (·.start ≤ l.start))) :=
    List.perm_middle
  rwa [List.takeWhile_append_dropWhile] at h

theorem sorted_insertLock (h : m.Pairwise (·.start ≤ ·.start)) : (insertLock m l).Pairwise (·.start ≤ ·.start) := by
  unfold insertLock
  induction m with
  | nil => simp
  | cons a m ih =>
    obtain ⟨ha, hm⟩ := List.pairwise_cons.1 h
    by_cases hle : a.start ≤ l.start
    · rw [List.takeWhile_cons_of_pos (by simpa using hle), List.dropWhile_cons_of_pos (by simpa using hle),
        List.cons_append, List.pairwise_cons]
      refine ⟨fun b hb => ?_, ih hm⟩
      rcases List.mem_cons.1 ((perm_insertLock m l).mem_iff.1 hb) with rfl | hb
      · exact hle
      · exact ha b hb
    · rw [List.takeWhile_cons_of_neg (by simpa using hle), List.dropWhile_cons_of_neg (by simpa using hle),
        List.nil_append, List.pairwise_cons]
      refine ⟨fun b hb => ?_, h⟩
      rcases List.mem_cons.1 hb with rfl | hb
      · omega
      · have := ha b hb
        omega

private theorem perm_map_replace (hn : H.Nodup) (ha : a ∈ H) (f : Filelock → Filelock) :
    (H.map fun x => if x = a then f x else x).Perm (f a :: H.erase a) := by
  have hp := (List.perm_cons_erase ha).map fun x => if x = a then f x else x
  have hsame : (H.erase a).map (fun x => if x = a then f x else x) = H.erase a := by
    have : ∀ x ∈ H.erase a, (if x = a then f x else x) = x := by
      intro x hx
      rw [if_neg ((List.Nodup.mem_erase_iff hn).1 hx).1]
    rw [List.map_congr_left this, List.map_id']
  rwa [List.map_cons, if_pos rfl, hsame] at hp

/-! ### Counts -/

def Counted (H : List Filelock) (m : Counts) : Prop := ∀ c, m.get c = H.countP (·.client = c)

def Tight (m : Counts) : Prop := ∀ c, m c ≠ some 0

namespace Counts
variable {m : Counts} {k : Int}

private theorem get_add (m : Counts) (c : Nat) (k : Int) (d : Nat) :
    (m.add c k).get d = m.get d + if c = d then k else 0 := by
  unfold add get
  by_cases h : d = c
  · subst h
    simp
  · simp [Function.update_of_ne h, Ne.symm h]

theorem get_prune (m : Counts) (c d : Nat) : (m.prune c).get d = m.get d := by
  unfold prune
  by_cases h : d = c
  · subst h
    unfold get
    rw [Function.update_self]
    split
    · rename_i h0
      exact h0.symm
    · rfl
  · unfold get
    rw [Function.update_of_ne h]

theorem tight_prune (h : ∀ d, d ≠ c → m d ≠ some 0) : Tight (m.prune c) := by
  intro d
  unfold prune
  by_cases hd : d = c
  · subst hd
    rw [Function.update_self]
    split
    · nofun
    · rename_i h0
      exact fun heq => h0 (Option.some.inj heq)
  · rw [Function.update_of_ne hd]
    exact h d hd

theorem add_of_ne {d : Nat} (h : d ≠ c) (k : Int) : m.add c k d = m d := Function.update_of_ne h _ _

end Counts

theorem Counted.perm {m : Counts} (h : Counted H m) {H' : List Filelock} (hp : H.Perm H') : Counted H' m := by
  intro c
  rw [h c, hp.countP_eq]

theorem Counted.cons {m : Counts} (h : Counted H m) (l : Filelock) : Counted (l :: H) (m.add l.client 1) := by
  intro c
  rw [Counts.get_add, h c, List.countP_cons]
  by_cases hc : l.client = c <;> simp [hc]

theorem Counted.erase {m : Counts} (h : Counted H m) (hl : l ∈ H) : Counted (H.erase l) (m.add l.client (-1)) := by
  intro c
  have hp := (List.perm_cons_erase hl).countP_eq fun x : Filelock => decide (x.client = c)
  rw [List.countP_cons] at hp
  rw [Counts.get_add, h c, hp]
  by_cases hc : l.client = c
  · simp only [hc, decide_true, if_true]
    omega
  · simp [hc]

/-! ### Cutting a lock -/

def pieces (old lock : Filelock) : List Filelock := (cut old.range lock.range).map old.on

theorem mem_pieces (hov : old.range.Overlaps lock.range) (hl : l ∈ pieces old lock) : l.key = old.key ∧
    l.type = old.type ∧ (∀ x, l.range.Covers x → old.range.Covers x) ∧ ¬l.range.Overlaps lock.range := by
  obtain ⟨r, hr, rfl⟩ := List.mem_map.1 hl
  refine ⟨rfl, rfl, fun x hx => ((covers_cut hov).1 ⟨r, hr, hx⟩).1, not_overlaps_of_mem_cut hov hr⟩

private theorem covers_pieces (hov : old.range.Overlaps lock.range) :
    (∃ l ∈ pieces old lock, l.range.Covers x) ↔ old.range.Covers x ∧ ¬lock.range.Covers x := by
  rw [← covers_cut hov]
  simp [pieces]

private theorem fits_pieces (hold : old.Within B) (hlock : lock.Within B) (hl : l ∈ pieces old lock) : l.Within B := by
  unfold Within at *
  obtain ⟨r, hr, rfl⟩ := List.mem_map.1 hl
  rcases mem_cut.1 hr with ⟨hlt, rfl⟩ | ⟨hlt, rfl⟩
  · simp only [on, range] at hlt ⊢
    omega
  by_cases h0 : old.length = 0
  · simp only [on, range, h0, if_true] at hlt ⊢
    omega
  · simp only [on, range, h0, if_false] at hlt ⊢
    omega

private theorem pieces_compat (old lock : Filelock) : (pieces old lock).Pairwise Compat := by
  unfold pieces
  rw [List.pairwise_map]
  exact (cut_pairwise _ _).imp fun h ho => absurd ho h

theorem not_mem_of_pieces (h : H.Pairwise Compat) (hold : old ∈ H) (hov : old.range.Overlaps lock.range)
    (hl : l ∈ pieces old lock) : l ∉ H := by
  intro hmem
  obtain ⟨hkey, -, hsub, hout⟩ := mem_pieces hov hl
  have hne : l ≠ old := by
    rintro rfl
    exact hout hov
  have hcov := covers_start l.range
  exact hne (eq_of_covers h hmem hold hkey hcov (hsub _ hcov))

def before (old lock : Filelock) : List Filelock :=
  if old.start < lock.start then [old.on ⟨old.start, lock.start - old.start⟩] else []

def behind (old lock : Filelock) : List Filelock :=
  if lock.length ≠ 0 ∧ (old.length = 0 ∨ lock.start + lock.length < old.start + old.length) then
    [old.on ⟨lock.start + lock.length, if old.length = 0 then 0 else old.start + old.length - (lock.start + lock.length)⟩]
  else []

private theorem pieces_eq (old lock : Filelock) : pieces old lock = before old lock ++ behind old lock := by
  unfold pieces cut before behind range
  rw [List.map_append]
  congr 1
  · split <;> rfl
  · split <;> rfl

namespace LockState

private theorem carve_eq (hold : old.Within B) (hlock : lock.Within B) :
    s.carve (decide (lock.length = 0)) lock old = ((behind old lock).foldl insertHeld s).trim old lock.start := by
  unfold Within at hold hlock
  unfold carve behind
  by_cases h0 : lock.length = 0
  · simp [h0]
  have hstart : add64 (lastByte lock) 1 = lock.start + lock.length := by
    rw [lastByte_eq hlock h0, add64_of_lt (by omega)]
    omega
  by_cases h1 : old.length = 0
  · simp [h0, h1, hstart, on]
  rw [hstart, lastByte_eq hlock h0, lastByte_eq hold h1]
  by_cases h2 : lock.start + lock.length < old.start + old.length
  · have hlen : add64 (sub64 (old.start + old.length - 1) (lock.start + lock.length)) 1 =
        old.start + old.length - (lock.start + lock.length) := by
      rw [sub64_of_le (by omega) (by omega), add64_of_lt (by omega)]
      omega
    simp [h0, h1, h2, show lock.start + lock.length - 1 < old.start + old.length - 1 by omega, hlen, on]
  · simp [h1, h2, show ¬lock.start + lock.length - 1 < old.start + old.length - 1 by omega]

def Frame (s t : LockState) (c : Nat) : Prop := ∀ d, d ≠ c → t.heldCounts d = s.heldCounts d

private theorem Frame.trans {u : LockState} (h : Frame s t c) (h' : Frame t u c) : Frame s u c :=
  fun d hd => (h' d hd).trans (h d hd)

theorem frame_insertHeld (s : LockState) (l : Filelock) : Frame s (s.insertHeld l) l.client :=
  fun _ hd => Counts.add_of_ne hd 1

theorem frame_eraseHeld (s : LockState) (l : Filelock) : Frame s (s.eraseHeld l) l.client :=
  fun _ hd => Counts.add_of_ne hd (-1)

structure Tracks (s : LockState) : Prop where
  sorted : s.held.Pairwise (·.start ≤ ·.start)
  counted : Counted s.held s.heldCounts

section
variable (h : Tracks s)
include h

theorem Tracks.insertHeld (l : Filelock) : Tracks (s.insertHeld l) :=
  ⟨sorted_insertLock h.sorted, (h.counted.cons l).perm (perm_insertLock _ _).symm⟩

theorem Tracks.eraseHeld (hl : l ∈ s.held) : Tracks (s.eraseHeld l) :=
  ⟨h.sorted.sublist (List.erase_sublist ..), h.counted.erase hl⟩

private theorem Tracks.setLength (l : Filelock) (n : Nat) : Tracks (s.setLength l n) := by
  have hstart : ∀ x, (if x = l then { x with length := n } else x).start = x.start := by
    intro x
    split <;> rfl
  have hclient : ∀ x, (if x = l then { x with length := n } else x).client = x.client := by
    intro x
    split <;> rfl
  refine ⟨?_, fun c => ?_⟩
  · show (s.held.map _).Pairwise _
    rw [List.pairwise_map]
    simpa only [hstart] using h.sorted
  · show s.heldCounts.get c = ((s.held.map _).countP _ : Nat)
    rw [List.countP_map, h.counted c]
    simp only [Function.comp_def, hclient]

theorem Tracks.pruneHeld (c : Nat) : Tracks (s.pruneHeld c) :=
  ⟨h.sorted, fun d => (Counts.get_prune _ _ _).trans (h.counted d)⟩

private theorem Tracks.trim (hn : s.held.Nodup) (hold : old ∈ s.held) (hlock : lock.Within B) :
    Tracks (s.trim old lock.start) ∧ Frame s (s.trim old lock.start) old.client ∧
      (s.trim old lock.start).held.Perm (before old lock ++ s.held.erase old) := by
  unfold Within at hlock
  unfold LockState.trim before
  by_cases hlt : old.start < lock.start
  · simp only [if_pos hlt]
    refine ⟨h.setLength _ _, fun _ _ => rfl, ?_⟩
    rw [sub64_of_le (by omega) (by omega)]
    exact perm_map_replace hn hold fun x => { x with length := lock.start - old.start }
  · simp only [if_neg hlt]
    exact ⟨h.eraseHeld hold, frame_eraseHeld s old, .refl _⟩

theorem Tracks.carve (hc : s.held.Pairwise Compat) (hold : old ∈ s.held) (hfits : old.Within B)
    (hlock : lock.Within B) (hov : old.range.Overlaps lock.range) :
    Tracks (s.carve (decide (lock.length = 0)) lock old) ∧
      Frame s (s.carve (decide (lock.length = 0)) lock old) old.client ∧
      (s.carve (decide (lock.length = 0)) lock old).held.Perm (pieces old lock ++ s.held.erase old) := by
  rw [carve_eq hfits hlock, pieces_eq]
  have hnot : ∀ l ∈ behind old lock, l ∉ s.held := by
    intro l hl
    refine not_mem_of_pieces hc hold hov ?_
    rw [pieces_eq]
    exact List.mem_append_right _ hl
  have hclient : ∀ l ∈ behind old lock, l.client = old.client := by
    intro l hl
    unfold behind at hl
    split at hl
    · rw [List.mem_singleton.1 hl]
      rfl
    · simp at hl
  have hn := nodup_of_compat hc
  -- at most one part lies behind
  obtain hb | ⟨l, hb⟩ : behind old lock = [] ∨ ∃ l, behind old lock = [l] := by
    unfold behind
    split
    · exact .inr ⟨_, rfl⟩
    · exact .inl rfl
  · rw [hb, List.foldl_nil, List.append_nil]
    exact h.trim hn hold hlock
  rw [hb] at hnot hclient ⊢
  have hl := hnot l (by simp)
  have hlc := hclient l (by simp)
  have hperm : (s.insertHeld l).held.Perm (l :: s.held) := perm_insertLock _ _
  have hne : l ≠ old := by
    rintro rfl
    exact hl hold
  have hmem : old ∈ (s.insertHeld l).held := hperm.mem_iff.2 (by simp [hold])
  obtain ⟨ht, hf, hp⟩ := (h.insertHeld l).trim (hperm.nodup_iff.2 (List.nodup_cons.2 ⟨hl, hn⟩)) hmem hlock
  refine ⟨ht, (hlc ▸ frame_insertHeld s l).trans hf, hp.trans ?_⟩
  rw [List.append_assoc]
  refine List.Perm.append_left _ ?_
  have := hperm.erase old
  rwa [List.erase_cons_tail (by simpa using hne)] at this

end
end LockState

/-! ### What owners hold -/

def Held (H : List Filelock) (o : Nat × Nat × Nat) (x : Nat) (T : LockType) : Prop :=
  ∃ l ∈ H, l.key = o ∧ l.range.Covers x ∧ l.type = T

theorem Held.perm {T : LockType} (hp : H.Perm m) : Held H o x T ↔ Held m o x T := by
  simp [Held, hp.mem_iff]

theorem held_cut (hold : old ∈ H) (hov : old.range.Overlaps lock.range)
    (hkey : old.key = lock.key) {T : LockType} (hx : ¬(o = lock.key ∧ lock.range.Covers x)) :
    Held (pieces old lock ++ H.erase old) o x T ↔ Held H o x T := by
  constructor
  · rintro ⟨l, hl, hlo, hlx, hlT⟩
    rcases List.mem_append.1 hl with hl | hl
    · obtain ⟨hk, ht, hsub, -⟩ := mem_pieces hov hl
      exact ⟨old, hold, hk ▸ hlo, hsub x hlx, ht ▸ hlT⟩
    · exact ⟨l, List.mem_of_mem_erase hl, hlo, hlx, hlT⟩
  · rintro ⟨l, hl, hlo, hlx, hlT⟩
    by_cases hlold : l = old
    · subst hlold
      obtain ⟨p, hp, hpx⟩ := (covers_pieces hov).2 ⟨hlx, fun hcov => hx ⟨hlo ▸ hkey, hcov⟩⟩
      obtain ⟨hk, ht, -⟩ := mem_pieces hov hp
      exact ⟨p, List.mem_append_left _ hp, hk.trans hlo, hpx, ht.trans hlT⟩
    · exact ⟨l, List.mem_append_right _ ((List.mem_erase_of_ne hlold).2 hl), hlo, hlx, hlT⟩

theorem sound_cut (hc : H.Pairwise Compat) (hfits : ∀ l ∈ H, l.Within B) (hold : old ∈ H) (hlock : lock.Within B)
    (hov : old.range.Overlaps lock.range) : (pieces old lock ++ H.erase old).Pairwise Compat ∧
    ∀ l ∈ pieces old lock ++ H.erase old, l.Within B := by
  have hn := nodup_of_compat hc
  refine ⟨List.pairwise_append.2 ⟨pieces_compat old lock, hc.sublist (List.erase_sublist ..), fun a ha b hb => ?_⟩, fun l hl => ?_⟩
  · obtain ⟨hk, ht, hsub, -⟩ := mem_pieces hov ha
    obtain ⟨hne, hb⟩ := (List.Nodup.mem_erase_iff hn).1 hb
    exact (compat_of_mem hc hold hb (Ne.symm hne)).mono hk ht hsub
  · rcases List.mem_append.1 hl with hl | hl
    · exact fits_pieces (hfits old hold) hlock hl
    · exact hfits l (List.mem_of_mem_erase hl)

end Lunule.Flock
