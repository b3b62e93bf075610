import Lunule.Cache.Basic

/-!
# The window of a counter

`ReqCounter` keeps the hits of the five epochs before the current one as a queue of bits, and how many of them are set.
The queue and the count always belong to one history of hits (`Tracks`), also when `switch_epoch` goes over several
epochs at once or starts again after a long gap; so the counter does what a set of epochs does (`refines`).
-/

namespace Lunule.Cache
open List

namespace ReqCounter
variable {r : ReqCounter} {g : Int → Bool} {t : Int}

/-- The window holds the hits `g` of the epochs right before `t`. -/
structure Tracks (r : ReqCounter) (g : Int → Bool) (t : Int) : Prop where
  data : r.data = (List.range queueLen).map fun n : Nat => g (t - queueLen + n)
  times : r.cacheHitTimes = (r.data.count true : Nat)

private theorem range_queueLen : List.range queueLen = [0, 1, 2, 3, 4] := by decide

private theorem Tracks.shift (h : r.Tracks g t) : (r.shift (g t)).Tracks g (t + 1) := by
  constructor
  · simp only [ReqCounter.shift, h.data, range_queueLen, map_cons, map_nil, drop_succ_cons,
      drop_zero, cons_append, nil_append, List.cons.injEq, and_true]
    refine ⟨?_, ?_, ?_, ?_, ?_⟩ <;> (congr 1; simp only [queueLen]; omega)
  have hlen : r.data.length = queueLen := by simp [h.data]
  have htimes := h.times
  cases hd : r.data with
  | nil => simp [hd, queueLen] at hlen
  | cons b bs =>
    simp only [ReqCounter.shift, hd, htimes]
    cases b <;> cases g t <;> simp

theorem Tracks.empty (hg : ∀ n : Nat, n < queueLen → g (t - queueLen + n) = false) : ({} : ReqCounter).Tracks g t := by
  constructor
  · rw [map_congr_left fun n hn => hg n (List.mem_range.1 hn)]
    rfl
  · rfl

private theorem Tracks.iterate_shift (n : Nat) (h : r.Tracks g t) (hg : ∀ u, t ≤ u → u < t + n → g u = false) :
    ((fun r => ReqCounter.shift r false)^[n] r).Tracks g (t + n) := by
  induction n generalizing r t with
  | zero => simpa using h
  | succ n ih =>
    have h1 := h.shift
    rw [hg t (le_refl _) (by push_cast; omega)] at h1
    have := ih h1 fun u hu hu' => hg u (by omega) (by push_cast; omega)
    have ht : t + ((n + 1 : Nat) : Int) = t + 1 + n := by push_cast; omega
    rw [ht]
    exact this

private theorem lastHit_iterate_shift (n : Nat) (r : ReqCounter) :
    ((fun r => ReqCounter.shift r false)^[n] r).lastHit = r.lastHit := by
  induction n generalizing r with
  | zero => rfl
  | succ n ih =>
    rw [Function.iterate_succ_apply, ih]
    rfl

section
variable (h : r.Tracks g t)
include h

theorem Tracks.switchEpoch (hlast : r.lastHit = g t) {n : Nat} (hn : 0 < n)
    (hg : ∀ u, t < u → u < t + n → g u = false) :
    (r.switchEpoch n).Tracks g (t + n) ∧ (r.switchEpoch n).lastHit = false := by
  unfold ReqCounter.switchEpoch
  split
  · rename_i hlarge
    refine ⟨Tracks.empty fun m hm => hg _ ?_ ?_, rfl⟩ <;> omega
  have h1 : ({ r.shift r.lastHit with lastHit := false } : ReqCounter).Tracks g (t + 1) := by
    rw [hlast]
    exact ⟨h.shift.data, h.shift.times⟩
  have h2 := h1.iterate_shift (n - 1) fun u hu hu' => hg u (by omega) (by omega)
  rw [show t + 1 + ((n - 1 : Nat) : Int) = t + n by omega] at h2
  exact ⟨h2, lastHit_iterate_shift _ _⟩

theorem Tracks.congr {g' : Int → Bool}
    (hg : ∀ n : Nat, n < queueLen → g' (t - queueLen + n) = g (t - queueLen + n)) : r.Tracks g' t := by
  refine ⟨?_, h.times⟩
  rw [h.data]
  exact (map_congr_left fun n hn => hg n (List.mem_range.1 hn)).symm

theorem Tracks.times_eq_zero :
    r.cacheHitTimes = 0 ↔ ∀ n : Nat, n < queueLen → g (t - queueLen + n) = false := by
  rw [h.times, h.data]
  simp [count_eq_zero]

private theorem Tracks.unique {r' : ReqCounter} (h' : r'.Tracks g t) (hlast : r.lastHit = r'.lastHit) :
    r = r' := by
  obtain ⟨data, lastHit, times⟩ := r
  obtain ⟨data', lastHit', times'⟩ := r'
  have hdata : data = data' := h.data.trans h'.data.symm
  have htimes : times = times' := h.times.trans ((congrArg (fun l => ((count true l : Nat) : Int)) hdata).trans h'.times.symm)
  subst hdata htimes hlast
  rfl

end

private theorem Tracks.iterate_switchEpoch (n : Nat) (h : r.Tracks g t) (hlast : r.lastHit = g t)
    (hg : ∀ u, t < u → g u = false) :
    ((fun r => ReqCounter.switchEpoch r 1)^[n] r).Tracks g (t + n) ∧
      ((fun r => ReqCounter.switchEpoch r 1)^[n] r).lastHit = g (t + n) := by
  induction n with
  | zero => simpa using ⟨h, hlast⟩
  | succ n ih =>
    have hnext := ih.1.switchEpoch ih.2 (n := 1) Nat.one_pos fun u hu hu' => by omega
    rw [Function.iterate_succ_apply', show t + ((n + 1 : Nat) : Int) = t + n + (1 : Nat) by push_cast; omega]
    exact ⟨hnext.1, hnext.2.trans (hg _ (by omega)).symm⟩

/-! ### A set of epochs -/

inductive Op
  | hit
  | switchEpoch (epochNum : ℕ+)

def step (r : ReqCounter) : Op → ReqCounter
  | .hit => r.hit.1
  | .switchEpoch n => r.switchEpoch n

structure Epochs where
  current : Nat := 0
  hits : Finset Nat := ∅

def Epochs.step (s : Epochs) : Op → Epochs
  | .hit => { s with hits := insert s.current s.hits }
  | .switchEpoch n => { s with current := s.current + n }

/-- The counter and the set of epochs after the same calls. -/
structure Refines (r : ReqCounter) (s : Epochs) : Prop where
  tracks : r.Tracks (fun u => decide (∃ e ∈ s.hits, (e : Int) = u)) s.current
  lastHit : r.lastHit = decide (s.current ∈ s.hits)
  past : ∀ e ∈ s.hits, e ≤ s.current

namespace Refines
variable {s : Epochs}

private theorem lastHit_eq (h : Refines r s) : r.lastHit = decide (∃ e ∈ s.hits, (e : Int) = s.current) := by
  simpa using h.lastHit

private theorem future (h : Refines r s) (u : Int) (hu : (s.current : Int) < u) :
    decide (∃ e ∈ s.hits, (e : Int) = u) = false := by
  refine decide_eq_false ?_
  rintro ⟨e, he, rfl⟩
  have := h.past e he
  omega

private theorem step (h : Refines r s) (op : Op) : Refines (r.step op) (s.step op) := by
  cases op with
  | hit =>
    have hlast : r.hit.1.lastHit = true := by
      unfold hit
      split
      · assumption
      · rfl
    have hsame : r.hit.1.data = r.data ∧ r.hit.1.cacheHitTimes = r.cacheHitTimes := by
      unfold hit
      split <;> exact ⟨rfl, rfl⟩
    refine ⟨?_, by simpa [ReqCounter.step, Epochs.step] using hlast, fun e he => ?_⟩
    · -- the window ends before the current epoch
      have htracks : r.Tracks (fun u => decide (∃ e ∈ insert s.current s.hits, (e : Int) = u)) s.current := by
        refine h.tracks.congr fun n hn => ?_
        refine decide_eq_decide.2 ?_
        simp only [Finset.mem_insert, exists_eq_or_imp, or_iff_right_iff_imp]
        omega
      exact ⟨hsame.1.trans htracks.data, by rw [ReqCounter.step, hsame.2, hsame.1]; exact htracks.times⟩
    · rcases Finset.mem_insert.1 he with rfl | he
      · exact Nat.le_refl _
      · exact h.past e he
  | switchEpoch n =>
    obtain ⟨htracks, hlast⟩ := h.tracks.switchEpoch h.lastHit_eq n.pos fun u hu _ => h.future u hu
    refine ⟨?_, hlast.trans (decide_eq_false fun hmem => ?_).symm, fun e he => ?_⟩
    · show (r.switchEpoch n).Tracks _ ((s.current + (n : Nat) : Nat) : Int)
      exact htracks
    · have := h.past _ hmem
      have := n.pos
      simp only [Epochs.step] at *
      omega
    · exact (h.past e he).trans (Nat.le_add_right _ _)

private theorem run (ops : List Op) : Refines (ops.foldl ReqCounter.step {}) (ops.foldl Epochs.step {}) := by
  induction ops using List.reverseRecOn with
  | nil => exact ⟨Tracks.empty fun n hn => by simp, rfl, nofun⟩
  | append_singleton ops op ih =>
    rw [foldl_append, foldl_append]
    exact ih.step op

end Refines

/-- After any calls of a fresh counter, going over several epochs is the same as going over them one by one, the count is
that of the window, and a hit is told by the epochs of the hits before it: `-1`, the first result, in an epoch with a hit,
0 after a hit in one of the five epochs before, and 1 otherwise. -/
theorem refines_epochs (ops : List Op) :
    let r := ops.foldl ReqCounter.step {}
    let s := ops.foldl Epochs.step {}
    (∀ n : ℕ+, r.switchEpoch n = (fun r => ReqCounter.switchEpoch r 1)^[n] r) ∧
    r.data.length = 5 ∧ r.cacheHitTimes = (r.data.count true : Nat) ∧
    (r.hit.2 = none ↔ s.current ∈ s.hits) ∧
    (r.hit.2 = some 0 ↔ s.current ∉ s.hits ∧ ∃ e ∈ s.hits, e < s.current ∧ s.current ≤ e + 5) ∧
    (r.hit.2 = some 1 ↔ s.current ∉ s.hits ∧ ¬ ∃ e ∈ s.hits, e < s.current ∧ s.current ≤ e + 5) := by
  intro r s
  have h : Refines r s := Refines.run ops
  refine ⟨fun n => ?_, by rw [h.tracks.data, length_map, length_range]; rfl, h.tracks.times, ?_⟩
  · obtain ⟨hbulk, hlast⟩ := h.tracks.switchEpoch h.lastHit_eq n.pos fun u hu _ => h.future u hu
    obtain ⟨hsteps, hlast'⟩ := h.tracks.iterate_switchEpoch n h.lastHit_eq h.future
    refine hbulk.unique hsteps (hlast.trans (Eq.trans ?_ hlast'.symm))
    have := n.pos
    exact (h.future _ (by omega)).symm
  · have hwindow : r.cacheHitTimes = 0 ↔ ¬ ∃ e ∈ s.hits, e < s.current ∧ s.current ≤ e + 5 := by
      rw [h.tracks.times_eq_zero]
      constructor
      · rintro hnone ⟨e, he, hlt, hle⟩
        refine of_decide_eq_false (hnone (e + 5 - s.current) (by simp only [queueLen]; omega)) ⟨e, he, ?_⟩
        simp only [queueLen]
        omega
      · intro hnone n hn
        refine decide_eq_false ?_
        rintro ⟨e, he, heq⟩
        simp only [queueLen] at hn heq
        exact hnone ⟨e, he, by omega, by omega⟩
    have hlast := h.lastHit
    unfold hit
    by_cases hcur : s.current ∈ s.hits
    · simp [hlast, hcur]
    by_cases hzero : r.cacheHitTimes = 0
    · have hno := hwindow.1 hzero
      simp [hlast, hcur, hzero, hno]
    · have hyes := not_not.1 fun hno => hzero (hwindow.2 hno)
      simp [hlast, hcur, hzero, hyes]

end ReqCounter
end Lunule.Cache
