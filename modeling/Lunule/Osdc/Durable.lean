import Lunule.Osdc.SafePos

/-!
# Completed flushes

A context completes once `safe_pos` has reached the write position at its call, with one exception: a flush of an empty buffer
completes its context at once, also while what was in the buffer is still being written. In a run in which no context is passed to
such a flush, everything that was appended before the call of a completed context has been written.
-/

namespace Lunule.Osdc
open Exec Outstanding List
variable {ι : Type} {j j' : Journaler ι} {onsafe : Option ι}

namespace Journaler

/-- A context is passed to a flush of an empty buffer only when no write is outstanding. -/
def Idle (j : Journaler ι) (ev : Event ι) : Prop :=
  ∀ c n, ev = .flush (some c) n → j.write_pos = j.flush_pos → j.pending_safe = []

instance (j : Journaler ι) (ev : Event ι) : Decidable (j.Idle ev) :=
  match ev with
  | .flush (some c) n => decidable_of_iff (j.write_pos = j.flush_pos → j.pending_safe = [])
      ⟨fun h _ _ heq => by cases heq; exact h, fun h => h c n rfl⟩
  | .flush none _ | .append _ | .waitForFlush _ | .writeHead | .written _ | .zeroed _ | .headWritten _ =>
    isTrue nofun

/-- What was appended before the call of a completed context is written. -/
def Durable (j : Journaler ι) : Prop := ∀ w ∈ j.finished, ∀ b, j.start ≤ b → b < w.upTo → Holds j.written b

/-- A step keeps the writes that completed, and completes contexts whose position is safe. -/
structure Completes (j j' : Journaler ι) : Prop where
  start_eq : j'.start = j.start
  written_subset : j.written ⊆ j'.written
  finished : ∀ w ∈ j'.finished, w ∈ j.finished ∨ w.upTo ≤ j'.safe_pos

private theorem Completes.of_eq (hstart : j'.start = j.start) (hwritten : j'.written = j.written)
    (hfinished : j'.finished = j.finished) : Completes j j' :=
  ⟨hstart, hwritten ▸ List.Subset.refl _, fun _ hw => .inl (hfinished ▸ hw)⟩

private theorem completes_waitForFlush (h : j.waitForFlush onsafe = some j') : Completes j j' := by
  rcases waitForFlush_cases h with ⟨hsafe, f, hf, rfl⟩ | rfl | ⟨ws, -, rfl⟩
  · refine ⟨rfl, List.Subset.refl _, fun w hw => ?_⟩
    rcases mem_append.1 hw with hw | hw
    · exact .inl hw
    · exact .inr (by rw [hf w hw]; exact hsafe.le)
  · exact .of_eq rfl rfl rfl
  · exact .of_eq rfl rfl rfl

private theorem completes_writeHead {j1 : Journaler ι} (h : Completes j j1) (hrun : j1.writeHead = some j') :
    Completes j j' := by
  obtain ⟨hd, -, rfl⟩ := writeHead_cases hrun
  exact ⟨h.start_eq, h.written_subset, h.finished⟩

private theorem Sound.completes_flush {write_head_needed : Bool} (h : j.Sound)
    (hidle : j.Idle (.flush onsafe write_head_needed)) (hrun : j.flush onsafe write_head_needed = some j') : Completes j j' := by
  obtain ⟨j1, hj1, hj'⟩ := flush_cases hrun
  have h1 : Completes j j1 := by
    rcases hj1 with ⟨heq, -, f, hsome, hf, rfl⟩ | ⟨j2, hflush, hwait⟩
    · refine ⟨rfl, List.Subset.refl _, fun w hw => ?_⟩
      rcases mem_append.1 hw with hw | hw
      · exact .inl hw
      -- nothing is outstanding, so that everything is safe
      obtain ⟨c, hc⟩ := Option.ne_none_iff_exists'.1 (hsome (ne_nil_of_mem hw))
      subst hc
      have hnil := hidle c write_head_needed rfl heq
      exact .inr (by rw [hf w hw]; exact ((h.flushed heq.symm).2 hnil).ge)
    · obtain ⟨hstart, -, -, -, -, -, hwritten, hfinished⟩ := doFlush_frame hflush
      have h2 := completes_waitForFlush hwait
      exact ⟨h2.start_eq.trans hstart, hwritten ▸ h2.written_subset, hfinished ▸ h2.finished⟩
  rcases hj' with rfl | hhead
  · exact h1
  · exact completes_writeHead h1 hhead

private theorem Sound.completes_written {pos : ℕ} (h : j.Sound) (hrun : j.step (.written pos) = some j') :
    Completes j j' := by
  obtain ⟨w, -, -, rfl⟩ := written_cases hrun
  refine ⟨rfl, subset_append_left _ _, fun x hx => ?_⟩
  rcases mem_append.1 hx with hx | hx
  · exact .inl hx
  · obtain ⟨p, hp, hx⟩ := mem_flatMap.1 hx
    have hkey := mem_takeWhile_imp hp
    have hup := (h.waiters p ((takeWhile_sublist _).subset hp)).2 x hx
    exact .inr (hup ▸ of_decide_eq_true hkey)

private theorem Sound.completes {ev : Event ι} (h : j.Sound) (hidle : j.Idle ev) (hrun : j.step ev = some j') :
    Completes j j' := by
  cases ev with
  | append bl =>
    obtain ⟨-, hrun⟩ := Option.ite_none_right_eq_some.1 hrun
    obtain ⟨-, -, hwritten, hfinished, hstart⟩ := h.appendEntry hrun
    exact .of_eq hstart hwritten hfinished
  | flush onsafe write_head_needed => exact h.completes_flush hidle hrun
  | waitForFlush onsafe => exact completes_waitForFlush hrun
  | writeHead => exact completes_writeHead (.of_eq rfl rfl rfl) hrun
  | written pos => exact h.completes_written hrun
  | zeroed i =>
    obtain ⟨z, p, s, rfl | ⟨amount, hflush⟩⟩ := zeroed_cases hrun
    · exact .of_eq rfl rfl rfl
    · obtain ⟨hstart, -, -, -, -, -, hwritten, hfinished⟩ := doFlush_frame hflush
      exact .of_eq hstart hwritten hfinished
  | headWritten i =>
    obtain ⟨hd, -, rfl⟩ := headWritten_cases hrun
    exact .of_eq rfl rfl rfl

private theorem Durable.step {ev : Event ι} (hd : j.Durable) (h : j.Sound) (hidle : j.Idle ev)
    (hrun : j.step ev = some j') : j'.Durable := by
  have hc := h.completes hidle hrun
  have h' := (h.step hrun).1
  intro w hw b hlo hhi
  rcases hc.finished w hw with hold | hsafe
  · obtain ⟨x, hx, hb⟩ := hd w hold b (hc.start_eq ▸ hlo) hhi
    exact ⟨x, hc.written_subset hx, hb⟩
  · exact h'.holds_written hlo (hhi.trans_le hsafe)

end Journaler

open Journaler in
/-- In a run in which no context is passed to a flush of an empty buffer while writes are outstanding, what was appended before the
call of a completed context has been written. -/
theorem flush_durable (ι : Type) (period prezero_periods : ℕ) (f : StreamFormat) (es : List (Event ι)) (j : Journaler ι)
    (hidle : AllSteps step Idle (create ι period prezero_periods f) es)
    (hrun : exec step (create ι period prezero_periods f) es = some j) :
    ∀ w ∈ j.finished, ∀ b, j.start ≤ b → b < w.upTo → Holds j.written b := by
  have hstep : ∀ (s : Journaler ι) e t, s.Sound ∧ s.Durable → s.Idle e → s.step e = some t → t.Sound ∧ t.Durable :=
    fun s e t hs hidle ht => ⟨(hs.1.step ht).1, hs.2.step hs.1 hidle ht⟩
  have hcreate : (create ι period prezero_periods f).Durable := fun w hw => absurd hw not_mem_nil
  exact (exec_invariant hstep ⟨sound_create ι period prezero_periods f, hcreate⟩ hidle hrun).2

open Journaler in
theorem flush_durable_waited :
    ∃ j, exec step (create ℕ 8 2 .legacy) (.append [0, 0] :: .flush (some 0) false :: .zeroed 0 :: .zeroed 0 :: .written 8 ::
      [.flush (some 1) false]) = some j ∧ j.finished = [⟨0, 14⟩, ⟨1, 14⟩] ∧
        ∀ w ∈ j.finished, ∀ b, j.start ≤ b → b < w.upTo → Holds j.written b := by
  have hrun := show (exec step (create ℕ 8 2 .legacy) (.append [0, 0] :: .flush (some 0) false :: .zeroed 0 :: .zeroed 0 ::
      .written 8 :: [.flush (some 1) false])).any (fun j => j.finished = [⟨0, 14⟩, ⟨1, 14⟩]) = true by decide +kernel
  obtain ⟨j, hj, hfinished⟩ := (Option.any_eq_true _ _).1 hrun
  exact ⟨j, hj, of_decide_eq_true hfinished, flush_durable ℕ 8 2 .legacy _ j (by decide +kernel) hj⟩

open Journaler in
/-- A flush while the write of the entry is outstanding completes at once, and nothing has been written. -/
theorem flush_not_durable :
    (exec step (create ℕ 8 2 .legacy) (.append [0, 0] :: .flush none false :: .zeroed 0 :: .zeroed 0 ::
      [.flush (some 0) false])).map (fun j => (j.finished, j.written, j.start)) = some ([⟨0, 14⟩], [], 8) := by
  decide +kernel

end Lunule.Osdc
