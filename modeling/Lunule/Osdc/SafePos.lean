import Lunule.Lib.Exec
import Lunule.Lib.Outstanding
import Lunule.Osdc.Write

/-!
# The safe position of a journal

The buffer holds what was appended and not yet written, and the writes that have not completed are those of `pending_safe`. With
each of them `next_safe_pos` is kept as it was when the write was submitted: the end of an entry at or before the start of the write.
So `safe_pos`, taken from the first write that has not completed, is the end of an entry, and everything below it belongs to writes
that have completed.
-/

namespace Lunule.Osdc
open Exec Outstanding List
variable {ι : Type} {j j' : Journaler ι}

private theorem assign_last {ν : Type} {m : List (ℕ × ν)} {k : ℕ} (h : ∀ p ∈ m, p.1 < k) (v : ν) :
    assign m k v = m ++ [(k, v)] := by
  induction m with
  | nil => rfl
  | cons p m ih =>
    have := h p mem_cons_self
    rw [assign, if_neg (by omega), if_neg (by omega), ih (forall_mem_cons.1 h).2]
    rfl

private theorem mem_assign {ν : Type} {m : List (ℕ × ν)} {k : ℕ} {v : ν} {p : ℕ × ν} (h : p ∈ assign m k v) :
    p = (k, v) ∨ p ∈ m := by
  induction m with
  | nil => exact .inl (mem_singleton.1 h)
  | cons q m ih =>
    rw [assign] at h
    split_ifs at h
    · exact mem_cons.1 h
    · exact (mem_cons.1 h).imp_right (mem_cons_of_mem _)
    · rcases mem_cons.1 h with rfl | h
      · exact .inr mem_cons_self
      · exact (ih h).imp_right (mem_cons_of_mem _)

def Holds (writes : List Write) (b : ℕ) : Prop := ∃ w ∈ writes, w.pos ≤ b ∧ b < w.pos + w.data.length

/-- What holds in every state of a journal. -/
structure Sound (start : ℕ) (stream : Bytes) (bounds : List ℕ) (write_pos flush_pos safe_pos next_safe_pos : ℕ) (write_buf : Bytes)
    (pending_safe : List (ℕ × ℕ)) (waitfor_safe : List (ℕ × List (Waiter ι))) (writes written : List Write)
    (last heads : List Header) : Prop where
  write_eq : write_pos = start + stream.length
  flush_range : start ≤ flush_pos ∧ flush_pos ≤ write_pos
  buf_eq : write_buf = stream.drop (flush_pos - start)
  write_mem : write_pos ∈ bounds
  bounds_le : ∀ b ∈ bounds, b ≤ write_pos
  tracked : Tracked (· ∈ bounds) pending_safe safe_pos next_safe_pos flush_pos
  flushed : flush_pos = write_pos → next_safe_pos = write_pos ∧ (pending_safe = [] → safe_pos = write_pos)
  pending_eq : writes.map Write.pos = pending_safe.map Prod.fst
  waiters : ∀ p ∈ waitfor_safe, p.1 ∈ bounds ∧ ∀ w ∈ p.2, w.upTo = p.1
  covered : ∀ b, start ≤ b → b < flush_pos → Holds (writes ++ written) b
  data : ∀ w ∈ writes ++ written, start ≤ w.pos ∧ w.data <+: stream.drop (w.pos - start)
  last_mem : ∀ h ∈ last, h = {} ∨ h.write_pos ∈ bounds
  heads_mem : ∀ h ∈ heads, h.write_pos ∈ bounds

def Journaler.Sound (j : Journaler ι) : Prop :=
  Osdc.Sound j.start j.stream j.bounds j.write_pos j.flush_pos j.safe_pos j.next_safe_pos j.write_buf j.pending_safe j.waitfor_safe
    j.writes j.written [j.last_written, j.last_committed] j.heads

namespace Journaler

private theorem Sound.length_buf (h : j.Sound) : j.flush_pos + j.write_buf.length = j.write_pos := by
  have h1 := h.write_eq
  have h2 := h.flush_range
  rw [h.buf_eq, length_drop]
  omega

theorem Sound.holds_written (h : j.Sound) {b : ℕ} (hlo : j.start ≤ b) (hhi : b < j.safe_pos) : Holds j.written b := by
  have h1 := h.tracked.safe_le
  have h2 := h.tracked.next_le
  obtain ⟨w, hw, hb⟩ := h.covered b hlo (by omega)
  rcases mem_append.1 hw with hw | hw
  · have hkey := h.pending_eq ▸ mem_map_of_mem hw
    obtain ⟨p, hp, heq⟩ := mem_map.1 hkey
    have := h.tracked.safe_le_start hp
    omega
  · exact ⟨w, hw, hb⟩

private theorem issuePrezero_cases (h : j.issuePrezero = some j') :
    ∃ z p, j' = { j with zeros := z, prezeroing_pos := p } := by
  unfold issuePrezero at h
  dsimp only at h
  split_ifs at h
  · cases h
    exact ⟨_, _, rfl⟩
  · cases h
    exact ⟨_, _, rfl⟩

private theorem submit_cases {len : ℕ} (h : j.submit len = some j') :
    ∃ z p, j' = { j.submitted len with zeros := z, prezeroing_pos := p } := by
  unfold submit at h
  split_ifs at h
  exact issuePrezero_cases h

/-- A flush waits for zeros, or it submits a part of the buffer. -/
def Flushes (j j' : Journaler ι) : Prop :=
  (∃ z p w, j' = { j with zeros := z, prezeroing_pos := p, waiting_for_zero_pos := w }) ∨
    ∃ len z p w, 0 < len ∧ len ≤ j.write_buf.length ∧
      j' = { j.submitted len with zeros := z, prezeroing_pos := p, waiting_for_zero_pos := w }

private theorem flushLen_cases {len : ℕ} (hpos : 0 < len) (hlen : len ≤ j.write_buf.length)
    (h : j.flushLen len = some j') : Flushes j j' := by
  unfold flushLen at h
  split at h
  · obtain ⟨j1, hprezero, h⟩ := Option.bind_eq_some_iff.1 h
    obtain ⟨z, p, rfl⟩ := issuePrezero_cases hprezero
    dsimp only at h
    split_ifs at h with h1 h2
    · cases h
      exact .inl ⟨_, _, _, rfl⟩
    · obtain ⟨z', p', rfl⟩ := submit_cases h
      refine .inr ⟨_, z', p', j.flush_pos + len, ?_, ?_, rfl⟩ <;> omega
    · obtain ⟨z', p', rfl⟩ := submit_cases h
      exact .inr ⟨len, z', p', j.waiting_for_zero_pos, hpos, hlen, rfl⟩
  · obtain ⟨z', p', rfl⟩ := submit_cases h
    exact .inr ⟨len, z', p', j.waiting_for_zero_pos, hpos, hlen, rfl⟩

variable {amount : ℕ}

private theorem doFlush_cases (h : j.doFlush amount = some j') : Flushes j j' := by
  unfold doFlush at h
  split at h
  · cases h
    exact .inl ⟨_, _, _, rfl⟩
  split at h
  · cases h
  · split at h
    · cases h
    · refine flushLen_cases ?_ ?_ h <;> split_ifs <;> omega

private theorem nextSafe_spec (stop : ℕ) : j.nextSafe stop = j.next_safe_pos ∨
      j.next_safe_pos < j.nextSafe stop ∧ j.nextSafe stop ≤ stop ∧ ∃ p ∈ j.waitfor_safe, j.nextSafe stop = p.1 := by
  unfold nextSafe
  rcases hb : RangeMap.lowerBound Prod.fst j.waitfor_safe stop with ⟨before, rest⟩
  have hbefore : ∀ q ∈ before, q ∈ j.waitfor_safe := fun q hq => by
    cases hb
    exact (takeWhile_sublist _).subset (mem_reverse.1 hq)
  have hrest : ∀ q ∈ rest, q ∈ j.waitfor_safe := fun q hq => by
    cases hb
    exact (dropWhile_sublist _).subset hq
  cases rest with
  | nil => exact .inl rfl
  | cons p rest =>
    dsimp only
    have hkey : ∃ q ∈ j.waitfor_safe, (if stop < p.1 then before.head?.elim p.1 Prod.fst else p.1) = q.1 := by
      split
      · cases before with
        | nil => exact ⟨p, hrest p mem_cons_self, rfl⟩
        | cons q before => exact ⟨q, hbefore q mem_cons_self, rfl⟩
      · exact ⟨p, hrest p mem_cons_self, rfl⟩
    obtain ⟨q, hq, heq⟩ := hkey
    rw [heq]
    split
    · rename_i hle
      exact .inr ⟨hle.2, hle.1, q, hq, rfl⟩
    · exact .inl rfl

private theorem Sound.submitted (h : j.Sound) {len : ℕ} (hpos : 0 < len) (hlen : len ≤ j.write_buf.length) :
    (j.submitted len).Sound := by
  have hbuf := h.length_buf
  have hflush := h.flush_range
  have hnext := h.tracked.next_le
  have hassign : assign j.pending_safe j.flush_pos j.next_safe_pos = j.pending_safe ++ [(j.flush_pos, j.next_safe_pos)] :=
    assign_last (fun p hp => (h.tracked.bounds p hp).2.2.1) _
  -- the new `next_safe_pos`
  obtain ⟨next, hdef⟩ : ∃ next, (if len = j.write_buf.length then j.write_pos else j.nextSafe (j.flush_pos + len)) = next := ⟨_, rfl⟩
  have hnew : j.next_safe_pos ≤ next ∧ next ≤ j.flush_pos + len ∧ next ∈ j.bounds := by
    rw [← hdef]
    split
    · exact ⟨by omega, by omega, h.write_mem⟩
    · rcases nextSafe_spec (j := j) (j.flush_pos + len) with heq | ⟨hlt, hle, p, hp, heq⟩
      · rw [heq]
        exact ⟨le_refl _, by omega, h.tracked.next_good⟩
      · exact ⟨hlt.le, hle, heq ▸ (h.waiters p hp).1⟩
  have htracked := h.tracked.submit (show j.flush_pos < j.flush_pos + len by omega) hnew.1 hnew.2.1 hnew.2.2
  have hdata : j.write_buf.take len <+: j.stream.drop (j.flush_pos - j.start) := h.buf_eq ▸ take_prefix _ _
  show Osdc.Sound j.start j.stream j.bounds j.write_pos (j.flush_pos + len) j.safe_pos
    (if len = j.write_buf.length then j.write_pos else j.nextSafe (j.flush_pos + len)) (j.write_buf.drop len)
    (assign j.pending_safe j.flush_pos j.next_safe_pos) j.waitfor_safe (j.writes ++ [⟨j.flush_pos, j.write_buf.take len⟩]) j.written
    [j.last_written, j.last_committed] j.heads
  rw [hdef, hassign]
  refine ⟨h.write_eq, by omega, ?_, h.write_mem, h.bounds_le, htracked, fun _ => ⟨?_, ?_⟩, ?_, h.waiters, ?_, ?_, h.last_mem, h.heads_mem⟩
  · rw [h.buf_eq, drop_drop]
    congr 1
    omega
  · rw [← hdef, if_pos (by omega)]
  · simp
  · rw [map_append, map_append, h.pending_eq]
    rfl
  · intro b hlo _
    by_cases hb : b < j.flush_pos
    · obtain ⟨w, hw, hrange⟩ := h.covered b hlo hb
      refine ⟨w, ?_, hrange⟩
      simp only [mem_append] at hw ⊢
      tauto
    · refine ⟨⟨j.flush_pos, j.write_buf.take len⟩, by simp, ?_⟩
      dsimp only
      rw [length_take]
      omega
  · intro w hw
    simp only [mem_append, mem_singleton] at hw
    rcases hw with (hw | rfl) | hw
    · exact h.data w (mem_append_left _ hw)
    · exact ⟨hflush.1, hdata⟩
    · exact h.data w (mem_append_right _ hw)

private theorem Sound.doFlush (h : j.Sound) (hrun : j.doFlush amount = some j') :
    j'.Sound ∧ j'.safe_pos = j.safe_pos := by
  rcases doFlush_cases hrun with ⟨z, p, w, rfl⟩ | ⟨len, z, p, w, hpos, hlen, rfl⟩
  · exact ⟨h, rfl⟩
  · exact ⟨h.submitted hpos hlen, rfl⟩

theorem doFlush_frame (h : j.doFlush amount = some j') :
    j'.start = j.start ∧ j'.stream = j.stream ∧ j'.bounds = j.bounds ∧ j'.write_pos = j.write_pos ∧ j'.safe_pos = j.safe_pos ∧
      j'.waitfor_safe = j.waitfor_safe ∧ j'.written = j.written ∧ j'.finished = j.finished := by
  rcases doFlush_cases h with ⟨z, p, w, rfl⟩ | ⟨-, z, p, w, -, -, rfl⟩
  · exact ⟨rfl, rfl, rfl, rfl, rfl, rfl, rfl, rfl⟩
  · exact ⟨rfl, rfl, rfl, rfl, rfl, rfl, rfl, rfl⟩

private theorem Sound.append (h : j.Sound) {bytes : Bytes} (hpos : 0 < bytes.length) : Sound { j with
      write_buf := j.write_buf ++ bytes
      write_pos := j.write_pos + bytes.length
      stream := j.stream ++ bytes
      bounds := j.bounds ++ [j.write_pos + bytes.length] } := by
  have hwrite := h.write_eq
  have hflush := h.flush_range
  have hdrop : ∀ k, k ≤ j.stream.length → (j.stream ++ bytes).drop k = j.stream.drop k ++ bytes := fun k hk =>
    drop_append_of_le_length hk
  refine ⟨?_, ?_, ?_, ?_, ?_, h.tracked.imp fun k hk => mem_append_left _ hk, ?_, h.pending_eq, ?_, h.covered, ?_, ?_, ?_⟩
  · show j.write_pos + bytes.length = j.start + (j.stream ++ bytes).length
    rw [length_append]
    omega
  · show j.start ≤ j.flush_pos ∧ j.flush_pos ≤ j.write_pos + bytes.length
    omega
  · show j.write_buf ++ bytes = (j.stream ++ bytes).drop (j.flush_pos - j.start)
    rw [hdrop _ (by omega), h.buf_eq]
  · exact mem_append_right _ (mem_singleton.2 rfl)
  · intro b hb
    show b ≤ j.write_pos + bytes.length
    rcases mem_append.1 hb with hb | hb
    · have := h.bounds_le b hb
      omega
    · exact (mem_singleton.1 hb).le
  · intro heq
    have heq' : j.flush_pos = j.write_pos + bytes.length := heq
    omega
  · exact fun p hp => ⟨mem_append_left _ (h.waiters p hp).1, (h.waiters p hp).2⟩
  · intro w hw
    obtain ⟨hlo, hdata⟩ := h.data w hw
    refine ⟨hlo, ?_⟩
    by_cases hle : w.pos - j.start ≤ j.stream.length
    · rw [hdrop _ hle]
      exact hdata.trans (prefix_append _ _)
    · rw [drop_eq_nil_of_le (by omega)] at hdata
      rw [prefix_nil.1 hdata]
      exact nil_prefix
  · exact fun hd hhd => (h.last_mem hd hhd).imp_right (mem_append_left _)
  · exact fun hd hhd => mem_append_left _ (h.heads_mem hd hhd)

theorem Sound.appendEntry (h : j.Sound) {bl : Bytes} (hrun : j.appendEntry bl = some j') :
    j'.Sound ∧ j'.safe_pos = j.safe_pos ∧ j'.written = j.written ∧ j'.finished = j.finished ∧ j'.start = j.start := by
  obtain ⟨bytes, hbytes⟩ : ∃ bytes, j.stream_format.write bl j.write_pos = bytes := ⟨_, rfl⟩
  have hpos : 0 < bytes.length := by
    rw [← hbytes, StreamFormat.length_write]
    have := j.stream_format.envelopeSize_pos
    omega
  unfold Journaler.appendEntry at hrun
  dsimp only at hrun
  rw [hbytes] at hrun
  have happend := h.append hpos
  split_ifs at hrun with hperiod hobject
  · obtain ⟨j1, hflush, rfl⟩ := Option.map_eq_some_iff.1 hrun
    have h1 := (happend.doFlush hflush).1
    obtain ⟨hstart, hstream, hbounds, hwrite, hsafe, -, hwritten, hfinished⟩ := doFlush_frame hflush
    dsimp only at hstart hstream hbounds hwrite hsafe hwritten hfinished
    split
    · -- the positions kept so far are ends of earlier entries
      rename_i hwithin
      have hbuf := h1.length_buf
      have hold : j1.write_pos - bytes.length = j.write_pos := by omega
      have hlt : ∀ k ∈ j1.bounds, k < j1.write_pos → k ≤ j.write_pos := by
        intro k hk hkw
        rw [hbounds] at hk
        rcases mem_append.1 hk with hk | hk
        · exact h.bounds_le k hk
        · rw [mem_singleton.1 hk] at hkw
          omega
      have hnext := hlt _ h1.tracked.next_good (by have := h1.tracked.next_le; omega)
      have hmem : j.write_pos ∈ j1.bounds := by
        rw [hbounds]
        exact mem_append_left _ h.write_mem
      refine ⟨{ h1 with tracked := ?_, flushed := fun heq => ?_ }, hsafe, hwritten, hfinished, hstart⟩
      · show Tracked _ _ _ (j1.write_pos - bytes.length) _
        rw [hold]
        exact h1.tracked.advance hnext (by omega) hmem
      · have heq' : j1.flush_pos = j1.write_pos := heq
        omega
    · exact ⟨h1, hsafe, hwritten, hfinished, hstart⟩
  · cases hrun
    exact ⟨happend, rfl, rfl, rfl, rfl⟩

variable {onsafe : Option ι}

theorem waitForFlush_cases (h : j.waitForFlush onsafe = some j') :
    (j.write_pos = j.safe_pos ∧ ∃ f, (∀ w ∈ f, w.upTo = j.write_pos) ∧ j' = { j with finished := j.finished ++ f }) ∨ j' = j ∨
      ∃ ws, (∀ w ∈ ws, w.upTo = j.write_pos ∨ ∃ p ∈ j.waitfor_safe, p.1 = j.write_pos ∧ w ∈ p.2) ∧
        j' = { j with waitfor_safe := assign j.waitfor_safe j.write_pos ws } := by
  unfold waitForFlush at h
  split_ifs at h with hsafe hbuf
  · refine .inl ⟨hsafe, (onsafe.map fun c => ⟨c, j.write_pos⟩).toList, fun w hw => ?_, (Option.some.inj h).symm⟩
    obtain ⟨c, -, rfl⟩ := Option.map_eq_some_iff.1 (Option.mem_toList.1 hw)
    rfl
  cases onsafe with
  | none => exact .inr (.inl (Option.some.inj h).symm)
  | some c =>
    refine .inr (.inr ⟨_, fun w hw => ?_, (Option.some.inj h).symm⟩)
    rcases mem_append.1 hw with hw | hw
    · cases hfind : j.waitfor_safe.find? (·.1 = j.write_pos) with
      | none =>
        rw [hfind] at hw
        cases hw
      | some p =>
        rw [hfind] at hw
        exact .inr ⟨p, mem_of_find?_eq_some hfind, by simpa using find?_some hfind, hw⟩
    · rw [mem_singleton.1 hw]
      exact .inl rfl

private theorem Sound.waitForFlush (h : j.Sound) (hrun : j.waitForFlush onsafe = some j') :
    j'.Sound ∧ j'.safe_pos = j.safe_pos := by
  rcases waitForFlush_cases hrun with ⟨-, f, -, rfl⟩ | rfl | ⟨ws, hws, rfl⟩
  · exact ⟨h, rfl⟩
  · exact ⟨h, rfl⟩
  refine ⟨{ h with waiters := fun p hp => ?_ }, rfl⟩
  rcases mem_assign hp with rfl | hp
  · refine ⟨h.write_mem, fun w hw => ?_⟩
    rcases hws w hw with heq | ⟨q, hq, heq, hw⟩
    · exact heq
    · exact ((h.waiters q hq).2 w hw).trans heq
  · exact h.waiters p hp

private theorem Sound.heads {last heads : List Header} (h : j.Sound)
    (hlast : ∀ hd ∈ last, hd = {} ∨ hd.write_pos ∈ j.bounds) (hheads : ∀ hd ∈ heads, hd.write_pos ∈ j.bounds) :
    Osdc.Sound j.start j.stream j.bounds j.write_pos j.flush_pos j.safe_pos j.next_safe_pos j.write_buf j.pending_safe j.waitfor_safe
      j.writes j.written last heads :=
  { h with last_mem := hlast, heads_mem := hheads }

theorem writeHead_cases (h : j.writeHead = some j') :
    ∃ hd : Header, hd.write_pos = j.safe_pos ∧ j' = { j with last_written := hd, heads := j.heads ++ [hd] } := by
  obtain ⟨-, h⟩ := Option.ite_none_left_eq_some.1 h
  exact ⟨⟨j.trimmed_pos, j.expire_pos, j.safe_pos, some j.stream_format⟩, rfl, (Option.some.inj h).symm⟩

private theorem Sound.writeHead (h : j.Sound) (hrun : j.writeHead = some j') : j'.Sound ∧ j'.safe_pos = j.safe_pos := by
  obtain ⟨hd, hpos, rfl⟩ := writeHead_cases hrun
  have hgood : hd.write_pos ∈ j.bounds := hpos ▸ h.tracked.safe_good
  refine ⟨h.heads ?_ ?_, rfl⟩
  · exact forall_mem_cons.2 ⟨.inr hgood, fun hd' hmem => h.last_mem hd' (mem_cons_of_mem _ hmem)⟩
  · exact forall_mem_append.2 ⟨h.heads_mem, forall_mem_singleton.2 hgood⟩

theorem flush_cases {write_head_needed : Bool} (h : j.flush onsafe write_head_needed = some j') :
    ∃ j1, ((j.write_pos = j.flush_pos ∧ j.write_buf = [] ∧ ∃ f, (f ≠ [] → onsafe ≠ none) ∧ (∀ w ∈ f, w.upTo = j.write_pos) ∧
        j1 = { j with finished := j.finished ++ f }) ∨
      ∃ j2, j.doFlush 0 = some j2 ∧ j2.waitForFlush onsafe = some j1) ∧ (j' = j1 ∨ j1.writeHead = some j') := by
  obtain ⟨j1, hflushed, h⟩ := Option.bind_eq_some_iff.1 h
  refine ⟨j1, ?_, ?_⟩
  · split_ifs at hflushed with heq hbuf
    · refine .inl ⟨heq, by simpa using hbuf, (onsafe.map fun c => ⟨c, j.write_pos⟩).toList, ?_, fun w hw => ?_,
        (Option.some.inj hflushed).symm⟩
      · rintro hne rfl
        exact hne rfl
      · obtain ⟨c, -, rfl⟩ := Option.map_eq_some_iff.1 (Option.mem_toList.1 hw)
        rfl
    · exact .inr (Option.bind_eq_some_iff.1 hflushed)
  · split at h
    · exact .inr h
    · exact .inl (Option.some.inj h).symm

private theorem Sound.flush {write_head_needed : Bool} (h : j.Sound)
    (hrun : j.flush onsafe write_head_needed = some j') : j'.Sound ∧ j'.safe_pos = j.safe_pos := by
  obtain ⟨j1, hj1, hj'⟩ := flush_cases hrun
  have h1 : j1.Sound ∧ j1.safe_pos = j.safe_pos := by
    rcases hj1 with ⟨-, -, f, -, -, rfl⟩ | ⟨j2, hflush, hwait⟩
    · exact ⟨h, rfl⟩
    · obtain ⟨h2, hsafe⟩ := h.doFlush hflush
      exact (h2.waitForFlush hwait).imp_right (·.trans hsafe)
  rcases hj' with rfl | hhead
  · exact h1
  · exact (h1.1.writeHead hhead).imp_right (·.trans h1.2)

theorem written_cases {pos : ℕ} (h : j.step (.written pos) = some j') : ∃ w ∈ j.writes, w.pos = pos ∧
      let pending := j.pending_safe.filter (·.1 ≠ pos)
      let safe := lowest pending j.next_safe_pos
      j' = { j with
        writes := j.writes.filter (·.pos ≠ pos)
        written := j.written ++ [w]
        pending_safe := pending
        safe_pos := safe
        waitfor_safe := j.waitfor_safe.dropWhile (·.1 ≤ safe)
        finished := j.finished ++ (j.waitfor_safe.takeWhile (·.1 ≤ safe)).flatMap Prod.snd } := by
  rw [step] at h
  split at h
  · cases h
  rename_i w hw
  refine ⟨w, mem_of_find?_eq_some hw, by simpa using find?_some hw, ?_⟩
  unfold finishFlush at h
  split_ifs at h
  rw [← Option.some.inj h]
  cases filter (fun p => decide (p.1 ≠ pos)) j.pending_safe <;> rfl

private theorem Sound.written {pos : ℕ} (h : j.Sound) (hrun : j.step (.written pos) = some j') :
    j'.Sound ∧ j.safe_pos ≤ j'.safe_pos := by
  obtain ⟨w, hw, rfl, hj'⟩ := written_cases hrun
  subst hj'
  have hsub : (j.pending_safe.filter (·.1 ≠ w.pos)).Sublist j.pending_safe := filter_sublist
  -- the writes start at different positions
  have huniq : ∀ w' ∈ j.writes, w'.pos = w.pos → w' = w := by
    have hnodup : (j.writes.map Write.pos).Nodup := by
      rw [h.pending_eq]
      exact pairwise_map.2 (h.tracked.ordered.imp fun _ => by omega)
    exact fun w' hw' heq => inj_on_of_nodup_map hnodup hw' hw heq
  refine ⟨{ h with tracked := h.tracked.finish hsub, flushed := fun heq => ?_, pending_eq := ?_, waiters := ?_, covered := ?_, data := ?_ },
    h.tracked.le_lowest hsub⟩
  · have hnext := (h.flushed heq).1
    refine ⟨hnext, fun hnil => ?_⟩
    have hnil' : j.pending_safe.filter (·.1 ≠ w.pos) = [] := hnil
    rw [hnil']
    exact hnext
  · show (j.writes.filter (·.pos ≠ w.pos)).map Write.pos = (j.pending_safe.filter (·.1 ≠ w.pos)).map Prod.fst
    have h1 := filter_map (p := fun k => decide (k ≠ w.pos)) (f := Write.pos) (l := j.writes)
    have h2 := filter_map (p := fun k => decide (k ≠ w.pos)) (f := Prod.fst) (l := j.pending_safe)
    exact h1.symm.trans ((congrArg _ h.pending_eq).trans h2)
  · exact fun p hp => h.waiters p ((dropWhile_sublist _).subset hp)
  · intro b hlo hhi
    obtain ⟨w', hw', hb⟩ := h.covered b hlo hhi
    refine ⟨w', ?_, hb⟩
    by_cases heq : w'.pos = w.pos
    · rcases mem_append.1 hw' with hmem | hmem
      · rw [huniq w' hmem heq]
        simp
      · simp [hmem]
    · rcases mem_append.1 hw' with hmem | hmem
      · exact mem_append_left _ (mem_filter.2 ⟨hmem, decide_eq_true heq⟩)
      · simp [hmem]
  · obtain ⟨hpending, hdone⟩ := forall_mem_append.1 h.data
    exact forall_mem_append.2 ⟨fun w' hw' => hpending w' (mem_filter.1 hw').1,
      forall_mem_append.2 ⟨hdone, forall_mem_singleton.2 (hpending w hw)⟩⟩

theorem zeroed_cases {i : ℕ} (h : j.step (.zeroed i) = some j') :
    ∃ z p s, j' = { j with zeros := z, prezero_pos := p, pending_zero := s } ∨
      ∃ amount, Journaler.doFlush { j with zeros := z, prezero_pos := p, pending_zero := s } amount = some j' := by
  rw [step] at h
  split at h
  · cases h
  unfold finishPrezero at h
  dsimp only at h
  split_ifs at h
  · exact ⟨_, _, _, .inr ⟨_, h⟩⟩
  · exact ⟨_, _, _, .inl (Option.some.inj h).symm⟩
  · obtain ⟨s, -, rfl⟩ := Option.map_eq_some_iff.1 h
    exact ⟨_, j.prezero_pos, s, .inl rfl⟩

theorem headWritten_cases {i : ℕ} (h : j.step (.headWritten i) = some j') :
    ∃ hd ∈ j.heads, j' = { j with heads := j.heads.eraseIdx i, last_committed := hd } := by
  rw [step] at h
  split at h
  · cases h
  · rename_i hd hhd
    exact ⟨hd, mem_of_getElem? hhd, (Option.some.inj h).symm⟩

theorem Sound.step {ev : Event ι} (h : j.Sound) (hrun : j.step ev = some j') : j'.Sound ∧ j.safe_pos ≤ j'.safe_pos := by
  cases ev with
  | append bl =>
    obtain ⟨-, hrun⟩ := Option.ite_none_right_eq_some.1 hrun
    exact (h.appendEntry hrun).imp_right fun hkept => hkept.1.ge
  | flush onsafe write_head_needed => exact (h.flush hrun).imp_right Eq.ge
  | waitForFlush onsafe => exact (h.waitForFlush hrun).imp_right Eq.ge
  | writeHead => exact (h.writeHead hrun).imp_right Eq.ge
  | written pos => exact h.written hrun
  | zeroed i =>
    obtain ⟨z, p, s, rfl | ⟨amount, hflush⟩⟩ := zeroed_cases hrun
    · exact ⟨h, le_refl _⟩
    · exact (Sound.doFlush (j := { j with zeros := z, prezero_pos := p, pending_zero := s }) h hflush).imp_right Eq.ge
  | headWritten i =>
    obtain ⟨hd, hmem, rfl⟩ := headWritten_cases hrun
    refine ⟨h.heads ?_ fun hd' hmem' => h.heads_mem hd' (mem_of_mem_eraseIdx hmem'), le_refl _⟩
    exact forall_mem_cons.2 ⟨h.last_mem _ mem_cons_self, forall_mem_singleton.2 (.inr (h.heads_mem hd hmem))⟩

theorem sound_create (ι : Type) (period prezero_periods : ℕ) (f : StreamFormat) : (create ι period prezero_periods f).Sound := by
  have hmem : period ∈ [period] := mem_singleton.2 rfl
  refine ⟨rfl, ⟨le_refl _, le_refl _⟩, drop_nil.symm, hmem, fun b hb => (mem_singleton.1 hb).le, tracked_nil hmem,
    fun _ => ⟨rfl, fun _ => rfl⟩, rfl, fun p hp => absurd hp not_mem_nil, fun b hlo hhi => ?_,
    fun w hw => absurd hw not_mem_nil, fun hd hmem => .inl ?_, fun hd hmem => absurd hmem not_mem_nil⟩
  · have hlo' : period ≤ b := hlo
    have hhi' : b < period := hhi
    omega
  · have hmem' : hd ∈ [{}, {}] := hmem
    simpa using hmem'

end Journaler

open Journaler in
/-- In every run everything below `safe_pos` was written as it was appended, the positions are in order, `safe_pos` never decreases,
and it, the positions kept for it and those in the heads that are or were written are ends of entries. -/
theorem safe_pos_honest (ι : Type) (period prezero_periods : ℕ) (f : StreamFormat) (es : List (Event ι)) (j : Journaler ι)
    (hrun : exec step (create ι period prezero_periods f) es = some j) :
    (∀ b, j.start ≤ b → b < j.safe_pos → Holds j.written b) ∧
    (∀ w ∈ j.written, w.data <+: j.stream.drop (w.pos - j.start)) ∧
    j.safe_pos ≤ j.flush_pos ∧ j.flush_pos ≤ j.write_pos ∧
    (∀ ev j', j.step ev = some j' → j.safe_pos ≤ j'.safe_pos) ∧
    j.next_safe_pos ∈ j.bounds ∧ (∀ p ∈ j.pending_safe, p.2 ∈ j.bounds) ∧ j.safe_pos ∈ j.bounds ∧
    (∀ h ∈ j.heads, h.write_pos ∈ j.bounds) ∧ ∀ h ∈ [j.last_written, j.last_committed], h = {} ∨ h.write_pos ∈ j.bounds := by
  have h : j.Sound := exec_invariant_all (fun s e t hs ht => (hs.step ht).1) (sound_create ι period prezero_periods f) hrun
  have h1 := h.tracked.safe_le
  have h2 := h.tracked.next_le
  exact ⟨fun b hlo hhi => h.holds_written hlo hhi, fun w hw => (h.data w (mem_append_right _ hw)).2, by omega, h.flush_range.2,
    fun ev j' hstep => (h.step hstep).2, h.tracked.next_good, h.tracked.pending_good, h.tracked.safe_good, h.heads_mem, h.last_mem⟩

open Journaler in
theorem safe_pos_honest_outOfOrder : ∃ j, exec step (create Unit 8 2 .legacy)
      [.append [1, 2, 3, 4], .flush none true, .zeroed 0, .zeroed 0, .append [5, 6, 7, 8], .zeroed 0, .zeroed 0, .flush none false,
        .written 16] = some j ∧ j.safe_pos ∈ j.bounds ∧ j.safe_pos < j.flush_pos := by
  have hrun := show (exec step (create Unit 8 2 .legacy)
      [.append [1, 2, 3, 4], .flush none true, .zeroed 0, .zeroed 0, .append [5, 6, 7, 8], .zeroed 0, .zeroed 0, .flush none false,
        .written 16]).any (fun j => j.safe_pos < j.flush_pos) = true by decide +kernel
  obtain ⟨j, hj, hlt⟩ := (Option.any_eq_true _ _).1 hrun
  exact ⟨j, hj, (safe_pos_honest Unit 8 2 .legacy _ j hj).2.2.2.2.2.2.2.1, of_decide_eq_true hlt⟩

end Lunule.Osdc
