import Lunule.Purge.Basic
import Lunule.Lib.RangeMap
import Lunule.Lib.Watermark

/-!
# Expiring the journal of the purge queue

Entries are consumed in order and complete in any order; `expire_pos` is a mark in the sense of `Watermark`: below it no item is
unfinished. So an entry whose removals have not all completed lies after `expire_pos`, and after every position in a head that
was written or is being written. After a crash it is read again.
-/

namespace Lunule.Purge
open Std (ExtTreeMap)
open RangeMap Exec Watermark List
variable {pq pq' : PurgeQueue} {e : Entry} {rest : List Entry}

private theorem PurgeItem.removals_of_valid {item : PurgeItem} (h : item.Valid) (metadata_pool : ℤ) :
    ∃ r rs, item.removals metadata_pool = some (r :: rs) := by
  suffices hne : ∃ l, item.removals metadata_pool = some l ∧ l ≠ [] by
    obtain ⟨l, hl, hne⟩ := hne
    obtain ⟨r, rs, rfl⟩ := exists_cons_of_ne_nil hne
    exact ⟨r, rs, hl⟩
  unfold PurgeItem.removals
  rcases h with h | h | h
  · rw [h]
    refine ⟨_, rfl, ?_⟩
    -- without data there is the backtrace
    by_cases hsize : 0 < item.size <;> simp [hsize]
  · rw [h]
    exact ⟨_, rfl, by simp⟩
  · rw [h]
    exact ⟨_, rfl, by simp⟩

private theorem PurgeItem.removals_of_not_valid {item : PurgeItem} (h : ¬item.Valid) (metadata_pool : ℤ) :
    item.removals metadata_pool = none := by
  unfold PurgeItem.Valid at h
  unfold PurgeItem.removals
  cases haction : item.action <;> simp_all

def Item (journal : List Entry) (k : ℕ) : Prop := ∃ e ∈ journal, e.stop = k ∧ e.item.Valid

def Between (journal : List Entry) (pos : ℕ) : Prop := ∀ e ∈ journal, e.stop ≤ pos ∨ pos ≤ e.start

/-- What holds in every state; `marks` are the positions of the heads. -/
structure Sound (journal : List Entry) (write_pos safe_pos read_pos expire_pos : ℕ) (marks : List ℕ)
    (in_flight : ExtTreeMap ℕ InFlight) (purged : List ℕ) : Prop where
  sep : Sep Entry.start Entry.stop journal
  le_write : ∀ e ∈ journal, e.stop ≤ write_pos
  safe_le : safe_pos ≤ write_pos
  read_le : read_pos ≤ safe_pos
  read_between : Between journal read_pos
  safe_between : Between journal safe_pos
  marks_le : ∀ m ∈ expire_pos :: marks, m ≤ expire_pos
  marks_between : ∀ m ∈ expire_pos :: marks, Between journal m
  entry_of_mem : ∀ k ∈ in_flight, ∃ e ∈ journal, e.stop = k
  purged_of_empty : ∀ k f, in_flight[k]? = some f → f.outstanding = [] → k ∈ purged
  covered : Covered (Item journal) (· ∈ purged) (· ∈ in_flight) expire_pos read_pos

def PurgeQueue.Sound (pq : PurgeQueue) : Prop :=
  Purge.Sound pq.journal pq.write_pos pq.safe_pos pq.read_pos pq.expire_pos (pq.committed :: pq.heads) pq.in_flight pq.purged

private theorem Between.stop {journal : List Entry} (h : Sep Entry.start Entry.stop journal) (he : e ∈ journal) :
    Between journal e.stop := by
  intro e' he'
  obtain ⟨before, after, rfl⟩ := append_of_mem he
  obtain ⟨-, hafter, hcross⟩ := sep_append.1 h
  rcases mem_append.1 he' with h' | h'
  · have h1 := hcross e' h' e (by simp)
    have h2 := h.pos e he
    exact .inl (by omega)
  · rcases mem_cons.1 h' with rfl | h'
    · exact .inl (le_refl _)
    · exact .inr ((sep_cons.1 hafter).2.1 e' h')

namespace PurgeQueue
section
variable (h : pq.Sound)
include h

namespace Sound

private theorem unread_cons (hunread : pq.unread = e :: rest) :
    e ∈ pq.journal ∧ pq.read_pos < e.stop ∧ e.stop ≤ pq.safe_pos ∧
      (∀ e' ∈ pq.journal, pq.read_pos < e'.stop → e.stop ≤ e'.stop) ∧
        ({ pq with read_pos := e.stop } : PurgeQueue).unread = rest := by
  have hmem : e ∈ pq.unread := by simp [hunread]
  obtain ⟨hjournal, hrange⟩ := mem_filter.1 hmem
  obtain ⟨hread, hsafe⟩ := of_decide_eq_true hrange
  have hordered : (e :: rest).Pairwise fun a b => a.stop ≤ b.start := by
    rw [← hunread]
    exact h.sep.apart.sublist filter_sublist
  have hafter : ∀ e' ∈ rest, e.stop < e'.stop := by
    intro e' he'
    have h1 := (pairwise_cons.1 hordered).1 e' he'
    have h2 : e' ∈ pq.unread := by simp [hunread, he']
    have h3 := h.sep.pos e' (mem_filter.1 h2).1
    omega
  refine ⟨hjournal, hread, hsafe, fun e' he' hlt => ?_, ?_⟩
  · by_cases hsafe' : e'.stop ≤ pq.safe_pos
    · have : e' ∈ e :: rest := by
        rw [← hunread]
        exact mem_filter.2 ⟨he', decide_eq_true ⟨hlt, hsafe'⟩⟩
      rcases mem_cons.1 this with rfl | he'
      · exact le_refl _
      · exact (hafter e' he').le
    · omega
  · have hfilter : ({ pq with read_pos := e.stop } : PurgeQueue).unread =
        pq.unread.filter fun e' => e.stop < e'.stop := by
      unfold unread
      rw [filter_filter]
      refine filter_congr fun e' _ => ?_
      rw [Bool.eq_iff_iff, Bool.and_eq_true, decide_eq_true_eq, decide_eq_true_eq, decide_eq_true_eq]
      dsimp only
      omega
    rw [hfilter, hunread, filter_cons_of_neg (by simp)]
    exact filter_eq_self.2 fun e' he' => decide_eq_true (hafter e' he')

private theorem executeItem (hunread : pq.unread = e :: rest) :
    ∃ pq', PurgeQueue.executeItem { pq with read_pos := e.stop } e.item e.stop = some pq' ∧ pq'.Sound ∧ pq'.unread = rest ∧
      (e.item.Valid → e.stop ∈ pq'.in_flight) := by
  obtain ⟨hjournal, hread, hsafe, hfirst, hrest⟩ := h.unread_cons hunread
  have hnext : ∀ j, Item pq.journal j → pq.read_pos < j → e.stop ≤ j := by
    rintro j ⟨e', he', rfl, -⟩ hlt
    exact hfirst e' he' hlt
  have hbetween := Between.stop h.sep hjournal
  unfold PurgeQueue.executeItem
  by_cases hvalid : e.item.Valid
  · obtain ⟨r, rs, hremovals⟩ := PurgeItem.removals_of_valid hvalid pq.metadata_pool
    rw [hremovals]
    refine ⟨_, rfl, { h with
      read_le := hsafe
      read_between := hbetween
      entry_of_mem := fun k hk => ?_
      purged_of_empty := fun k f hf hempty => ?_
      covered := ?_ }, hrest, fun _ => ?_⟩
    · rcases ExtTreeMap.mem_insert.1 hk with heq | hk
      · exact ⟨e, hjournal, Nat.compare_eq_eq.1 heq⟩
      · exact h.entry_of_mem k hk
    · rw [ExtTreeMap.getElem?_insert] at hf
      split at hf
      · cases hf
        cases hempty
      · exact h.purged_of_empty k f hf hempty
    · refine (h.covered.start hread hnext).imp (fun k hk _ => hk) (fun k hk => hk) fun k => ?_
      rw [ExtTreeMap.mem_insert, Nat.compare_eq_eq, eq_comm]
    · exact ExtTreeMap.mem_insert_self
  · rw [PurgeItem.removals_of_not_valid hvalid]
    have hnot : e.stop ∉ pq.in_flight := fun hk => by
      have := h.covered.le_of_active _ hk
      omega
    have hnone : ¬Item pq.journal e.stop := by
      rintro ⟨e', he', heq, hvalid'⟩
      have h1 := h.sep.pos e hjournal
      have h2 := h.sep.pos e' he'
      have heq' : e' = e := h.sep.eq_of_mem (k := e.stop - 1) he' hjournal ⟨by omega, by omega⟩ ⟨by omega, by omega⟩
      exact hvalid (heq' ▸ hvalid')
    refine ⟨_, rfl, { h with
      read_le := hsafe
      read_between := hbetween
      entry_of_mem := fun k hk => ?_
      purged_of_empty := fun k f hf hempty => ?_
      covered := ?_ }, hrest, fun hvalid' => absurd hvalid' hvalid⟩
    · exact h.entry_of_mem k (ExtTreeMap.mem_of_mem_erase hk)
    · rw [ExtTreeMap.getElem?_erase] at hf
      obtain ⟨-, hf⟩ := Option.ite_none_left_eq_some.1 hf
      exact h.purged_of_empty k f hf hempty
    · refine (h.covered.skip hread hnone hnext).imp (fun k hk _ => hk) (fun k hk => hk) fun k => ?_
      rw [ExtTreeMap.mem_erase]
      refine ⟨fun hk => hk.2, fun hk => ⟨fun heq => ?_, hk⟩⟩
      exact hnot (Nat.compare_eq_eq.1 heq ▸ hk)

private theorem consumeLoop {l : List Entry} (hl : l <+: pq.unread) :
    ∃ pq', PurgeQueue.consumeLoop l pq = some pq' ∧ pq'.Sound := by
  induction l generalizing pq with
  | nil => exact ⟨pq, rfl, h⟩
  | cons e l ih =>
    rw [PurgeQueue.consumeLoop]
    split
    · obtain ⟨rest, hrest⟩ := hl
      obtain ⟨pq', hexec, hsound, hunread, -⟩ := h.executeItem hrest.symm
      rw [hexec]
      exact ih hsound (hunread ▸ prefix_append _ _)
    · exact ⟨pq, rfl, h⟩

private theorem consume (readable : ℕ) :
    ∃ pq', pq.consume readable = some pq' ∧ pq'.Sound := h.consumeLoop <| take_prefix _ _

private theorem push (item : PurgeItem) {len : ℕ} (hlen : 0 < len) : (pq.push item len).Sound := by
  have hnew : ∀ pos ≤ pq.write_pos, Between pq.journal pos →
      Between (pq.journal ++ [⟨pq.write_pos, pq.write_pos + len, item⟩]) pos := by
    intro pos hle hbetween
    exact forall_mem_append.2 ⟨hbetween, forall_mem_singleton.2 (.inr hle)⟩
  have hsafe := h.safe_le
  have hread := h.read_le
  have hexpire := h.covered.mark_le
  refine ⟨sep_append.2 ⟨h.sep, sep_cons.2 ⟨?_, ?_, sep_nil⟩, ?_⟩, ?_, ?_, h.read_le,
    hnew pq.read_pos (by omega) h.read_between, hnew _ h.safe_le h.safe_between, h.marks_le, fun m hm => ?_, ?_, h.purged_of_empty, ?_⟩
  · show pq.write_pos < pq.write_pos + len
    omega
  · exact fun e he => absurd he not_mem_nil
  · intro e he _ he'
    rw [mem_singleton.1 he']
    exact h.le_write e he
  · intro e he
    show e.stop ≤ pq.write_pos + len
    rcases mem_append.1 he with he | he
    · have := h.le_write e he
      omega
    · rw [mem_singleton.1 he]
  · show pq.safe_pos ≤ pq.write_pos + len
    omega
  · have := h.marks_le m hm
    exact hnew m (by omega) (h.marks_between m hm)
  · intro k hk
    obtain ⟨e, he, heq⟩ := h.entry_of_mem k hk
    exact ⟨e, mem_append_left _ he, heq⟩
  · refine h.covered.imp ?_ (fun k hk => hk) fun k => Iff.rfl
    rintro k ⟨e, he, heq, hvalid⟩ hle
    rcases mem_append.1 he with he | he
    · exact ⟨e, he, heq, hvalid⟩
    · rw [mem_singleton.1 he] at heq
      dsimp only at heq
      omega

private theorem removed {expire_to i : ℕ} (hrun : pq.removed expire_to i = some pq') : pq'.Sound := by
  unfold PurgeQueue.removed at hrun
  split at hrun
  · cases hrun
  rename_i f hf
  have hmem : expire_to ∈ pq.in_flight := by
    rw [ExtTreeMap.mem_iff_isSome_getElem?, hf]
    rfl
  split at hrun
  · cases hrun
    have hgrow : ∀ k ∈ pq.purged, k ∈ if f.outstanding.eraseIdx i = [] then expire_to :: pq.purged else pq.purged := by
      intro k hk
      split
      · exact mem_cons_of_mem _ hk
      · exact hk
    refine { h with entry_of_mem := fun k hk => ?_, purged_of_empty := fun k f' hf' hempty => ?_, covered := ?_ }
    · rcases ExtTreeMap.mem_insert.1 hk with heq | hk
      · exact h.entry_of_mem k (Nat.compare_eq_eq.1 heq ▸ hmem)
      · exact h.entry_of_mem k hk
    · rw [ExtTreeMap.getElem?_insert] at hf'
      split at hf'
      · rename_i heq
        cases hf'
        rw [if_pos hempty, ← Nat.compare_eq_eq.1 heq]
        exact mem_cons_self
      · exact hgrow k (h.purged_of_empty k f' hf' hempty)
    · refine h.covered.imp (fun k hk _ => hk) hgrow fun k => ?_
      rw [ExtTreeMap.mem_insert, Nat.compare_eq_eq]
      exact ⟨fun hk => hk.elim (fun heq => heq ▸ hmem) id, .inr⟩
  · cases hrun

private theorem executeItemComplete {expire_to : ℕ} (hdone : expire_to ∈ pq.purged)
    (hrun : pq.executeItemComplete expire_to = some pq') : pq'.Sound := by
  unfold PurgeQueue.executeItemComplete at hrun
  split at hrun
  · cases hrun
  rename_i f hf
  cases hrun
  have hmem : expire_to ∈ pq.in_flight := by
    rw [ExtTreeMap.mem_iff_isSome_getElem?, hf]
    rfl
  have hactive : ∀ k, k ∈ pq.in_flight.erase expire_to ↔ k ≠ expire_to ∧ k ∈ pq.in_flight := by
    intro k
    rw [ExtTreeMap.mem_erase, ne_eq, Nat.compare_eq_eq, eq_comm]
  have hentry : ∀ k ∈ pq.in_flight.erase expire_to, ∃ e ∈ pq.journal, e.stop = k := fun k hk =>
    h.entry_of_mem k ((hactive k).1 hk).2
  have hempty : ∀ k f, (pq.in_flight.erase expire_to)[k]? = some f → f.outstanding = [] → k ∈ pq.purged := by
    intro k f' hf' hempty
    rw [ExtTreeMap.getElem?_erase] at hf'
    split at hf'
    · cases hf'
    · exact h.purged_of_empty k f' hf' hempty
  by_cases hmin : pq.in_flight.minKey? = some expire_to
  · have hlow : ∀ k ∈ pq.in_flight, expire_to ≤ k := fun k hk => by
      have := (ExtTreeMap.minKey?_eq_some_iff_mem_and_forall.1 hmin).2 k hk
      exact Nat.isLE_compare.1 this
    have hlt := h.covered.lt_of_active expire_to hmem
    obtain ⟨e, he, rfl⟩ := h.entry_of_mem expire_to hmem
    rw [if_pos hmin]
    obtain ⟨-, hmarks⟩ := forall_mem_cons.1 h.marks_le
    exact { h with
      marks_le := forall_mem_cons.2 ⟨le_refl _, fun m hm => (hmarks m hm).trans hlt.le⟩
      marks_between := forall_mem_cons.2 ⟨Between.stop h.sep he, (forall_mem_cons.1 h.marks_between).2⟩
      entry_of_mem := hentry
      purged_of_empty := hempty
      covered := (h.covered.finish_lowest hmem hdone hlow).imp (fun k hk _ => hk) (fun k hk => hk) hactive }
  · show Purge.Sound _ _ _ _ (if pq.in_flight.minKey? = some expire_to then expire_to else pq.expire_pos) _ _ _
    rw [if_neg hmin]
    exact { h with
      entry_of_mem := hentry
      purged_of_empty := hempty
      covered := (h.covered.finish hdone).imp (fun k hk _ => hk) (fun k hk => hk) hactive }

private theorem marks {marks : List ℕ} (hsub : marks ⊆ pq.expire_pos :: pq.committed :: pq.heads) :
    Purge.Sound pq.journal pq.write_pos pq.safe_pos pq.read_pos pq.expire_pos marks pq.in_flight pq.purged := by
  have hsub' := cons_subset.2 ⟨mem_cons_self, hsub⟩
  exact { h with
    marks_le := fun m hm => h.marks_le m (hsub' hm)
    marks_between := fun m hm => h.marks_between m (hsub' hm) }

private theorem writeHead : pq.writeHead.Sound := by
  refine h.marks fun m hm => ?_
  have hm' : m ∈ pq.committed :: (pq.heads ++ [pq.expire_pos]) := hm
  simp only [mem_cons, mem_append] at hm' ⊢
  tauto

private theorem complete {expire_to readable : ℕ} {write_head_needed : Bool}
    (hrun : pq.complete expire_to readable write_head_needed = some pq') : pq'.Sound := by
  unfold PurgeQueue.complete at hrun
  split at hrun
  · rename_i item hf
    obtain ⟨pq2, hbind, rfl⟩ := Option.map_eq_some_iff.1 hrun
    obtain ⟨pq1, hcomplete, hconsume⟩ := Option.bind_eq_some_iff.1 hbind
    have h1 := h.executeItemComplete (h.purged_of_empty _ _ hf rfl) hcomplete
    obtain ⟨pq2', hconsume', h2⟩ := h1.consume readable
    cases hconsume.symm.trans hconsume'
    split
    · exact h2.writeHead
    · exact h2
  · cases hrun

private theorem recover {head stop : ℕ} (hhead : head ∈ pq.committed :: pq.heads) (hsafe : pq.safe_pos ≤ stop)
    (hstop : pq.Boundary stop) : (pq.recover head stop).Sound := by
  have hle := h.marks_le head (mem_cons_of_mem _ hhead)
  have hexpire := h.covered.mark_le
  have hread := h.read_le
  have hsub : pq.journal.filter (fun e => e.stop ≤ stop) ⊆ pq.journal := filter_subset_self _
  have hbetween : ∀ pos, Between pq.journal pos → Between (pq.journal.filter fun e => e.stop ≤ stop) pos := fun pos h e he =>
    h e (hsub he)
  have hhead' := hbetween head (h.marks_between head (mem_cons_of_mem _ hhead))
  refine ⟨⟨h.sep.apart.sublist filter_sublist, fun e he => h.sep.pos e (hsub he)⟩,
    fun e he => of_decide_eq_true (mem_filter.1 he).2, le_refl _, ?_, hhead', hbetween stop hstop.2,
    fun m hm => ?_, fun m hm => ?_, fun k hk => absurd hk ExtTreeMap.not_mem_empty, fun k f hf => ?_, ?_⟩
  · show head ≤ stop
    omega
  · have hm' : m ∈ [head, head] := hm
    simp only [mem_cons, not_mem_nil, or_false, or_self] at hm'
    exact hm'.le
  · have hm' : m ∈ [head, head] := hm
    simp only [mem_cons, not_mem_nil, or_false, or_self] at hm'
    rw [hm']
    exact hhead'
  · have hf' : (∅ : ExtTreeMap ℕ InFlight)[k]? = some f := hf
    rw [ExtTreeMap.getElem?_empty] at hf'
    cases hf'
  · have hrestart : Covered (Item (pq.journal.filter fun e => e.stop ≤ stop)) (· ∈ pq.purged) (fun _ => False) head head := by
      refine Covered.restart ?_
      rintro k ⟨e, he, heq, hvalid⟩ hk
      exact h.covered.done_of_le ⟨e, hsub he, heq, hvalid⟩ (hk.trans hle)
    exact hrestart.imp (fun k hk _ => hk) (fun k hk => hk) fun k => ⟨fun hk => ExtTreeMap.not_mem_empty hk, False.elim⟩

private theorem step {ev : Event} (hrun : pq.step ev = some pq') : pq'.Sound := by
  cases ev with
  | push item len readable =>
    obtain ⟨hlen, hrun⟩ := Option.ite_none_right_eq_some.1 hrun
    obtain ⟨pq2, hconsume, h2⟩ := (h.push item hlen).consume readable
    cases hrun.symm.trans hconsume
    exact h2
  | safe pos =>
    obtain ⟨hpos, hrun⟩ := Option.ite_none_right_eq_some.1 hrun
    cases hrun
    exact { h with safe_le := hpos.2.1, read_le := h.read_le.trans hpos.1, safe_between := hpos.2.2 }
  | consume readable =>
    obtain ⟨pq2, hconsume, h2⟩ := h.consume readable
    cases hrun.symm.trans hconsume
    exact h2
  | removed expire_to i => exact h.removed hrun
  | complete expire_to readable write_head_needed => exact h.complete hrun
  | writeHead =>
    cases hrun
    exact h.writeHead
  | headWritten =>
    rw [PurgeQueue.step] at hrun
    split at hrun
    · cases hrun
    rename_i head heads hheads
    cases hrun
    refine h.marks ?_
    rw [hheads]
    exact fun m hm => mem_cons_of_mem _ (mem_cons_of_mem _ hm)
  | limits =>
    cases hrun
    exact h
  | crash head stop =>
    obtain ⟨hcrash, hrun⟩ := Option.ite_none_right_eq_some.1 hrun
    cases hrun
    exact h.recover hcrash.1 hcrash.2.1 hcrash.2.2

end Sound
end

private theorem sound_create (metadata_pool : ℤ) (pos max_purge_ops filer_max_purge_ops mds_max_purge_files : ℕ) :
    (create metadata_pool pos max_purge_ops filer_max_purge_ops mds_max_purge_files).Sound := by
  have hmarks : ∀ m ∈ [pos, pos], m = pos := by simp
  refine ⟨sep_nil, fun e he => absurd he not_mem_nil, le_refl _, le_refl _, fun e he => absurd he not_mem_nil,
    fun e he => absurd he not_mem_nil, fun m hm => (hmarks m hm).le, fun m _ e he => absurd he not_mem_nil,
    fun k hk => absurd hk ExtTreeMap.not_mem_empty, fun k f hf => ?_, ?_⟩
  · have hf' : (∅ : ExtTreeMap ℕ InFlight)[k]? = some f := hf
    rw [ExtTreeMap.getElem?_empty] at hf'
    cases hf'
  · have hstart : Covered (Item []) (· ∈ []) (fun _ => False) pos pos := by
      refine Covered.restart ?_
      rintro k ⟨e, he, -⟩
      exact absurd he not_mem_nil
    exact hstart.imp (fun k hk _ => hk) (fun k hk => hk) fun k => ⟨fun hk => ExtTreeMap.not_mem_empty hk, False.elim⟩

def Unfinished (pq : PurgeQueue) (e : Entry) : Prop := e ∈ pq.journal ∧ e.item.Valid ∧ e.stop ∉ pq.purged

private theorem Sound.of_unfinished (h : pq.Sound) (he : pq.Unfinished e) :
    (∀ m ∈ pq.expire_pos :: pq.committed :: pq.heads, m ≤ e.start) ∧ e.stop ≤ pq.write_pos ∧
      (e.stop ∈ pq.in_flight ∨ pq.read_pos ≤ e.start) := by
  obtain ⟨hjournal, hvalid, hnot⟩ := he
  have hitem : Item pq.journal e.stop := ⟨e, hjournal, rfl, hvalid⟩
  refine ⟨fun m hm => ?_, h.le_write e hjournal, ?_⟩
  · rcases h.marks_between m hm e hjournal with hle | hle
    · exact absurd (h.covered.done_of_le hitem (hle.trans (h.marks_le m hm))) hnot
    · exact hle
  · rcases h.read_between e hjournal with hle | hle
    · rcases h.covered.settled e.stop hitem hle with hdone | hactive
      · exact absurd hdone hnot
      · exact .inl hactive
    · exact .inr hle

private theorem Sound.recover_unfinished {head stop : ℕ} (h : pq.Sound) (hhead : head ∈ pq.committed :: pq.heads)
    (hsafe : pq.safe_pos ≤ stop) (he : pq.Unfinished e) (hstop : e.stop ≤ pq.safe_pos) :
    (pq.recover head stop).Unfinished e ∧ (pq.recover head stop).expire_pos ≤ e.start ∧
      e.stop ≤ (pq.recover head stop).write_pos ∧ e ∈ (pq.recover head stop).unread := by
  have hle : head ≤ e.start := (h.of_unfinished he).1 head (mem_cons_of_mem _ hhead)
  have hpos := h.sep.pos e he.1
  have hjournal : e ∈ pq.journal.filter fun e => e.stop ≤ stop := mem_filter.2 ⟨he.1, decide_eq_true (hstop.trans hsafe)⟩
  refine ⟨⟨hjournal, he.2⟩, hle, hstop.trans hsafe, mem_filter.2 ⟨hjournal, decide_eq_true ⟨?_, hstop.trans hsafe⟩⟩⟩
  show head < e.stop
  omega

private theorem Sound.consume_next (h : pq.Sound) (hfiles : 0 < pq.mds_max_purge_files) (hidle : pq.in_flight.size = 0)
    (hunread : pq.unread = e :: rest) :
    ∃ pq', pq.consume 1 = some pq' ∧ pq'.unread = rest ∧ (e.item.Valid → e.stop ∈ pq'.in_flight) := by
  obtain ⟨pq', hexec, -, hrest, hflight⟩ := h.executeItem hunread
  refine ⟨pq', ?_, hrest, hflight⟩
  have hcan : pq.canConsume = true := by
    unfold canConsume
    rw [if_pos ⟨hidle, hfiles⟩]
  unfold PurgeQueue.consume
  rw [hunread]
  show PurgeQueue.consumeLoop [e] pq = _
  rw [PurgeQueue.consumeLoop, if_pos hcan, hexec]
  rfl

end PurgeQueue

open PurgeQueue in
/-- In every run an entry whose removals have not all completed lies after `expire_pos` and every head, and is in flight or
unread. After a crash it is unread, and unread entries are executed in order. -/
theorem no_item_forgotten (metadata_pool : ℤ) (pos max_purge_ops filer_max_purge_ops mds_max_purge_files : ℕ)
    (es : List Event) (pq : PurgeQueue)
    (hrun : exec step (create metadata_pool pos max_purge_ops filer_max_purge_ops mds_max_purge_files) es = some pq) :
    (∀ e, pq.Unfinished e → (∀ m ∈ pq.expire_pos :: pq.committed :: pq.heads, m ≤ e.start) ∧ e.stop ≤ pq.write_pos ∧
      (e.stop ∈ pq.in_flight ∨ pq.read_pos ≤ e.start)) ∧
    (∀ head stop pq', pq.step (.crash head stop) = some pq' → ∀ e, pq.Unfinished e → e.stop ≤ pq.safe_pos →
      pq'.Unfinished e ∧ pq'.expire_pos ≤ e.start ∧ e.stop ≤ pq'.write_pos ∧ e ∈ pq'.unread) ∧
    (0 < pq.mds_max_purge_files → pq.in_flight.size = 0 → ∀ e rest, pq.unread = e :: rest →
      ∃ pq', pq.step (.consume 1) = some pq' ∧ pq'.unread = rest ∧ (e.item.Valid → e.stop ∈ pq'.in_flight)) := by
  have h : pq.Sound := exec_invariant_all (fun s e t hs ht => hs.step ht) (sound_create _ _ _ _ _) hrun
  refine ⟨fun e he => h.of_unfinished he, fun head stop pq' hcrash e he hsafe => ?_, fun hfiles hidle e rest hunread => ?_⟩
  · rw [step] at hcrash
    obtain ⟨hok, hcrash⟩ := Option.ite_none_right_eq_some.1 hcrash
    cases hcrash
    exact h.recover_unfinished hok.1 hok.2.1 he hsafe
  · exact h.consume_next hfiles hidle hunread

private def smallFile : PurgeItem where
  action := .purgeFile
  ino := 1
  size := 8
  layout := ⟨4, 1, 4, by decide, by decide, by decide, by decide⟩
  pool_id := 1
  pool_ns := ""
  old_pools := []
  leaves := []

open PurgeQueue in
theorem no_item_forgotten_outOfOrder : ∃ pq e, exec step (create 0 0 10 10 10)
      [.push smallFile 10 0, .push smallFile 10 0, .safe 20, .consume 2, .removed 20 0, .complete 20 0 true, .headWritten] = some pq ∧
      pq.Unfinished e ∧ pq.expire_pos ≤ e.start ∧ (e.stop ∈ pq.in_flight ∨ pq.read_pos ≤ e.start) := by
  have hrun := show (exec step (create 0 0 10 10 10)
      [.push smallFile 10 0, .push smallFile 10 0, .safe 20, .consume 2, .removed 20 0, .complete 20 0 true,
        .headWritten]).any (fun pq => pq.journal.any fun e => e.item.Valid ∧ e.stop ∉ pq.purged) = true by decide +kernel
  obtain ⟨pq, hpq, hany⟩ := (Option.any_eq_true _ _).1 hrun
  obtain ⟨e, he, hopen⟩ := any_eq_true.1 hany
  have hunfinished : pq.Unfinished e := ⟨he, of_decide_eq_true hopen⟩
  obtain ⟨hmarks, -, hflight⟩ := (no_item_forgotten 0 0 10 10 10 _ pq hpq).1 e hunfinished
  exact ⟨pq, e, hpq, hunfinished, hmarks pq.expire_pos (by simp), hflight⟩

open PurgeQueue in
/-- In every run the positions are in order, and the entries in flight end after `expire_pos` and up to `read_pos`. -/
theorem positions_in_order (metadata_pool : ℤ) (pos max_purge_ops filer_max_purge_ops mds_max_purge_files : ℕ)
    (es : List Event) (pq : PurgeQueue)
    (hrun : exec step (create metadata_pool pos max_purge_ops filer_max_purge_ops mds_max_purge_files) es = some pq) :
    (∀ head ∈ pq.committed :: pq.heads, head ≤ pq.expire_pos) ∧ pq.expire_pos ≤ pq.read_pos ∧ pq.read_pos ≤ pq.safe_pos ∧
      pq.safe_pos ≤ pq.write_pos ∧ ∀ k ∈ pq.in_flight, pq.expire_pos < k ∧ k ≤ pq.read_pos := by
  have h : pq.Sound := exec_invariant_all (fun s e t hs ht => hs.step ht) (sound_create _ _ _ _ _) hrun
  exact ⟨fun m hm => h.marks_le m (mem_cons_of_mem _ hm), h.covered.mark_le, h.read_le, h.safe_le,
    fun k hk => ⟨h.covered.lt_of_active k hk, h.covered.le_of_active k hk⟩⟩

open PurgeQueue in
/-- Five entries, of which four are safe and three read; the second completes before the first, each with a head, and the
third is in flight. -/
theorem positions_in_order_outOfOrder : ∃ pq, exec step (create 0 0 10 10 10)
      [.push smallFile 10 0, .push smallFile 10 0, .push smallFile 10 0, .push smallFile 10 0, .push smallFile 10 0,
        .safe 40, .consume 3, .removed 20 0, .complete 20 0 true, .removed 10 0, .complete 10 0 true, .headWritten] = some pq ∧
      pq.heads.length = 1 ∧ (∀ head ∈ pq.committed :: pq.heads, head ≤ pq.expire_pos) ∧ pq.expire_pos < 30 ∧
      (pq.read_pos, pq.safe_pos, pq.write_pos) = (30, 40, 50) := by
  have hrun := show (exec step (create 0 0 10 10 10)
      [.push smallFile 10 0, .push smallFile 10 0, .push smallFile 10 0, .push smallFile 10 0, .push smallFile 10 0,
        .safe 40, .consume 3, .removed 20 0, .complete 20 0 true, .removed 10 0, .complete 10 0 true, .headWritten]).any
      (fun pq => pq.heads.length = 1 ∧ 30 ∈ pq.in_flight ∧
        (pq.read_pos, pq.safe_pos, pq.write_pos) = (30, 40, 50)) = true by decide +kernel
  obtain ⟨pq, hpq, hstate⟩ := (Option.any_eq_true _ _).1 hrun
  obtain ⟨hlen, hthird, hpos⟩ := of_decide_eq_true hstate
  obtain ⟨hheads, -, -, -, hflight⟩ := positions_in_order 0 0 10 10 10 _ pq hpq
  exact ⟨pq, hpq, hlen, hheads, (hflight 30 hthird).1, hpos⟩

end Lunule.Purge
