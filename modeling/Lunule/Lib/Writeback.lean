import Mathlib

/-!
# Writing back an ordered log

A log in memory is a list in the order of its keys, and its image on disk is a map. What has changed since the last
write is kept as marks only: everything up to `dirty_to`, everything from `dirty_from` on, what was added from
`writeout_from` on, and a set of keys trimmed off the front. `flush` first clears what the marks say may be stale and
then writes the entries they cover.

`Tracks` says that the marks cover the difference between the image and the list. `Tracks.change` is the one rule for
keeping it: the marks may only grow, each entry that is new must be covered, and each that is gone must be cleared.
`flush_eq_lookup` is the reason for it: after a flush the image is the list.
-/

namespace Lunule.Writeback
open List
variable {κ β : Type*} [LinearOrder κ]

/-- What has changed since the last write. -/
structure Marks (κ : Type*) where
  dirty_to : κ
  dirty_from : κ
  writeout_from : κ
  trimmed : Finset κ
deriving DecidableEq

namespace Marks
variable (m : Marks κ)

def markDirtyTo (k : κ) : Marks κ := { m with dirty_to := max m.dirty_to k }

def markDirtyFrom (k : κ) : Marks κ := { m with dirty_from := min m.dirty_from k }

def markWriteoutFrom (k : κ) : Marks κ := { m with writeout_from := min m.writeout_from k }

def markTrimmed (k : κ) : Marks κ := { m with trimmed := insert k m.trimmed }

def clean (lo hi : κ) : Marks κ := ⟨lo, hi, hi, ∅⟩

end Marks

def cleared (lo hi : κ) (m : Marks κ) (k : κ) : Bool :=
  (m.dirty_to ≠ lo ∧ lo ≤ k ∧ k < m.dirty_to) ∨
    (m.dirty_to ≠ hi ∧ m.dirty_from ≠ hi ∧ m.dirty_from ≤ k ∧ k < hi) ∨ k ∈ m.trimmed

/-- The entries that are written, in the order in which they are: forward up to `dirty_to`, then backward. -/
def written (key : β → κ) (m : Marks κ) (mem : List β) : List β :=
  mem.takeWhile (fun b => key b ≤ m.dirty_to) ++
    mem.reverse.takeWhile fun b =>
      (m.dirty_from ≤ key b ∨ m.writeout_from ≤ key b) ∧ m.dirty_to ≤ key b

/-- Write an entry under its key. -/
def put (key : β → κ) (stored : κ → Option β) (b : β) : κ → Option β := fun k => if k = key b then some b else stored k

/-- The image on disk after a write. -/
def flush (lo hi : κ) (key : β → κ) (m : Marks κ) (mem : List β) (stored : κ → Option β) : κ → Option β :=
  (written key m mem).foldl (put key) fun k => if cleared lo hi m k then none else stored k

/-- The image of a whole log. -/
def lookup (key : β → κ) (mem : List β) (k : κ) : Option β := mem.find? fun b => key b = k

def Marks.Covers (m : Marks κ) (k : κ) : Prop := k ≤ m.dirty_to ∨ m.dirty_from ≤ k ∨ m.writeout_from ≤ k

def Marks.Clears (m : Marks κ) (k : κ) : Prop := k < m.dirty_to ∨ m.dirty_from ≤ k ∨ k ∈ m.trimmed

/-- The marks cover the difference between the image and the list. -/
structure Tracks (lo hi : κ) (key : β → κ) (m : Marks κ) (stored : κ → Option β) (mem : List β) : Prop where
  live : ∀ b ∈ mem, (stored (key b) = some b ∧ key b ∉ m.trimmed) ∨ m.Covers (key b)
  dead : ∀ k, stored k ≠ none → (∃ b ∈ mem, key b = k) ∨ m.Clears k
  bound : ∀ k, stored k ≠ none → lo ≤ k ∧ k < hi

def Sorted (key : β → κ) (mem : List β) : Prop := mem.Pairwise fun a b => key a < key b

section
variable {key : β → κ} {m : Marks κ} {mem : List β} {stored : κ → Option β} {k : κ} {b : β}
  {p : α → Bool} {l : List α} {α : Type*} {a : β}

section
variable (h : Sorted key mem)
include h

private theorem Sorted.inj (ha : a ∈ mem) (hb : b ∈ mem) (hk : key a = key b) : a = b := by
  have hnd : (mem.map key).Nodup := pairwise_map.2 (h.imp fun {x y} (hlt : key x < key y) => hlt.ne)
  exact inj_on_of_nodup_map hnd ha hb hk

theorem Sorted.pairwise_le (k : κ) :
    mem.Pairwise fun a b => decide (key b ≤ k) = true → decide (key a ≤ k) = true :=
  List.Pairwise.imp (R := fun a b : β => key a < key b)
    (fun hlt hb => decide_eq_true (hlt.le.trans (of_decide_eq_true hb))) h

theorem Sorted.head_le (ha : mem.head? = some a) (hb : b ∈ mem) : key a ≤ key b := by
  cases mem with
  | nil => cases hb
  | cons c mem =>
    cases ha
    rcases mem_cons.1 hb with rfl | hb
    · exact le_refl _
    · exact ((pairwise_cons.1 h).1 b hb).le

theorem Sorted.le_getLast (ha : mem.getLast? = some a) (hb : b ∈ mem) : key b ≤ key a := by
  obtain ⟨front, rfl⟩ := List.getLast?_eq_some_iff.1 ha
  rcases mem_append.1 hb with hb | hb
  · exact ((pairwise_append.1 h).2.2 b hb a (by simp)).le
  · rw [mem_singleton.1 hb]

end

theorem takeWhile_eq_filter (h : l.Pairwise fun a b => p b → p a) : l.takeWhile p = l.filter p := by
  induction l with
  | nil => rfl
  | cons a l ih =>
    obtain ⟨ha, hl⟩ := pairwise_cons.1 h
    cases hpa : p a with
    | true => rw [takeWhile_cons_of_pos hpa, filter_cons_of_pos hpa, ih hl]
    | false =>
      have hnone : l.filter p = [] := by
        rw [filter_eq_nil_iff]
        intro b hb hpb
        rw [ha b hb hpb] at hpa
        cases hpa
      rw [takeWhile_cons_of_neg (by rw [hpa]; decide), filter_cons_of_neg (by rw [hpa]; decide), hnone]

theorem dropWhile_eq_filter (h : l.Pairwise fun a b => p b → p a) : l.dropWhile p = l.filter (!p ·) := by
  induction l with
  | nil => rfl
  | cons a l ih =>
    obtain ⟨ha, hl⟩ := pairwise_cons.1 h
    cases hpa : p a with
    | true =>
      rw [dropWhile_cons_of_pos hpa, filter_cons_of_neg (by rw [hpa]; decide), ih hl]
    | false =>
      have hall : l.filter (!p ·) = l := by
        rw [filter_eq_self]
        intro b hb
        cases hpb : p b with
        | true =>
          rw [ha b hb hpb] at hpa
          cases hpa
        | false => rfl
      rw [dropWhile_cons_of_neg (by rw [hpa]; decide), filter_cons_of_pos (by rw [hpa]; rfl), hall]

theorem rtakeWhile_eq_filter (h : l.Pairwise fun a b => p a → p b) : l.rtakeWhile p = l.filter p := by
  rw [List.rtakeWhile, takeWhile_eq_filter (pairwise_reverse.2 h), filter_reverse, reverse_reverse]

theorem rdropWhile_eq_filter (h : l.Pairwise fun a b => p a → p b) : l.rdropWhile p = l.filter (!p ·) := by
  rw [List.rdropWhile, dropWhile_eq_filter (pairwise_reverse.2 h), filter_reverse, reverse_reverse]

private theorem mem_written (h : Sorted key mem) : b ∈ written key m mem ↔ b ∈ mem ∧ m.Covers (key b) := by
  have hfore : mem.takeWhile (fun b => key b ≤ m.dirty_to) = mem.filter fun b => key b ≤ m.dirty_to := by
    refine takeWhile_eq_filter (h.imp ?_)
    intro x y (hlt : key x < key y) hy
    exact decide_eq_true (hlt.le.trans (of_decide_eq_true hy))
  have hback := takeWhile_eq_filter
    (p := fun b => (m.dirty_from ≤ key b ∨ m.writeout_from ≤ key b) ∧ m.dirty_to ≤ key b) (l := mem.reverse) (by
      refine (pairwise_reverse.2 (h.imp ?_))
      intro x y (hlt : key x < key y) hx
      obtain ⟨hor, hto⟩ := of_decide_eq_true hx
      exact decide_eq_true ⟨hor.imp (fun h => h.trans hlt.le) fun h => h.trans hlt.le, hto.trans hlt.le⟩)
  unfold written
  rw [hfore, hback, mem_append, mem_filter, mem_filter, mem_reverse, decide_eq_true_iff,
    decide_eq_true_iff, ← and_or_left]
  refine and_congr_right fun _ => ?_
  constructor
  · rintro (hle | ⟨hor, -⟩)
    · exact .inl hle
    · exact .inr hor
  intro hcov
  rcases le_total (key b) m.dirty_to with hle | hle
  · exact .inl hle
  · rcases hcov with hto | hor
    · exact .inl hto
    · exact .inr ⟨hor, hle⟩

private theorem foldl_put_of_notMem {ws : List β} (h : ∀ b ∈ ws, key b ≠ k) :
    ws.foldl (put key) stored k = stored k := by
  induction ws generalizing stored with
  | nil => rfl
  | cons w ws ih =>
    rw [foldl_cons, ih (forall_mem_cons.1 h).2]
    exact if_neg (h w (by simp)).symm

private theorem foldl_put_of_mem {ws : List β} (hb : b ∈ ws) (h : ∀ a ∈ ws, key a = key b → a = b) :
    ws.foldl (put key) stored (key b) = some b := by
  induction ws using List.reverseRecOn with
  | nil => cases hb
  | append_singleton ws w ih =>
    rw [List.foldl_append, foldl_cons, foldl_nil, put]
    split
    · rename_i hk
      rw [h w (by simp) hk.symm]
    rename_i hk
    have hmem : b ∈ ws := by
      rcases mem_append.1 hb with hws | hw
      · exact hws
      · rw [mem_singleton.1 hw] at hk
        exact absurd rfl hk
    exact ih hmem fun a ha => h a (mem_append_left _ ha)

theorem lookup_eq_some (h : Sorted key mem) (hb : b ∈ mem) : lookup key mem (key b) = some b := by
  unfold lookup
  cases hf : mem.find? fun a => key a = key b with
  | none => exact absurd (decide_eq_true rfl) (List.find?_eq_none.1 hf b hb)
  | some a =>
    have hk : key a = key b := of_decide_eq_true (List.find?_some (p := fun a => decide (key a = key b)) hf)
    rw [h.inj (List.mem_of_find?_eq_some hf) hb hk]

private theorem lookup_eq_none (h : ∀ b ∈ mem, key b ≠ k) : lookup key mem k = none :=
  List.find?_eq_none.2 fun b hb hk => h b hb (of_decide_eq_true hk)

end

section
variable {lo hi : κ} {key : β → κ} {m m' : Marks κ} {mem mem' new gone : List β} {stored : κ → Option β}

theorem flush_eq_lookup (ht : Tracks lo hi key m stored mem) (hs : Sorted key mem) :
    flush lo hi key m mem stored = lookup key mem := by
  funext k
  by_cases hk : ∃ b ∈ mem, key b = k
  · obtain ⟨b, hb, rfl⟩ := hk
    rw [lookup_eq_some hs hb]
    unfold flush
    by_cases hcov : m.Covers (key b)
    · refine foldl_put_of_mem ((mem_written hs).2 ⟨hb, hcov⟩) fun a ha hab => ?_
      exact hs.inj ((mem_written hs).1 ha).1 hb hab
    rw [foldl_put_of_notMem]
    · -- an entry that is not written is stored already, and no mark reaches it
      obtain ⟨hst, htrim⟩ := (ht.live b hb).resolve_right hcov
      unfold Marks.Covers at hcov
      push Not at hcov
      have hnot : cleared lo hi m (key b) = false := by
        refine decide_eq_false ?_
        rintro (⟨-, -, hlt⟩ | ⟨-, -, hle, -⟩ | hin)
        · exact absurd hlt hcov.1.not_gt
        · exact absurd hle hcov.2.1.not_ge
        · exact htrim hin
      rw [hnot]
      exact hst
    · intro a ha hab
      rw [hs.inj ((mem_written hs).1 ha).1 hb hab] at ha
      exact hcov ((mem_written hs).1 ha).2
  · push Not at hk
    rw [lookup_eq_none hk]
    unfold flush
    rw [foldl_put_of_notMem fun b hb => hk b ((mem_written hs).1 hb).1]
    by_contra hne
    have hstored : stored k ≠ none := by
      intro hnone
      rw [hnone, ite_self] at hne
      exact hne rfl
    obtain ⟨hlo, hhi⟩ := ht.bound k hstored
    have hcl : cleared lo hi m k = true := by
      refine decide_eq_true ?_
      rcases ht.dead k hstored with ⟨b, hb, hbk⟩ | hlt | hle | hin
      · exact absurd hbk (hk b hb)
      · exact .inl ⟨(hlo.trans_lt hlt).ne', hlo, hlt⟩
      · by_cases hto : m.dirty_to = hi
        · exact .inl ⟨by rw [hto]; exact (hlo.trans_lt hhi).ne', hlo, by rwa [hto]⟩
        · exact .inr (.inl ⟨hto, (hle.trans_lt hhi).ne, hle, hhi⟩)
      · exact .inr (.inr hin)
    rw [hcl] at hne
    exact hne rfl

theorem tracks_clean (hs : Sorted key mem) (hb : ∀ b ∈ mem, lo < key b ∧ key b < hi) :
    Tracks lo hi key (Marks.clean lo hi) (lookup key mem) mem := by
  have hmem : ∀ k, lookup key mem k ≠ none → ∃ b ∈ mem, key b = k := by
    intro k hk
    by_contra hno
    push Not at hno
    exact hk (lookup_eq_none hno)
  refine ⟨fun b hb => .inl ⟨lookup_eq_some hs hb, Finset.notMem_empty _⟩, fun k hk => .inl (hmem k hk), ?_⟩
  intro k hk
  obtain ⟨b, hbm, rfl⟩ := hmem k hk
  exact ⟨(hb b hbm).1.le, (hb b hbm).2⟩

theorem Tracks.eq_lookup (ht : Tracks lo hi key (Marks.clean lo hi) stored mem) (hs : Sorted key mem)
    (hb : ∀ b ∈ mem, lo < key b ∧ key b < hi) : stored = lookup key mem := by
  funext k
  by_cases hk : ∃ b ∈ mem, key b = k
  · obtain ⟨b, hmem, rfl⟩ := hk
    rw [lookup_eq_some hs hmem]
    rcases ht.live b hmem with ⟨hst, -⟩ | hto | hfrom | hout
    · exact hst
    · exact absurd hto (hb b hmem).1.not_ge
    · exact absurd hfrom (hb b hmem).2.not_ge
    · exact absurd hout (hb b hmem).2.not_ge
  · push Not at hk
    rw [lookup_eq_none hk]
    by_contra hne
    rcases ht.dead k hne with ⟨b, hmem, hbk⟩ | hlt | hle | hin
    · exact hk b hmem hbk
    · exact absurd hlt (ht.bound k hne).1.not_gt
    · exact absurd hle (ht.bound k hne).2.not_ge
    · exact absurd hin (Finset.notMem_empty k)

structure Marks.Le (m m' : Marks κ) : Prop where
  dirty_to : m.dirty_to ≤ m'.dirty_to
  dirty_from : m'.dirty_from ≤ m.dirty_from
  writeout_from : m'.writeout_from ≤ m.writeout_from
  trimmed : m.trimmed ⊆ m'.trimmed

section
variable (ht : Tracks lo hi key m stored mem)
include ht

/-- The rule for every change of the log: the marks grow, what is new is covered and what is gone is cleared. -/
theorem Tracks.change (hm : m.Le m')
    (hnew : ∀ b ∈ mem', (b ∈ mem ∧ (key b ∈ m'.trimmed → key b ∈ m.trimmed)) ∨ m'.Covers (key b))
    (hgone : ∀ b ∈ mem, (∃ b' ∈ mem', key b' = key b) ∨ m'.Clears (key b)) :
    Tracks lo hi key m' stored mem' := by
  constructor
  · intro b hb
    rcases hnew b hb with ⟨hold, htrim⟩ | hcov
    · rcases ht.live b hold with ⟨hst, hnt⟩ | hto | hfrom | hout
      · exact .inl ⟨hst, fun h => hnt (htrim h)⟩
      · exact .inr (.inl (hto.trans hm.dirty_to))
      · exact .inr (.inr (.inl (hm.dirty_from.trans hfrom)))
      · exact .inr (.inr (.inr (hm.writeout_from.trans hout)))
    · exact .inr hcov
  · intro k hk
    rcases ht.dead k hk with ⟨b, hb, rfl⟩ | hlt | hle | hin
    · exact hgone b hb
    · exact .inr (.inl (hlt.trans_le hm.dirty_to))
    · exact .inr (.inr (.inl (hm.dirty_from.trans hle)))
    · exact .inr (.inr (.inr (hm.trimmed hin)))
  · exact ht.bound

/-- A full rewrite is always right. -/
theorem Tracks.rewrite (hto : hi ≤ m'.dirty_to) (hmem : ∀ b ∈ mem', key b < hi) : Tracks lo hi key m' stored mem' :=
  ⟨fun b hb => .inr (.inl ((hmem b hb).le.trans hto)), fun k hk => .inr (.inl ((ht.bound k hk).2.trans_le hto)), ht.bound⟩

theorem Tracks.grow (hm : m.Le m') (htrim : m'.trimmed = m.trimmed)
    (hmem : ∀ b, b ∈ mem' ↔ b ∈ mem ∨ b ∈ new) (hnew : ∀ b ∈ new, m'.Covers (key b)) :
    Tracks lo hi key m' stored mem' :=
  ht.change hm (fun b hb => ((hmem b).1 hb).imp (fun h => ⟨h, fun hin => htrim ▸ hin⟩) (hnew b))
    fun b hb => .inl ⟨b, (hmem b).2 (.inl hb), rfl⟩

theorem Tracks.shrink (hm : m.Le m') (htrim : m'.trimmed = m.trimmed)
    (hmem : ∀ b, b ∈ mem ↔ b ∈ mem' ∨ b ∈ gone) (hgone : ∀ b ∈ gone, m'.Clears (key b)) :
    Tracks lo hi key m' stored mem' :=
  ht.change hm (fun b hb => .inl ⟨(hmem b).2 (.inl hb), fun hin => htrim ▸ hin⟩)
    fun b hb => ((hmem b).1 hb).imp (fun h => ⟨b, h, rfl⟩) (hgone b)

end
end

/-!
### The marks
-/

section
variable {lo hi : κ} {key : β → κ} {m : Marks κ} {mem : List β} {stored : κ → Option β} {k : κ} {b : β}

namespace Marks

private theorem Le.refl (m : Marks κ) : m.Le m := ⟨le_refl _, le_refl _, le_refl _, fun _ h => h⟩

theorem le_markDirtyTo : m.Le (m.markDirtyTo k) := ⟨le_max_left _ _, le_refl _, le_refl _, fun _ h => h⟩

theorem le_markDirtyFrom : m.Le (m.markDirtyFrom k) := ⟨le_refl _, min_le_left _ _, le_refl _, fun _ h => h⟩

theorem le_markWriteoutFrom : m.Le (m.markWriteoutFrom k) := ⟨le_refl _, le_refl _, min_le_left _ _, fun _ h => h⟩

theorem covers_markDirtyTo (h : key b ≤ k) : (m.markDirtyTo k).Covers (key b) := .inl (h.trans (le_max_right _ _))

theorem covers_markDirtyFrom (h : k ≤ key b) : (m.markDirtyFrom k).Covers (key b) :=
  .inr (.inl ((min_le_right _ _).trans h))

theorem covers_markWriteoutFrom (h : k ≤ key b) : (m.markWriteoutFrom k).Covers (key b) :=
  .inr (.inr ((min_le_right _ _).trans h))

theorem clears_markDirtyFrom (h : k ≤ key b) : (m.markDirtyFrom k).Clears (key b) :=
  .inr (.inl ((min_le_right _ _).trans h))

theorem foldl_markWriteoutFrom (key : β → κ) (l : List β) (m : Marks κ) :
    m.Le (l.foldl (fun m b => m.markWriteoutFrom (key b)) m) ∧
      (l.foldl (fun m b => m.markWriteoutFrom (key b)) m).trimmed = m.trimmed ∧
      ∀ b ∈ l, (l.foldl (fun m b => m.markWriteoutFrom (key b)) m).writeout_from ≤ key b := by
  induction l generalizing m with
  | nil => exact ⟨Le.refl m, rfl, by simp⟩
  | cons a l ih =>
    obtain ⟨hle, htrim, hall⟩ := ih (m.markWriteoutFrom (key a))
    rw [foldl_cons]
    exact ⟨⟨hle.dirty_to, hle.dirty_from, hle.writeout_from.trans (min_le_left _ _), hle.trimmed⟩, htrim,
      forall_mem_cons.2 ⟨hle.writeout_from.trans (min_le_right _ _), hall⟩⟩

theorem foldr_markDirtyFrom (key : β → κ) (l : List β) (m : Marks κ) :
    m.Le (l.foldr (fun b m => m.markDirtyFrom (key b)) m) ∧
      (l.foldr (fun b m => m.markDirtyFrom (key b)) m).trimmed = m.trimmed ∧
      ∀ b ∈ l, (l.foldr (fun b m => m.markDirtyFrom (key b)) m).dirty_from ≤ key b := by
  induction l with
  | nil => exact ⟨Le.refl m, rfl, by simp⟩
  | cons a l ih =>
    obtain ⟨hle, htrim, hall⟩ := ih
    rw [foldr_cons]
    exact ⟨⟨hle.dirty_to, (min_le_left _ _).trans hle.dirty_from, hle.writeout_from, hle.trimmed⟩, htrim,
      forall_mem_cons.2 ⟨min_le_right _ _, fun b hb => (min_le_left _ _).trans (hall b hb)⟩⟩

private theorem foldl_markTrimmed (key : β → κ) (l : List β) (m : Marks κ) :
    m.Le (l.foldl (fun m b => m.markTrimmed (key b)) m) ∧
      ∀ k, k ∈ (l.foldl (fun m b => m.markTrimmed (key b)) m).trimmed ↔ k ∈ m.trimmed ∨ ∃ b ∈ l, key b = k := by
  induction l generalizing m with
  | nil => exact ⟨Le.refl m, by simp⟩
  | cons a l ih =>
    obtain ⟨hle, hmem⟩ := ih (m.markTrimmed (key a))
    rw [foldl_cons]
    refine ⟨⟨hle.dirty_to, hle.dirty_from, hle.writeout_from, fun k hk => hle.trimmed (Finset.mem_insert_of_mem hk)⟩, ?_⟩
    intro k
    rw [hmem]
    simp only [markTrimmed, Finset.mem_insert, mem_cons, exists_eq_or_imp]
    rw [eq_comm, or_assoc, or_left_comm]

end Marks

theorem Tracks.trimFront (ht : Tracks lo hi key m stored mem) (hs : Sorted key mem) (p : β → Bool) :
    Tracks lo hi key ((mem.takeWhile p).foldl (fun m b => m.markTrimmed (key b)) m) stored (mem.dropWhile p) := by
  obtain ⟨hle, hmem⟩ := Marks.foldl_markTrimmed key (mem.takeWhile p) m
  have hsplit := takeWhile_append_dropWhile (p := p) (l := mem)
  have hdisj : ∀ a ∈ mem.takeWhile p, ∀ b ∈ mem.dropWhile p, key a < key b := by
    have hs' : (mem.takeWhile p ++ mem.dropWhile p).Pairwise fun a b => key a < key b := by rwa [hsplit]
    exact (pairwise_append.1 hs').2.2
  refine ht.change hle (fun b hb => .inl ⟨(dropWhile_suffix p).mem hb, fun hin => ?_⟩) fun b hb => ?_
  · rcases (hmem (key b)).1 hin with h | ⟨a, ha, hab⟩
    · exact h
    · exact absurd hab (hdisj a ha b hb).ne
  · rw [← hsplit, mem_append] at hb
    rcases hb with hb | hb
    · exact .inr (.inr (.inr ((hmem _).2 (.inr ⟨b, hb, rfl⟩))))
    · exact .inl ⟨b, hb, rfl⟩

end
end Lunule.Writeback
