import Lunule.Pg.Updates

/-!
# One object through a merge

A merge treats every object on its own: the entries that are appended change the missing item and the stored version of
their object, and the divergent entries of an object are merged into that pair. So what a merge has to keep is a statement
about one object, its history and the pair (`Matches`).

* An appended entry takes a pair that matches the history before it to one that matches the history with it
  (`Matches.append`).
* For an object with divergent entries and no new ones, cases 2 to 5 go back to the version before the oldest of them.
* For an object with both, the appended entries have left the need of the newest (`foldl_onAppend_last`), and case 1
  forgets what was had.
-/

namespace Lunule.Pg
open List Function
open Std (ExtTreeMap)
section
variable {ο : Type}

def LogEntry.after (e : LogEntry ο) : Option Eversion := if e.isDelete then none else some e.version

/-- The version of an object after its entries `h`, if it had version `b` before them. -/
def currentOf (b : Option Eversion) (h : List (LogEntry ο)) : Option Eversion := h.getLast?.elim b LogEntry.after

/-- The version that the newest of the entries gives to the object, a delete included. -/
def latestOf (b : Option Eversion) (h : List (LogEntry ο)) : Option Eversion :=
  h.getLast?.elim b fun e => some e.version

/-- An entry names the version of its object before it. A clone is a new object, and names the version it was cloned at
if there was no entry of the object before. -/
def LogEntry.Follows (e : LogEntry ο) (b : Option Eversion) (isFirst : Bool) : Prop :=
  (e.isClone → b = none) ∧ (e.prior_version = b.getD .zero ∨ (e.isClone ∧ isFirst))

instance (e : LogEntry ο) (b : Option Eversion) (isFirst : Bool) : Decidable (e.Follows b isFirst) :=
  inferInstanceAs (Decidable (_ ∧ _))

def Chained : Option Eversion → Bool → List (LogEntry ο) → Prop
  | _, _, [] => True
  | b, isFirst, e :: es => e.Follows b isFirst ∧ Chained e.after false es

instance decidableChained (b : Option Eversion) (isFirst : Bool) (h : List (LogEntry ο)) : Decidable (Chained b isFirst h) :=
  match h with
  | [] => isTrue trivial
  | e :: es =>
    have : Decidable (Chained e.after false es) := decidableChained e.after false es
    inferInstanceAs (Decidable (_ ∧ _))

def storeOf (v : Eversion) : Option Eversion := if v = .zero then none else some v

/-- The missing item and the stored version of an object whose version is `cur` and whose newest entry gives `lat`: an
object that is not listed is stored as it should be, an item needs the version of the newest entry and knows what is
stored, or nothing. Where deletes are not listed the two cases are told apart by what is stored. -/
def Matches (may : Bool) (cur lat : Option Eversion) (item : Option MissingItem) (stored : Option Eversion) : Prop :=
  match item with
  | none => stored = cur
  | some i => some i.need = lat ∧ (i.have' = .zero ∨ stored = some i.have') ∧
      (may = false → cur = lat ∧ stored ≠ cur ∧ stored = storeOf i.have')

instance (may : Bool) (cur lat : Option Eversion) (item : Option MissingItem) (stored : Option Eversion) :
    Decidable (Matches may cur lat item stored) :=
  match item with
  | none => inferInstanceAs (Decidable (stored = cur))
  | some i => inferInstanceAs (Decidable (some i.need = lat ∧ (i.have' = .zero ∨ stored = some i.have') ∧
      (may = false → cur = lat ∧ stored ≠ cur ∧ stored = storeOf i.have')))

/-- What an appended entry does to the item and the stored version of its object. -/
def onAppend (may : Bool) (s : Option MissingItem × Option Eversion) (e : LogEntry ο) :
    Option MissingItem × Option Eversion :=
  if may ∨ ¬e.isDelete then
    (some ⟨e.version,
      if e.prior_version = .zero ∨ e.isClone then .zero else s.1.elim e.prior_version MissingItem.have', e.isDelete⟩, s.2)
  else (s.1.filter fun i => ¬i.need ≤ e.version, none)

variable {may : Bool} {b cur lat : Option Eversion} {item : Option MissingItem} {stored : Option Eversion}
  {e : LogEntry ο} {isFirst : Bool} {h h1 h2 : List (LogEntry ο)} {n : List (LogEntry ο)} {v : Eversion}

@[simp] theorem currentOf_nil : currentOf b ([] : List (LogEntry ο)) = b := rfl
@[simp] theorem latestOf_nil : latestOf b ([] : List (LogEntry ο)) = b := rfl
@[simp] theorem currentOf_concat : currentOf b (h ++ [e]) = e.after := by simp [currentOf]
@[simp] theorem latestOf_concat : latestOf b (h ++ [e]) = some e.version := by simp [latestOf]

theorem latestOf_eq_of_currentOf (hc : currentOf b h = some v) : latestOf b h = some v := by
  induction h using reverseRecOn with
  | nil => exact hc
  | append_singleton h e _ =>
    rw [currentOf_concat, LogEntry.after] at hc
    rw [latestOf_concat]
    obtain ⟨-, hc⟩ := Option.ite_none_left_eq_some.1 hc
    exact hc

theorem chained_append :
    Chained b isFirst (h1 ++ h2) ↔ Chained b isFirst h1 ∧ Chained (currentOf b h1) (isFirst && h1.isEmpty) h2 := by
  induction h1 generalizing b isFirst with
  | nil => simp [Chained]
  | cons e h1 ih =>
    have hcur : currentOf e.after h1 = currentOf b (e :: h1) := by
      cases h1 using reverseRecOn with
      | nil => rfl
      | append_singleton h1 e' => rw [← cons_append, currentOf_concat, currentOf_concat]
    rw [cons_append, Chained, Chained, ih, hcur, and_assoc]
    simp

theorem LogEntry.Follows.created (hf : e.Follows b isFirst) (hb : ∀ v ∈ b, v ≠ .zero)
    (hc : e.prior_version = .zero ∨ e.isClone) : b = none := by
  rcases hc with hp | hc
  · rcases hf.2 with hprior | ⟨hclone, -⟩
    · cases b with
      | none => rfl
      | some v => exact absurd (hprior.symm.trans hp) (hb v rfl)
    · exact hf.1 hclone
  · exact hf.1 hc

theorem LogEntry.Follows.modified (hf : e.Follows b isFirst) (hc : ¬(e.prior_version = .zero ∨ e.isClone)) :
    b = some e.prior_version := by
  rw [not_or] at hc
  rcases hf.2 with hprior | ⟨hclone, -⟩
  · cases b with
    | none => exact absurd hprior hc.1
    | some v => rw [hprior, Option.getD_some]
  · exact absurd hclone hc.2

private theorem storeOf_of_ne (hv : v ≠ .zero) : storeOf v = some v := if_neg hv

theorem after_of_delete (hd : e.isDelete) : e.after = none := if_pos hd

theorem after_of_not_delete (hd : ¬e.isDelete) : e.after = some e.version := if_neg hd

private theorem Matches.append (hm : Matches may cur lat item stored) (hf : e.Follows cur isFirst)
    (hcur : ∀ v ∈ cur, v ≠ .zero) (hlat : ∀ v ∈ lat, v < e.version) (hstored : ∀ v ∈ stored, v < e.version) :
    Matches may e.after (some e.version) (onAppend may (item, stored) e).1 (onAppend may (item, stored) e).2 := by
  by_cases hd : may ∨ ¬e.isDelete
  · rw [onAppend, if_pos hd]
    by_cases hcreate : e.prior_version = .zero ∨ e.isClone
    · have hnone := hf.created hcur hcreate
      rw [if_pos hcreate]
      refine ⟨rfl, .inl rfl, fun hmay => ?_⟩
      have hnd : ¬e.isDelete := hd.resolve_left (by rw [hmay]; decide)
      have hst : stored = none := by
        cases item with
        | none => exact hm.trans hnone
        | some i =>
          obtain ⟨hneed, -, hmore⟩ := hm
          rw [← hneed, hnone] at hmore
          exact absurd (hmore hmay).1 (by simp)
      rw [after_of_not_delete hnd]
      exact ⟨rfl, by rw [hst]; simp, hst⟩
    · have hprior := hf.modified hcreate
      have hne : e.prior_version ≠ .zero := fun h0 => hcreate (.inl h0)
      have hstne : stored ≠ some e.version := fun hst => lt_irrefl _ (hstored _ hst)
      rw [if_neg hcreate]
      cases item with
      | none =>
        have hst := hm.trans hprior
        refine ⟨rfl, .inr hst, fun hmay => ?_⟩
        have hnd : ¬e.isDelete := hd.resolve_left (by rw [hmay]; decide)
        rw [after_of_not_delete hnd]
        exact ⟨rfl, hstne, hst.trans (storeOf_of_ne hne).symm⟩
      | some i =>
        obtain ⟨-, hhave, hmore⟩ := hm
        refine ⟨rfl, hhave, fun hmay => ?_⟩
        have hnd : ¬e.isDelete := hd.resolve_left (by rw [hmay]; decide)
        rw [after_of_not_delete hnd]
        exact ⟨rfl, hstne, (hmore hmay).2.2⟩
  · have hdel : e.isDelete := by
      rw [not_or, not_not] at hd
      exact hd.2
    rw [onAppend, if_neg hd, after_of_delete hdel]
    have hnone : item.filter (fun i => ¬i.need ≤ e.version) = none := by
      cases item with
      | none => rfl
      | some i =>
        have hle : i.need ≤ e.version := (hlat _ hm.1.symm).le
        simp [hle]
    rw [hnone]
    exact rfl

theorem currentOf_mem (hv : v ∈ currentOf b h) : v ∈ b ∨ ∃ e ∈ h, e.version = v := by
  induction h using reverseRecOn with
  | nil => exact .inl hv
  | append_singleton h e _ =>
    rw [currentOf_concat, LogEntry.after] at hv
    obtain ⟨-, hv⟩ := Option.ite_none_left_eq_some.1 hv
    exact .inr ⟨e, by simp, Option.some.inj hv⟩

theorem latestOf_mem (hv : v ∈ latestOf b h) : v ∈ b ∨ ∃ e ∈ h, e.version = v := by
  induction h using reverseRecOn with
  | nil => exact .inl hv
  | append_singleton h e _ =>
    rw [latestOf_concat] at hv
    exact .inr ⟨e, by simp, Option.some.inj hv⟩

theorem Matches.foldl_append (hm : Matches may (currentOf b h) (latestOf b h) item stored)
    (hc : Chained b isFirst (h ++ n)) (hb : ∀ v ∈ b, v ≠ .zero ∧ ∀ e ∈ n, v < e.version)
    (hpos : ∀ e ∈ h ++ n, e.version ≠ .zero) (hsorted : (h ++ n).Pairwise fun a c => a.version < c.version)
    (hstored : ∀ v ∈ stored, ∀ e ∈ n, v < e.version) :
    Matches may (currentOf b (h ++ n)) (latestOf b (h ++ n)) (n.foldl (onAppend may) (item, stored)).1
      (n.foldl (onAppend may) (item, stored)).2 := by
  induction n generalizing h item stored with
  | nil =>
    rw [append_nil]
    exact hm
  | cons e n ih =>
    have hsplit : h ++ e :: n = (h ++ [e]) ++ n := by simp
    have hf := (chained_append.1 hc).2.1
    have hbefore : ∀ a ∈ h, a.version < e.version := fun a ha => (pairwise_append.1 hsorted).2.2 a ha e (by simp)
    have hcur : ∀ v ∈ currentOf b h, v ≠ .zero := by
      intro v hv
      rcases currentOf_mem hv with hv | ⟨a, ha, rfl⟩
      · exact (hb v hv).1
      · exact hpos a (mem_append_left _ ha)
    have hlat : ∀ v ∈ latestOf b h, v < e.version := by
      intro v hv
      rcases latestOf_mem hv with hv | ⟨a, ha, rfl⟩
      · exact (hb v hv).2 e (by simp)
      · exact hbefore a ha
    have hstep := hm.append hf hcur hlat fun v hv => hstored v hv e (by simp)
    rw [foldl_cons, hsplit]
    rw [hsplit] at hc hpos hsorted
    refine ih (by rwa [currentOf_concat, latestOf_concat]) hc
      (fun v hv => ⟨(hb v hv).1, fun a ha => (hb v hv).2 a (mem_cons_of_mem _ ha)⟩) hpos hsorted ?_
    intro v hv a ha
    refine hstored v ?_ a (mem_cons_of_mem _ ha)
    replace hv : v ∈ (onAppend may (item, stored) e).2 := hv
    by_cases hd : may ∨ ¬e.isDelete
    · rw [onAppend, if_pos hd] at hv
      exact hv
    · rw [onAppend, if_neg hd] at hv
      cases hv

private theorem foldl_onAppend_need {s : Option MissingItem × Option Eversion} {i : MissingItem}
    (hi : i ∈ (n.foldl (onAppend may) s).1) : (∃ j ∈ s.1, i.need = j.need) ∨ ∃ e ∈ n, i.need = e.version := by
  induction n using reverseRecOn with
  | nil => exact .inl ⟨i, hi, rfl⟩
  | append_singleton n e ih =>
    rw [foldl_append, foldl_cons, foldl_nil, onAppend] at hi
    split at hi
    · cases hi
      exact .inr ⟨e, by simp, rfl⟩
    · obtain ⟨hi, -⟩ := Option.mem_filter_iff.1 hi
      rcases ih hi with hold | ⟨a, ha, heq⟩
      · exact .inl hold
      · exact .inr ⟨a, mem_append_left _ ha, heq⟩

theorem foldl_onAppend_last (may : Bool) (stored : Option Eversion) (hitem : ∀ i ∈ item, i.need < e.version)
    (hn : ∀ a ∈ n, a.version < e.version) :
    (((n ++ [e]).foldl (onAppend may) (item, stored)).1.map MissingItem.need =
      if may ∨ ¬e.isDelete then some e.version else none) ∧
      (¬(may ∨ ¬e.isDelete) → ((n ++ [e]).foldl (onAppend may) (item, stored)).2 = none) := by
  rw [foldl_append, foldl_cons, foldl_nil, onAppend]
  by_cases hd : may ∨ ¬e.isDelete
  · rw [if_pos hd, if_pos hd]
    exact ⟨rfl, fun hno => absurd hd hno⟩
  rw [if_neg hd, if_neg hd]
  refine ⟨?_, fun _ => rfl⟩
  rw [Option.map_eq_none_iff, Option.filter_eq_none_iff]
  intro i hi
  have hlt : i.need < e.version := by
    rcases foldl_onAppend_need hi with ⟨j, hj, heq⟩ | ⟨a, ha, heq⟩
    · rw [heq]
      exact hitem j hj
    · rw [heq]
      exact hn a ha
  simp [hlt.le]

end

/-!
### The store
-/

section
variable {ο : Type} [DecidableEq ο]

/-- The handler does to the store as it is told; only versions are looked at. -/
def Act.apply (S : ο → Option Eversion) : Act ο → ο → Option Eversion
  | .rollback e => update S e.soid (if e.prior_version = .zero ∨ e.isClone then none else some e.prior_version)
  | .rollforward _ => S
  | .trim _ => S
  | .remove o => update S o none
  | .tryStash o _ => update S o none

def runActs (S : ο → Option Eversion) (acts : List (Act ο)) : ο → Option Eversion := acts.foldl Act.apply S

variable {S : ο → Option Eversion} {hoid : ο} {es : List (LogEntry ο)}

theorem runActs_append (a a' : List (Act ο)) : runActs S (a ++ a') = runActs (runActs S a) a' := foldl_append

@[simp] theorem runActs_nil : runActs S [] = S := rfl
@[simp] theorem runActs_remove : runActs S [.remove hoid] = update S hoid none := rfl

@[simp] theorem runActs_trims : runActs S (es.map Act.trim) = S := by
  induction es with
  | nil => rfl
  | cons e es ih => exact ih

@[simp] theorem runActs_rollforwards : runActs S (es.map Act.rollforward) = S := by
  induction es with
  | nil => rfl
  | cons e es ih => exact ih

theorem runActs_rollbacks {first : LogEntry ο} {rest : List (LogEntry ο)} (hsoid : ∀ e ∈ first :: rest, e.soid = hoid) :
    runActs S ((first :: rest).reverse.map Act.rollback) =
      update S hoid (if first.prior_version = .zero ∨ first.isClone then none else some first.prior_version) := by
  have hother : ∀ (es : List (LogEntry ο)) (S : ο → Option Eversion), (∀ e ∈ es, e.soid = hoid) → ∀ o ≠ hoid,
      runActs S (es.map Act.rollback) o = S o := by
    intro es
    induction es with
    | nil => exact fun _ _ _ _ => rfl
    | cons e es ih =>
      intro S hes o ho
      have hrest := ih (Act.apply S (.rollback e)) (forall_mem_cons.1 hes).2 o ho
      rw [map_cons]
      refine hrest.trans ?_
      exact update_of_ne (by rw [hes e (by simp)]; exact ho) _ _
  rw [reverse_cons, map_append, runActs_append]
  funext o
  show update _ first.soid _ o = _
  rw [hsoid first (by simp)]
  by_cases ho : o = hoid
  · rw [ho, update_self, update_self]
  · rw [update_of_ne ho, update_of_ne ho]
    exact hother _ S (fun e he => hsoid e (mem_cons_of_mem _ (mem_reverse.1 he))) o ho

end
end Lunule.Pg
