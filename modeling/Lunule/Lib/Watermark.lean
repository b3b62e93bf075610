import Mathlib

/-!
# A mark below unfinished work

Work lies at positions of a linear order. It is started in order, up to the position `front`, and finishes in any order; a mark
moves to a position that finishes if no lower one is active. `Covered` says that everything up to the front is done or active and
that the mark lies below what is active. So everything up to the mark is done (`Covered.done_of_le`), and work can be started
again from any mark there ever was (`Covered.restart`).
-/

namespace Lunule.Watermark
variable {κ : Type*} [LinearOrder κ] {item done active : κ → Prop} {mark front k : κ}

structure Covered (item done active : κ → Prop) (mark front : κ) : Prop where
  mark_le : mark ≤ front
  lt_of_active : ∀ k, active k → mark < k
  le_of_active : ∀ k, active k → k ≤ front
  settled : ∀ k, item k → k ≤ front → done k ∨ active k

section
variable (h : Covered item done active mark front)
include h

theorem Covered.done_of_le (hk : item k) (hle : k ≤ mark) : done k := by
  rcases h.settled k hk (hle.trans h.mark_le) with hdone | hactive
  · exact hdone
  · exact absurd (h.lt_of_active k hactive) (not_lt_of_ge hle)

theorem Covered.start (hlt : front < k)
    (hnext : ∀ j, item j → front < j → k ≤ j) : Covered item done (fun j => j = k ∨ active j) mark k where
  mark_le := h.mark_le.trans hlt.le
  lt_of_active := by
    rintro j (rfl | hj)
    · exact lt_of_le_of_lt h.mark_le hlt
    · exact h.lt_of_active j hj
  le_of_active := by
    rintro j (rfl | hj)
    · exact le_refl _
    · exact (h.le_of_active j hj).trans hlt.le
  settled := by
    intro j hj hle
    rcases le_or_gt j front with hfront | hfront
    · exact (h.settled j hj hfront).imp_right .inr
    · exact .inr (.inl (le_antisymm hle (hnext j hj hfront)))

theorem Covered.skip (hlt : front < k) (hnone : ¬item k)
    (hnext : ∀ j, item j → front < j → k ≤ j) : Covered item done active mark k where
  mark_le := h.mark_le.trans hlt.le
  lt_of_active := h.lt_of_active
  le_of_active := fun j hj => (h.le_of_active j hj).trans hlt.le
  settled := by
    intro j hj hle
    rcases le_or_gt j front with hfront | hfront
    · exact h.settled j hj hfront
    · exact absurd (le_antisymm hle (hnext j hj hfront) ▸ hj) hnone

theorem Covered.finish (hk : done k) : Covered item done (fun j => j ≠ k ∧ active j) mark front where
  mark_le := h.mark_le
  lt_of_active := fun j hj => h.lt_of_active j hj.2
  le_of_active := fun j hj => h.le_of_active j hj.2
  settled := by
    intro j hj hle
    by_cases heq : j = k
    · exact .inl (heq ▸ hk)
    · exact (h.settled j hj hle).imp_right fun hactive => ⟨heq, hactive⟩

theorem Covered.finish_lowest (hactive : active k) (hk : done k)
    (hlow : ∀ j, active j → k ≤ j) : Covered item done (fun j => j ≠ k ∧ active j) k front where
  mark_le := h.le_of_active k hactive
  lt_of_active := fun j hj => lt_of_le_of_ne (hlow j hj.2) hj.1.symm
  le_of_active := (h.finish hk).le_of_active
  settled := (h.finish hk).settled

end

theorem Covered.restart (h : ∀ k, item k → k ≤ mark → done k) : Covered item done (fun _ => False) mark mark where
  mark_le := le_refl _
  lt_of_active := fun _ hk => hk.elim
  le_of_active := fun _ hk => hk.elim
  settled := fun k hk hle => .inl (h k hk hle)

theorem Covered.imp {item' done' active' : κ → Prop} (h : Covered item done active mark front)
    (hitem : ∀ k, item' k → k ≤ front → item k) (hdone : ∀ k, done k → done' k) (hactive : ∀ k, active' k ↔ active k) :
    Covered item' done' active' mark front where
  mark_le := h.mark_le
  lt_of_active := fun k hk => h.lt_of_active k ((hactive k).1 hk)
  le_of_active := fun k hk => h.le_of_active k ((hactive k).1 hk)
  settled := fun k hk hle => (h.settled k (hitem k hk hle) hle).imp (hdone k) (hactive k).2

end Lunule.Watermark
