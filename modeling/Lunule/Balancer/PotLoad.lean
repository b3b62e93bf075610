import Mathlib

/-!
# The potential load of a fragment

`dirfrag_pot_load_t` keeps a value for the current epoch and the value of the epoch before. It moves to a later epoch
whenever it is touched, and is divided by four once, however many epochs it moves. So a read in an epoch of its own
changes what later reads return, and a read in the epoch of an update does not.
-/

namespace Lunule.Balancer

/-- `dirfrag_pot_load_t`. -/
structure DirfragPotLoad (K : Type) where
  value : K
  lastValue : K
  lastEpoch : Int
  deriving DecidableEq

namespace DirfragPotLoad
variable {K : Type} [Zero K] [Div K] [OfNat K 4] {p : DirfragPotLoad K} {e x : Int}

def updateEpoch (p : DirfragPotLoad K) (epoch : Int) : DirfragPotLoad K :=
  if p.lastEpoch < epoch then
    { lastValue := if epoch - p.lastEpoch = 1 then p.value else 0, value := p.value / 4, lastEpoch := epoch }
  else p

private theorem updateEpoch_of_le (h : x ≤ p.lastEpoch) : p.updateEpoch x = p := if_neg (not_lt.2 h)

private theorem le_lastEpoch_updateEpoch (p : DirfragPotLoad K) (x : Int) : x ≤ (p.updateEpoch x).lastEpoch := by
  unfold updateEpoch
  split
  · exact le_refl x
  · exact not_lt.1 ‹_›

@[simp] theorem updateEpoch_updateEpoch (p : DirfragPotLoad K) (x : Int) :
    (p.updateEpoch x).updateEpoch x = p.updateEpoch x :=
  updateEpoch_of_le (p.le_lastEpoch_updateEpoch x)

variable [One K] [Add K]

def adjust (p : DirfragPotLoad K) (adj : K) (epoch : Int) : DirfragPotLoad K :=
  { p.updateEpoch epoch with value := (p.updateEpoch epoch).value + adj }

def inc (p : DirfragPotLoad K) (epoch : Int) : DirfragPotLoad K := p.adjust 1 epoch

/-- `pot_load`: the load after the call, and the result. -/
def potLoad (p : DirfragPotLoad K) (epoch : Int) (useCurrent : Bool) : DirfragPotLoad K × K :=
  let p := if 0 < epoch then p.updateEpoch epoch else p
  (p, if useCurrent then p.value else p.lastValue)

inductive Op (K : Type)
  | inc (epoch : Int)
  | adjust (adj : K) (epoch : Int)
  | potLoad (epoch : Int) (useCurrent : Bool)
  deriving DecidableEq

def Op.epoch : Op K → Int
  | .inc epoch | .adjust _ epoch | .potLoad epoch _ => epoch

def Op.isUpdate : Op K → Bool
  | .inc _ | .adjust _ _ => true
  | .potLoad _ _ => false

def step (p : DirfragPotLoad K) : Op K → DirfragPotLoad K
  | .inc epoch => p.inc epoch
  | .adjust adj epoch => p.adjust adj epoch
  | .potLoad epoch useCurrent => (p.potLoad epoch useCurrent).1

variable {op : Op K} {ops : List (Op K)}

private theorem step_updateEpoch (h : op.isUpdate = true) : (p.updateEpoch op.epoch).step op = p.step op := by
  cases op with
  | inc epoch => simp [step, inc, adjust, Op.epoch]
  | adjust adj epoch => simp [step, adjust, Op.epoch]
  | potLoad epoch useCurrent => cases h

private theorem le_lastEpoch_step (h : op.isUpdate = true) : op.epoch ≤ (p.step op).lastEpoch ∧
    p.lastEpoch ≤ (p.step op).lastEpoch := by
  have hle : ∀ x, p.lastEpoch ≤ (p.updateEpoch x).lastEpoch := by
    intro x
    unfold updateEpoch
    split
    · exact le_of_lt ‹_›
    · exact le_refl _
  cases op with
  | inc epoch => exact ⟨p.le_lastEpoch_updateEpoch epoch, hle epoch⟩
  | adjust adj epoch => exact ⟨p.le_lastEpoch_updateEpoch epoch, hle epoch⟩
  | potLoad epoch useCurrent => cases h

private theorem potLoad_foldl_updateEpoch (hx : 0 < x) (hupdates : ∀ u ∈ ops, u.isUpdate = true)
    (hsorted : (ops.map Op.epoch ++ [e]).Pairwise (· ≤ ·)) (hfrom : ∀ y ∈ ops.map Op.epoch ++ [e], x ≤ y)
    (hmem : x ∈ ops.map Op.epoch ++ [e]) :
    ((ops.foldl step (p.updateEpoch x)).potLoad e false).1 = ((ops.foldl step p).potLoad e false).1 := by
  cases ops with
  | nil =>
    obtain rfl : x = e := by simpa using hmem
    simp [potLoad, hx]
  | cons u ops =>
    have hfirst : u.epoch = x := by
      rcases List.mem_cons.1 hmem with h | h
      · exact h.symm
      · exact le_antisymm ((List.pairwise_cons.1 hsorted).1 x h) (hfrom _ (by simp))
    rw [List.foldl_cons, List.foldl_cons, ← hfirst, step_updateEpoch (hupdates u (by simp))]

private theorem potLoad_foldl_filter (hsorted : (ops.map Op.epoch ++ [e]).Pairwise (· ≤ ·))
    (hreads : ∀ op ∈ ops, op.isUpdate = false → op.epoch ≤ 0 ∨ op.epoch ≤ p.lastEpoch ∨
      op.epoch ∈ (ops.filter Op.isUpdate).map Op.epoch ++ [e]) :
    ((ops.foldl step p).potLoad e false).1 = (((ops.filter Op.isUpdate).foldl step p).potLoad e false).1 := by
  induction ops generalizing p with
  | nil => rfl
  | cons op ops ih =>
    rw [List.map_cons, List.cons_append, List.pairwise_cons] at hsorted
    rw [List.foldl_cons]
    by_cases hop : op.isUpdate = true
    · obtain ⟨hat, hback⟩ := le_lastEpoch_step (p := p) hop
      rw [List.filter_cons_of_pos hop, List.foldl_cons]
      refine ih hsorted.2 fun r hr hread => ?_
      rcases hreads r (List.mem_cons_of_mem _ hr) hread with h | h | h
      · exact .inl h
      · exact .inr (.inl (h.trans hback))
      · rw [List.filter_cons_of_pos hop, List.map_cons, List.cons_append, List.mem_cons] at h
        exact .inr (h.imp_left fun h => h.trans_le hat)
    · have hread : op.isUpdate = false := by simpa using hop
      have hrest := (List.forall_mem_cons.1 hreads).2
      obtain ⟨x, useCurrent, rfl⟩ : ∃ x b, op = .potLoad x b := by
        cases op with
        | potLoad x b => exact ⟨x, b, rfl⟩
        | inc x => cases hread
        | adjust a x => cases hread
      by_cases hnone : x ≤ 0 ∨ x ≤ p.lastEpoch
      · -- the read does not move the load
        have hsame : p.step (.potLoad x useCurrent) = p := by
          show (if 0 < x then p.updateEpoch x else p) = p
          rcases hnone with h | h
          · exact if_neg (not_lt.2 h)
          · rw [updateEpoch_of_le h, ite_self]
        rw [hsame]
        exact ih hsorted.2 hrest
      · obtain ⟨hpos, hnew⟩ := not_or.1 hnone
        have hstep : p.step (.potLoad x useCurrent) = p.updateEpoch x := if_pos (not_le.1 hpos)
        have hmem := ((hreads _ (by simp) hread).resolve_left hpos).resolve_left hnew
        have hsub : ((ops.filter Op.isUpdate).map Op.epoch ++ [e]).Sublist (ops.map Op.epoch ++ [e]) :=
          (List.filter_sublist.map _).append_right _
        rw [hstep, ih hsorted.2 fun r hr hread => (hrest r hr hread).imp_right fun h => h.imp_left fun h => ?_]
        · exact potLoad_foldl_updateEpoch (not_le.1 hpos) (fun u hu => (List.mem_filter.1 hu).2)
            (hsorted.2.sublist hsub) (fun y hy => hsorted.1 y (hsub.subset hy)) hmem
        · exact h.trans (le_trans (le_of_lt (not_le.1 hnew)) (p.le_lastEpoch_updateEpoch x))

/-- Reads that are made in epochs already reached, or in those of the updates or of the last read, do not change what the
last read returns. -/
theorem potLoad_reads (p : DirfragPotLoad K) (ops : List (Op K)) (e : Int)
    (hsorted : (ops.map Op.epoch ++ [e]).Pairwise (· ≤ ·))
    (hreads : ∀ op ∈ ops, op.isUpdate = false →
      op.epoch ≤ 0 ∨ op.epoch ≤ p.lastEpoch ∨ op.epoch ∈ (ops.filter Op.isUpdate).map Op.epoch ++ [e])
    (useCurrent : Bool) :
    ((ops.foldl step p).potLoad e useCurrent).2 = (((ops.filter Op.isUpdate).foldl step p).potLoad e useCurrent).2 := by
  have hstate := potLoad_foldl_filter (p := p) hsorted hreads
  have hresult : ∀ q : DirfragPotLoad K, (q.potLoad e useCurrent).2 =
      if useCurrent then (q.potLoad e false).1.value else (q.potLoad e false).1.lastValue := fun _ => rfl
  rw [hresult, hresult, hstate]

theorem potLoad_reads_same_epochs :
    (([.adjust 4 1, .potLoad 1 false, .potLoad 3 true, .inc 3].foldl step (⟨0, 0, -1⟩ : DirfragPotLoad ℚ)).potLoad 4 true).2 =
      (([.adjust 4 1, .inc 3].foldl step (⟨0, 0, -1⟩ : DirfragPotLoad ℚ)).potLoad 4 true).2 :=
  potLoad_reads ⟨0, 0, -1⟩ [.adjust 4 1, .potLoad 1 false, .potLoad 3 true, .inc 3] 4 (by decide) (by decide) true

/-- A read in epoch 2 between an update in epoch 1 and a read in epoch 3 changes both values that the last read returns. -/
theorem potLoad_read_decays :
    (∀ b, (([.adjust 4 1].foldl step (⟨0, 0, -1⟩ : DirfragPotLoad ℚ)).potLoad 3 b).2 = if b then 1 else 0) ∧
      ∀ b, (([.adjust 4 1, .potLoad 2 false].foldl step (⟨0, 0, -1⟩ : DirfragPotLoad ℚ)).potLoad 3 b).2 =
        if b then 1 / 4 else 1 := by
  decide +kernel

end DirfragPotLoad
end Lunule.Balancer
