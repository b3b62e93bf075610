import Mathlib

/-!
# OSD capability decisions

`OSDCap::is_capable` tries the grants in order. They share one flag for each class the operation calls, and a grant
that is refused may have set some of them. `isCapable_by_set` says what the answer comes to: it depends on the set of the
grants and the grants of their profiles only.
-/

namespace Lunule.OsdCap
open List

/-- The bits 1 to 4 of `allow` are `OSD_CAP_R`, `OSD_CAP_W`, `OSD_CAP_CLS_R` and `OSD_CAP_CLS_W`. -/
structure CapSpec where
  allow : BitVec 8
  class_name : String

def CapSpec.allowAll (s : CapSpec) : Bool := s.allow == 0xff#8

structure CapMatch where
  auid : ℤ
  pool_name : String
  nspace : Option String
  objectPrefix : String

/-- A grant of a profile has a `profile_name`, and the grants that it expands to. -/
inductive CapGrant where
  | mk (cond : CapMatch) (spec : CapSpec) (profile_name : String) (profile_grants : List CapGrant)

structure ClassInfo where
  name : String
  read : Bool
  write : Bool
  whitelisted : Bool

structure Request where
  pool_name : String
  ns : String
  pool_auid : ℤ
  object : String
  op_may_read : Bool
  op_may_write : Bool
  classes : List ClassInfo

def CapMatch.isMatch (m : CapMatch) (r : Request) : Bool :=
  (if 0 ≤ m.auid then m.auid == r.pool_auid
    else (m.pool_name == "" || m.pool_name == r.pool_name) && m.nspace.all (· == r.ns)) &&
    m.objectPrefix.toList.isPrefixOf r.object.toList

/-- Whether the loop over the classes sets the flag of this class. -/
def CapSpec.permits (s : CapSpec) (c : ClassInfo) : Bool :=
  if s.class_name ≠ "" ∧ c.name = s.class_name then true
  else if !c.whitelisted then false
  else !((c.read && !s.allow.getLsbD 3) || (c.write && !s.allow.getLsbD 4))

section
variable (r : Request)

/-- A grant without a profile: whether it allows the operation, and `class_allowed`. -/
def CapSpec.isCapable (s : CapSpec) (cond : CapMatch) (class_allowed : List Bool) : Bool × List Bool :=
  if cond.isMatch r then
    if (r.op_may_read && !s.allow.getLsbD 1) || (r.op_may_write && !s.allow.getLsbD 2) then (false, class_allowed)
    else if r.classes.isEmpty || s.allowAll then (true, class_allowed)
    else
      let allowed := zipWith (fun c allowed => allowed || s.permits c) r.classes class_allowed
      (allowed.all id, allowed)
  else (false, class_allowed)

mutual

def CapGrant.isCapable : CapGrant → List Bool → Bool × List Bool
  | .mk cond spec profile_name profile_grants, class_allowed =>
    if profile_name ≠ "" then anyCapable profile_grants class_allowed else spec.isCapable r cond class_allowed

/-- The loops over grants: up to the first that allows the operation. -/
def anyCapable : List CapGrant → List Bool → Bool × List Bool
  | [], class_allowed => (false, class_allowed)
  | g :: grants, class_allowed =>
    match g.isCapable class_allowed with
    | (true, allowed) => (true, allowed)
    | (false, allowed) => anyCapable grants allowed

end

def isCapable (grants : List CapGrant) : Bool := (anyCapable r grants (replicate r.classes.length false)).1

end

mutual

/-- The grants without a profile that a grant comes to. -/
def CapGrant.leaves : CapGrant → List (CapMatch × CapSpec)
  | .mk cond spec profile_name profile_grants => if profile_name ≠ "" then leavesOf profile_grants else [(cond, spec)]

def leavesOf : List CapGrant → List (CapMatch × CapSpec)
  | [] => []
  | g :: grants => g.leaves ++ leavesOf grants

end

/-- The grant is for the target and permits the reads and writes. -/
def suits (r : Request) (x : CapMatch × CapSpec) : Bool :=
  x.1.isMatch r && !((r.op_may_read && !x.2.allow.getLsbD 1) || (r.op_may_write && !x.2.allow.getLsbD 2))

section
variable (r : Request) (known : ClassInfo → Bool) (l : List (CapMatch × CapSpec))

/-- The flags after the grants `l`, with those of `known` before. -/
def flagged (c : ClassInfo) : Bool := known c || l.any fun x => suits r x && x.2.permits c

def Granted : Prop :=
  (∃ x ∈ l, suits r x) ∧
    (r.classes = [] ∨ (∃ x ∈ l, suits r x ∧ x.2.allowAll) ∨ ∀ c ∈ r.classes, flagged r known l c)

def Outcome (res : Bool × List Bool) : Prop :=
  (res.1 = true ↔ Granted r known l) ∧ (res.1 = false → res.2 = r.classes.map (flagged r known l))

end

variable {r : Request} {known : ClassInfo → Bool} {l l' : List (CapMatch × CapSpec)} {c : ClassInfo} {grants grants' : List CapGrant}

private theorem flagged_iff : flagged r known l c ↔ known c ∨ ∃ x ∈ l, suits r x ∧ x.2.permits c := by simp [flagged]

private theorem flagged_append : flagged r (flagged r known l) l' = flagged r known (l ++ l') := by
  funext c
  simp [flagged, Bool.or_assoc]

private theorem Granted.mono (hsub : ∀ x ∈ l, suits r x → x ∈ l') (h : Granted r known l) : Granted r known l' := by
  obtain ⟨⟨x, hx, hs⟩, hc⟩ := h
  refine ⟨⟨x, hsub x hx hs, hs⟩, hc.imp_right (Or.imp (fun ⟨y, hy, h⟩ => ⟨y, hsub y hy h.1, h⟩) fun h c hc => ?_)⟩
  exact flagged_iff.2 ((flagged_iff.1 (h c hc)).imp_right fun ⟨y, hy, h⟩ => ⟨y, hsub y hy h.1, h⟩)

private theorem granted_append (h : ¬ Granted r known l) :
    Granted r (flagged r known l) l' ↔ Granted r known (l ++ l') := by
  rw [Granted, flagged_append]
  constructor
  · rintro ⟨⟨x, hx, hs⟩, hc⟩
    refine ⟨⟨x, mem_append_right l hx, hs⟩, hc.imp_right (Or.imp_left ?_)⟩
    exact fun ⟨y, hy, h⟩ => ⟨y, mem_append_right l hy, h⟩
  · rintro ⟨⟨x, hx, hs⟩, hc⟩
    refine ⟨by_contra fun hno => h ?_, hc.imp_right (Or.imp_left ?_)⟩
    · refine Granted.mono (fun y hy hs => ?_) ⟨⟨x, hx, hs⟩, hc⟩
      exact (mem_append.1 hy).resolve_right fun hy => hno ⟨y, hy, hs⟩
    · rintro ⟨y, hy, hs, ha⟩
      refine ⟨y, (mem_append.1 hy).resolve_left fun hy => h ?_, hs, ha⟩
      exact ⟨⟨y, hy, hs⟩, .inr (.inl ⟨y, hy, hs, ha⟩)⟩

private theorem outcome_leaf (s : CapSpec) (cond : CapMatch) :
    Outcome r known [(cond, s)] (s.isCapable r cond (r.classes.map known)) := by
  unfold CapSpec.isCapable
  split
  · rename_i hm
    split
    · rename_i hno
      have hs : suits r (cond, s) = false := by simp only [suits, hno, Bool.not_true, Bool.and_false]
      simp [Outcome, Granted, flagged, hs]
    rename_i hok
    have hs : suits r (cond, s) := by simp only [suits, hm, hok, Bool.not_false, Bool.and_true]
    split
    · simp_all [Outcome, Granted, ← or_assoc]
    · simp_all [Outcome, Granted, flagged, zipWith_map_right]
  · rename_i hm
    have hs : suits r (cond, s) = false := by simp only [suits, hm, Bool.false_and]
    simp [Outcome, Granted, flagged, hs]

mutual

theorem CapGrant.outcome (known : ClassInfo → Bool) :
    (g : CapGrant) → Outcome r known g.leaves (g.isCapable r (r.classes.map known))
  | .mk cond spec profile_name profile_grants => by
    rw [CapGrant.leaves, CapGrant.isCapable]
    split
    · exact outcome_anyCapable known profile_grants
    · exact outcome_leaf spec cond

private theorem outcome_anyCapable (known : ClassInfo → Bool) :
    (grants : List CapGrant) → Outcome r known (leavesOf grants) (anyCapable r grants (r.classes.map known))
  | [] => by simp [Outcome, Granted, leavesOf, anyCapable, flagged]
  | g :: grants => by
    obtain ⟨hiff, hflags⟩ := g.outcome known
    rw [leavesOf, anyCapable]
    split
    · rename_i heq
      rw [heq] at hiff
      exact ⟨iff_of_true rfl ((hiff.1 rfl).mono fun x hx _ => mem_append_left _ hx), nofun⟩
    · rename_i heq
      rw [heq] at hiff hflags
      have hno : ¬ Granted r known g.leaves := fun hg => by cases hiff.2 hg
      have hrest := outcome_anyCapable (flagged r known g.leaves) grants
      obtain rfl := hflags rfl
      rwa [Outcome, granted_append hno, flagged_append] at hrest

end

private theorem isCapable_iff : isCapable r grants ↔ Granted r (fun _ => false) (leavesOf grants) := by
  rw [isCapable, ← map_const']
  exact (outcome_anyCapable _ grants).1

private theorem isCapable_mono (hsub : grants ⊆ grants') (h : isCapable r grants) : isCapable r grants' := by
  have hmem (x : CapMatch × CapSpec) (gs : List CapGrant) : x ∈ leavesOf gs ↔ ∃ g ∈ gs, x ∈ g.leaves := by
    induction gs with
    | nil => simp [leavesOf]
    | cons g gs ih => simp [leavesOf, ih]
  refine isCapable_iff.2 ((isCapable_iff.1 h).mono fun x hx _ => ?_)
  obtain ⟨g, hg, hx⟩ := (hmem x grants).1 hx
  exact (hmem x grants').2 ⟨g, hsub hg, hx⟩

/-- The answer is given by the grants that are for the target and permit the reads and writes: there is one, and no
class is called, or one of them allows all, or each class is permitted by one of them. The order of the grants does not
matter, and another grant does not refuse what was allowed. -/
theorem isCapable_by_set (r : Request) (grants : List CapGrant) :
    (isCapable r grants = true ↔ (∃ x ∈ leavesOf grants, suits r x) ∧
      (r.classes = [] ∨ (∃ x ∈ leavesOf grants, suits r x ∧ x.2.allowAll) ∨
        ∀ c ∈ r.classes, ∃ x ∈ leavesOf grants, suits r x ∧ x.2.permits c)) ∧
    (∀ grants', grants ~ grants' → isCapable r grants' = isCapable r grants) ∧
    ∀ l₁ l₂ g, grants = l₁ ++ l₂ → isCapable r grants = true → isCapable r (l₁ ++ g :: l₂) = true := by
  refine ⟨?_, fun grants' hp => ?_, ?_⟩
  · simp only [isCapable_iff, Granted, flagged_iff, Bool.false_eq_true, false_or]
  · exact Bool.eq_iff_iff.2 ⟨isCapable_mono hp.symm.subset, isCapable_mono hp.subset⟩
  · rintro l₁ l₂ g rfl
    exact isCapable_mono ((Sublist.refl l₁).append (sublist_cons_self g l₂)).subset

end Lunule.OsdCap
