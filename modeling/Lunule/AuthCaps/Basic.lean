import Mathlib

/-!
# MDS capability decisions

`MDSAuthCaps::is_capable` answers whether the grants of a client allow a request on an inode. The definitions follow
`MDSAuthCaps.cc`; `Granted` says what the answer is meant to be, with the groups of the caller as a set and the path
test on path components.

The code restricts the groups of the caller to those of the grant with `std::set_intersection`, a merge that expects
both lists in ascending order. The list of the grant is sorted when the capability is parsed; the list of the caller
comes from the client as it is, and the merge overlooks a group that stands behind a larger one (`mem_setIntersection`).
Also, `match` takes the uid of the caller as an `int`. `Misjudged` says where this changes the answer for a grant.
-/

namespace Lunule.AuthCaps
open List

abbrev Path := List Char

structure CapSpec where
  read : Bool
  write : Bool
  any : Bool
  setVxattr : Bool
  deriving DecidableEq

/-- `MDS_AUTH_UID_ANY`. -/
def uidAny : ℤ := -1

def normalizePath (path : Path) : Path := path.dropWhile (· = '/')

/-- The conditions of a grant, as a parsed capability has them: `parse` sorts the gids. -/
structure CapMatch where
  uid : ℤ := uidAny
  gids : List ℕ := []
  path : Path := []
  sorted : gids.Pairwise (· ≤ ·) := by decide

def CapMatch.parsed (path : Path) (uid : ℤ) (gids : List ℕ) : CapMatch where
  uid := uid
  gids := gids.insertionSort (· ≤ ·)
  path := normalizePath path
  sorted := pairwise_insertionSort (· ≤ ·) gids

structure CapGrant where
  spec : CapSpec
  cond : CapMatch

structure Request where
  inodePath : Path
  inodeUid : ℕ
  inodeGid : ℕ
  inodeMode : ℕ
  callerUid : ℕ
  callerGid : ℕ
  callerGidList : Option (List ℕ)
  mask : ℕ
  newUid : ℕ
  newGid : ℕ

namespace Request
variable (r : Request)

def mayRead : Bool := r.mask.testBit 0
def mayWrite : Bool := r.mask.testBit 1
def mayExecute : Bool := r.mask.testBit 2
def mayChown : Bool := r.mask.testBit 4
def mayChgrp : Bool := r.mask.testBit 5
def maySetVxattr : Bool := r.mask.testBit 6

end Request

def CapSpec.allows (s : CapSpec) (r w : Bool) : Bool := s.any || (!(r && !s.read) && !(w && !s.write))

/-- A `uid_t` passed as an `int`. -/
def asInt (uid : ℕ) : ℤ := Int.bmod uid (2 ^ 32)

variable (m : CapMatch)

def CapMatch.matchPath (target : Path) : Bool :=
  if m.path = [] then true
  else m.path.isPrefixOf target &&
    !(decide (target.length > m.path.length) && (m.path.getLast? != some '/') &&
      (target[m.path.length]? != some '/'))

def CapMatch.matches (r : Request) : Bool :=
  (decide (m.uid = uidAny) ||
    (decide (m.uid = asInt r.callerUid) &&
      (m.gids.isEmpty || m.gids.contains r.callerGid || (r.callerGidList.getD []).any fun g => m.gids.contains g))) &&
  m.matchPath r.inodePath

/-- The loop of `std::set_intersection`: the elements of the second list below the head of the first are passed over,
then the head is either taken with its equal or passed over itself. -/
def setIntersection : List ℕ → List ℕ → List ℕ
  | [], _ => []
  | a :: as, bs =>
    match bs.dropWhile (· < a) with
    | [] => []
    | b :: bs => if a < b then setIntersection as (b :: bs) else a :: setIntersection as bs

/-- The gids of the caller narrowed down to those of the grant. -/
def CapMatch.narrow (r : Request) : List ℕ :=
  let gids := if m.gids.contains r.callerGid then [r.callerGid] else []
  match r.callerGidList with
  | none => gids
  | some list => (gids ++ setIntersection m.gids list).insertionSort (· ≤ ·)

/-- One class of the mode (`shift` is 6 for the owner, 3 for the group and 0 for others) allows the mask. -/
def modeAllows (r : Request) (shift : ℕ) : Bool :=
  (!r.mayRead || r.inodeMode.testBit (shift + 2)) && (!r.mayWrite || r.inodeMode.testBit (shift + 1)) &&
    (!r.mayExecute || r.inodeMode.testBit shift)

/-- The Unix checks at the end of the loop of `is_capable`. -/
def unixAllows (r : Request) (gids : List ℕ) : Bool :=
  if r.mayChown && (decide (r.newUid ≠ r.callerUid) || decide (r.inodeUid ≠ r.callerUid)) then false
  else if r.mayChgrp && (decide (r.inodeUid ≠ r.callerUid) || !gids.contains r.newGid) then false
  else if r.inodeUid = r.callerUid then modeAllows r 6
  else if gids.contains r.inodeGid then modeAllows r 3
  else modeAllows r 0

/-- The body of the loop of `is_capable`: `continue` is `false`. -/
def CapGrant.isCapable (g : CapGrant) (r : Request) : Bool :=
  if g.cond.matches r && g.spec.allows (r.mayRead || r.mayExecute) r.mayWrite then
    let gids := g.cond.narrow r
    if r.maySetVxattr && !g.spec.setVxattr then false
    else if g.cond.uid = uidAny then true
    else unixAllows r gids
  else false

def isCapable (grants : List CapGrant) (r : Request) : Bool := grants.any fun g => g.isCapable r

/-! ### What is granted -/

def components (path : Path) : List Path := if path = [] then [] else path.splitOn '/'

def Request.groups (r : Request) : Set ℕ := { g | g = r.callerGid ∨ g ∈ r.callerGidList.getD [] }

/-- The Unix rules: who may change owner and group, and the class of the mode that applies. -/
structure UnixAllowed (r : Request) (groups : Set ℕ) : Prop where
  chown : r.mayChown = true → r.newUid = r.callerUid ∧ r.inodeUid = r.callerUid
  chgrp : r.mayChgrp = true → r.inodeUid = r.callerUid ∧ r.newGid ∈ groups
  owner : r.inodeUid = r.callerUid → modeAllows r 6 = true
  group : r.inodeUid ≠ r.callerUid → r.inodeGid ∈ groups → modeAllows r 3 = true
  other : r.inodeUid ≠ r.callerUid → r.inodeGid ∉ groups → modeAllows r 0 = true

/-- A grant allows the request of a caller with the given uid, if the Unix rules go by the given groups. -/
@[mk_iff]
structure Passes (g : CapGrant) (r : Request) (uid : ℤ) (groups : Set ℕ) : Prop where
  below : components g.cond.path <+: components r.inodePath
  caller : g.cond.uid = uidAny ∨ g.cond.uid = uid ∧ (g.cond.gids = [] ∨ ∃ x ∈ g.cond.gids, x ∈ r.groups)
  allows : g.spec.allows (r.mayRead || r.mayExecute) r.mayWrite = true
  vxattr : r.maySetVxattr = true → g.spec.setVxattr = true
  unix : g.cond.uid = uidAny ∨ UnixAllowed r (groups ∩ { x | x ∈ g.cond.gids })

def Granted (g : CapGrant) (r : Request) : Prop := Passes g r r.callerUid r.groups

/-- `x` is in the list, and no larger number stands before it. -/
def Met (x : ℕ) : List ℕ → Prop
  | [] => False
  | b :: bs => b = x ∨ b < x ∧ Met x bs

/-- The groups of the caller that the merge meets. -/
def Request.met (r : Request) : Set ℕ := { g | g = r.callerGid ∨ Met g (r.callerGidList.getD []) }

/-- The grant names the uid of the caller and allows the request but for the Unix rules; and the uid is no `int` and the
rules hold, or it is one and they answer otherwise by the groups that are met. -/
@[mk_iff]
structure Misjudged (g : CapGrant) (r : Request) : Prop where
  below : components g.cond.path <+: components r.inodePath
  caller : g.cond.uid = r.callerUid ∧ (g.cond.gids = [] ∨ ∃ x ∈ g.cond.gids, x ∈ r.groups)
  allows : g.spec.allows (r.mayRead || r.mayExecute) r.mayWrite = true
  vxattr : r.maySetVxattr = true → g.spec.setVxattr = true
  differs : if r.callerUid < 2 ^ 31 then
      ¬(UnixAllowed r (r.met ∩ { x | x ∈ g.cond.gids }) ↔ UnixAllowed r (r.groups ∩ { x | x ∈ g.cond.gids }))
    else UnixAllowed r (r.groups ∩ { x | x ∈ g.cond.gids })

/-! ### The path test -/

private theorem intercalate_append {α : Type*} (sep : List α) {xs ys : List (List α)} (hx : xs ≠ []) (hy : ys ≠ []) :
    sep.intercalate (xs ++ ys) = sep.intercalate xs ++ sep ++ sep.intercalate ys := by
  induction xs with
  | nil => exact absurd rfl hx
  | cons x xs ih =>
    rw [cons_append, intercalate_cons_of_ne_nil (by simp [hy])]
    by_cases hxs : xs = []
    · simp [hxs]
    · rw [ih hxs, intercalate_cons_of_ne_nil hxs]
      simp

private theorem splitOn_isPrefix {α : Type*} [DecidableEq α] (sep : α) (p t : List α) :
    p.splitOn sep <+: t.splitOn sep ↔ t = p ∨ ∃ rest, t = p ++ sep :: rest := by
  constructor
  · rintro ⟨more, hmore⟩
    have ht : t = [sep].intercalate (p.splitOn sep ++ more) := by rw [hmore, intercalate_splitOn]
    by_cases hnil : more = []
    · left
      rw [ht, hnil, append_nil, intercalate_splitOn]
    · right
      have hne : p.splitOn sep ≠ [] := splitOnP_ne_nil _ _
      rw [intercalate_append [sep] hne hnil, intercalate_splitOn] at ht
      exact ⟨[sep].intercalate more, by simpa using ht⟩
  · rintro (rfl | ⟨rest, rfl⟩)
    · exact prefix_refl _
    · exact ⟨rest.splitOn sep, (splitOnP_append_cons p rest (by simp)).symm⟩

private theorem matchPath_iff (hlast : m.path.getLast? ≠ some '/') (t : Path) :
    m.matchPath t = true ↔ components m.path <+: components t := by
  unfold CapMatch.matchPath components
  by_cases hp : m.path = []
  · simp [hp]
  have hcomps : m.path.splitOn '/' ≠ [] := splitOnP_ne_nil _ _
  by_cases ht : t = []
  · simp [ht]
  rw [if_neg hp, if_neg hp, if_neg ht, splitOn_isPrefix]
  constructor
  · intro h
    simp only [Bool.and_eq_true, isPrefixOf_iff_prefix] at h
    obtain ⟨⟨rest, rfl⟩, h⟩ := h
    cases rest with
    | nil => simp
    | cons c rest =>
      have hc : c = '/' := by simpa [hlast] using h
      exact .inr ⟨rest, by rw [hc]⟩
  · rintro (rfl | ⟨rest, rfl⟩)
    · simp
    · simp

/-! ### The groups -/

private theorem Met.mem {x : ℕ} {bs : List ℕ} (h : Met x bs) : x ∈ bs := by
  induction bs with
  | nil => exact h.elim
  | cons b bs ih =>
    rcases h with rfl | ⟨-, h⟩
    · exact mem_cons_self
    · exact mem_cons_of_mem _ (ih h)

private theorem met_of_ascending {x : ℕ} {bs : List ℕ} (hbs : bs.Pairwise (· ≤ ·)) (h : x ∈ bs) : Met x bs := by
  induction bs with
  | nil => exact absurd h not_mem_nil
  | cons b bs ih =>
    obtain ⟨hle, hbs⟩ := pairwise_cons.1 hbs
    rcases mem_cons.1 h with rfl | h
    · exact .inl rfl
    · exact (hle x h).eq_or_lt.imp_right fun hlt => ⟨hlt, ih hbs h⟩

private theorem met_dropWhile {a x : ℕ} (hx : a ≤ x) (bs : List ℕ) : Met x (bs.dropWhile (· < a)) ↔ Met x bs := by
  induction bs with
  | nil => rfl
  | cons b bs ih =>
    by_cases hlt : b < a
    · rw [dropWhile_cons_of_pos (by simpa using hlt), ih, Met]
      simp [show b ≠ x by omega, show b < x by omega]
    · rw [dropWhile_cons_of_neg (by simpa using hlt)]

private theorem mem_setIntersection {as : List ℕ} (ha : as.Pairwise (· ≤ ·)) (bs : List ℕ) (x : ℕ) :
    x ∈ setIntersection as bs ↔ x ∈ as ∧ Met x bs := by
  induction as generalizing bs with
  | nil => simp [setIntersection]
  | cons a as ih =>
    obtain ⟨hle, ha⟩ := pairwise_cons.1 ha
    -- nothing that is in the first list is lost in front of its head
    have hdrop : x ∈ a :: as → (Met x (bs.dropWhile (· < a)) ↔ Met x bs) := fun hx =>
      met_dropWhile ((mem_cons.1 hx).elim (fun h => h.ge) (hle x)) bs
    have hhead : ∀ b bs', bs.dropWhile (· < a) = b :: bs' → a ≤ b := by
      intro b bs' hbs
      have := List.head?_dropWhile_not (fun y => decide (y < a)) bs
      simpa [hbs] using this
    rw [← and_congr_right_iff.2 hdrop, setIntersection]
    cases hbs : bs.dropWhile (· < a) with
    | nil => simp [Met]
    | cons b bs' =>
      have hab := hhead b bs' hbs
      dsimp only
      split_ifs with hlt
      · rw [ih ha, mem_cons, Met]
        constructor
        · exact fun ⟨h1, h2⟩ => ⟨.inr h1, h2⟩
        · rintro ⟨rfl | h1, h2⟩
          · omega
          · exact ⟨h1, h2⟩
      · obtain rfl : a = b := by omega
        rw [mem_cons, mem_cons, ih ha, Met]
        constructor
        · rintro (rfl | ⟨h1, h2⟩)
          · exact ⟨.inl rfl, .inl rfl⟩
          · exact ⟨.inr h1, (hle x h1).eq_or_lt.imp_right fun h => ⟨h, h2⟩⟩
        · rintro ⟨h1, rfl | ⟨-, h2⟩⟩
          · exact .inl rfl
          · exact h1.imp_right fun h1 => ⟨h1, h2⟩

variable {r : Request}

private theorem met_subset : r.met ⊆ r.groups := fun _ => Or.imp_right Met.mem

private theorem mem_narrow (x : ℕ) : x ∈ m.narrow r ↔ x ∈ r.met ∩ { x | x ∈ m.gids } := by
  have hown : x ∈ (if m.gids.contains r.callerGid then [r.callerGid] else []) ↔ x = r.callerGid ∧ x ∈ m.gids := by
    split_ifs with h
    · simp only [mem_singleton]
      exact ⟨fun hx => ⟨hx, hx ▸ by simpa using h⟩, And.left⟩
    · simp only [not_mem_nil, false_iff]
      rintro ⟨rfl, hx⟩
      exact h (by simpa using hx)
  simp only [Set.mem_inter_iff, Request.met, Set.mem_ofPred_eq, or_and_right]
  unfold CapMatch.narrow
  cases hl : r.callerGidList with
  | none => simpa only [Option.getD_none, Met, false_and, or_false] using hown
  | some list =>
    simp only [mem_insertionSort, mem_append, hown, mem_setIntersection m.sorted, Option.getD_some]
    exact or_congr_right and_comm

/-! ### The decision -/

private theorem asInt_eq {uid : ℕ} (h : uid < 2 ^ 31) : asInt uid = uid := by
  unfold asInt
  rw [Int.bmod_eq_of_le] <;> omega

private theorem asInt_neg {uid : ℕ} (h : 2 ^ 31 ≤ uid) (h' : uid < 2 ^ 32) : asInt uid < 0 := by
  unfold asInt
  rw [Int.bmod_def, Int.emod_eq_of_lt (by omega) (by omega), if_neg (by omega)]
  omega

private theorem matches_iff (hlast : m.path.getLast? ≠ some '/') :
    m.matches r = true ↔ components m.path <+: components r.inodePath ∧
      (m.uid = uidAny ∨ m.uid = asInt r.callerUid ∧ (m.gids = [] ∨ ∃ x ∈ m.gids, x ∈ r.groups)) := by
  have hgids : (m.gids.isEmpty || m.gids.contains r.callerGid ||
      (r.callerGidList.getD []).any fun g => m.gids.contains g) = true ↔
      (m.gids = [] ∨ ∃ x ∈ m.gids, x ∈ r.groups) := by
    simp only [Bool.or_eq_true, List.isEmpty_iff, contains_iff_mem, any_eq_true, or_assoc]
    refine or_congr_right ⟨?_, ?_⟩
    · rintro (h | ⟨x, hx, h⟩)
      · exact ⟨_, h, .inl rfl⟩
      · exact ⟨x, h, .inr hx⟩
    · rintro ⟨x, h, rfl | hx⟩
      · exact .inl h
      · exact .inr ⟨x, hx, h⟩
  rw [CapMatch.matches, Bool.and_eq_true, matchPath_iff m hlast, Bool.or_eq_true, Bool.and_eq_true, hgids,
    decide_eq_true_iff, decide_eq_true_iff]
  exact and_comm

private theorem unixAllows_iff (r : Request) {gids : List ℕ} {groups : Set ℕ}
    (hgids : ∀ x, gids.contains x = true ↔ x ∈ groups) : unixAllows r gids = true ↔ UnixAllowed r groups := by
  have hown : (r.mayChown && (decide (r.newUid ≠ r.callerUid) || decide (r.inodeUid ≠ r.callerUid))) = true ↔
      ¬(r.mayChown = true → r.newUid = r.callerUid ∧ r.inodeUid = r.callerUid) := by
    simp only [Bool.and_eq_true, Bool.or_eq_true, decide_eq_true_eq]
    tauto
  have hgrp : (r.mayChgrp && (decide (r.inodeUid ≠ r.callerUid) || !gids.contains r.newGid)) = true ↔
      ¬(r.mayChgrp = true → r.inodeUid = r.callerUid ∧ r.newGid ∈ groups) := by
    simp only [Bool.and_eq_true, Bool.or_eq_true, decide_eq_true_eq, Bool.not_eq_true', ← hgids, Bool.eq_false_iff]
    tauto
  unfold unixAllows
  constructor
  · intro h
    split_ifs at h with h1 h2 huid hgid
    · exact ⟨not_not.1 (hown.not.1 h1), not_not.1 (hgrp.not.1 h2), fun _ => h, fun hne => absurd huid hne,
        fun hne => absurd huid hne⟩
    · exact ⟨not_not.1 (hown.not.1 h1), not_not.1 (hgrp.not.1 h2), fun he => absurd he huid, fun _ _ => h,
        fun _ hn => absurd ((hgids _).1 hgid) hn⟩
    · exact ⟨not_not.1 (hown.not.1 h1), not_not.1 (hgrp.not.1 h2), fun he => absurd he huid,
        fun _ hy => absurd ((hgids _).2 hy) hgid, fun _ _ => h⟩
  · rintro ⟨h1, h2, howner, hgroup, hother⟩
    rw [if_neg (hown.not.2 (not_not.2 h1)), if_neg (hgrp.not.2 (not_not.2 h2))]
    split_ifs with huid hgid
    · exact howner huid
    · exact hgroup huid ((hgids _).1 hgid)
    · exact hother huid fun hy => hgid ((hgids _).2 hy)

/-- The code goes by the uid as an `int` and by the groups that are met. -/
theorem CapGrant.isCapable_iff (g : CapGrant) (hlast : g.cond.path.getLast? ≠ some '/') :
    g.isCapable r = true ↔ Passes g r (asInt r.callerUid) r.met := by
  have hmatch := matches_iff (r := r) g.cond hlast
  have hunix := unixAllows_iff r fun x => contains_iff_mem.trans (mem_narrow g.cond (r := r) x)
  have hvx : (r.maySetVxattr && !g.spec.setVxattr) = true ↔ ¬(r.maySetVxattr = true → g.spec.setVxattr = true) := by
    cases r.maySetVxattr <;> cases g.spec.setVxattr <;> simp
  unfold CapGrant.isCapable
  constructor
  · intro h
    split_ifs at h with hpass h1 hany
    · obtain ⟨hm, hallows⟩ := Bool.and_eq_true_iff.1 hpass
      obtain ⟨hbelow, hcaller⟩ := hmatch.1 hm
      exact ⟨hbelow, hcaller, hallows, not_not.1 (hvx.not.1 h1), .inl hany⟩
    · obtain ⟨hm, hallows⟩ := Bool.and_eq_true_iff.1 hpass
      obtain ⟨hbelow, hcaller⟩ := hmatch.1 hm
      exact ⟨hbelow, hcaller, hallows, not_not.1 (hvx.not.1 h1), .inr (hunix.1 h)⟩
  · rintro ⟨hbelow, hcaller, hallows, h1, hu⟩
    rw [if_pos (Bool.and_eq_true_iff.2 ⟨hmatch.2 ⟨hbelow, hcaller⟩, hallows⟩)]
    simp only [if_neg (hvx.not.2 (not_not.2 h1))]
    split_ifs with hany
    · rfl
    · exact hunix.2 (hu.resolve_left hany)

section
variable {A B : Set ℕ} (hsub : A ⊆ B)
include hsub

/-- If more groups take a permission away, the mode gives the group less than the others. -/
theorem UnixAllowed.of_less (h : UnixAllowed r A) (hno : ¬UnixAllowed r B) :
    r.inodeUid ≠ r.callerUid ∧ modeAllows r 0 = true ∧ modeAllows r 3 ≠ true := by
  by_contra hcon
  refine hno ⟨h.chown, fun hc => ⟨(h.chgrp hc).1, hsub (h.chgrp hc).2⟩, h.owner, fun hne _ => ?_,
    fun hne hB => h.other hne fun hA => hB (hsub hA)⟩
  by_contra h3
  exact hcon ⟨hne, h.other hne fun hA => h3 (h.group hne hA), h3⟩

/-- If fewer groups take it away, the caller is the owner or the mode gives the group more than the others. -/
theorem UnixAllowed.of_more (h : UnixAllowed r B) (hno : ¬UnixAllowed r A) :
    r.inodeUid ≠ r.callerUid → modeAllows r 0 ≠ true ∧ modeAllows r 3 = true := by
  intro hne
  by_contra hcon
  refine hno ⟨h.chown, fun hc => absurd (h.chgrp hc).1 hne, h.owner, fun hne hA => h.group hne (hsub hA), fun _ _ => ?_⟩
  by_contra h0
  exact hcon ⟨h0, h.group hne (by_contra fun hB => h0 (h.other hne hB))⟩

end

section
variable (hcaller : r.callerUid < 2 ^ 32)
include hcaller

private theorem misjudged_iff_not {g : CapGrant} (huid : uidAny ≤ g.cond.uid) :
    Misjudged g r ↔ ¬(Passes g r (asInt r.callerUid) r.met ↔ Granted g r) := by
  rw [misjudged_iff, Granted, passes_iff, passes_iff]
  by_cases hany : g.cond.uid = uidAny
  · have hne : uidAny ≠ r.callerUid := by
      unfold uidAny
      omega
    simp [hany, hne]
  · split_ifs with h
    · simp only [hany, false_or, asInt_eq h, ← and_assoc]
      rw [and_congr_right_iff, Classical.not_imp]
    · have hneg := asInt_neg (not_lt.1 h) hcaller
      have hne : g.cond.uid ≠ asInt r.callerUid := by
        unfold uidAny at huid hany
        omega
      simp only [hany, hne, false_and, or_self, and_false, false_or, false_iff, not_not]

/-- A grant that is passed wrongly and one that is refused wrongly do not come together. -/
theorem Misjudged.alike {g g' : CapGrant} (h : Misjudged g r) (h' : Misjudged g' r)
    (hpass : Passes g r (asInt r.callerUid) r.met) (hno : ¬Granted g r) : ¬Granted g' r := by
  have hnamed : ∀ {g}, Misjudged g r → g.cond.uid ≠ uidAny := by
    intro g h
    rw [h.caller.1, uidAny]
    omega
  intro hg'
  have hint : r.callerUid < 2 ^ 31 := by
    by_contra hge
    have hneg := asInt_neg (not_lt.1 hge) hcaller
    have huid := (hpass.caller.resolve_left (hnamed h)).1.symm.trans h.caller.1
    omega
  have hunix := hpass.unix.resolve_left (hnamed h)
  have hunix' := hg'.unix.resolve_left (hnamed h')
  have hdiffers := h'.differs
  rw [if_pos hint] at hdiffers
  have hless := hunix.of_less (Set.inter_subset_inter_left _ met_subset) fun hall =>
    hno ⟨h.below, .inr h.caller, h.allows, h.vxattr, .inr hall⟩
  have hmore := hunix'.of_more (Set.inter_subset_inter_left _ met_subset) fun hmet => hdiffers (iff_of_true hmet hunix')
  exact (hmore hless.1).1 hless.2.1

end

/-- No grant is misjudged, or one that is not allows the request. -/
def Judged (grants : List CapGrant) (r : Request) : Prop :=
  (∃ g ∈ grants, Granted g r ∧ ¬Misjudged g r) ∨ ∀ g ∈ grants, ¬Misjudged g r

/-- In an ascending list no group is overlooked. -/
theorem judged_of_ascending (grants : List CapGrant) (hlist : (r.callerGidList.getD []).Pairwise (· ≤ ·))
    (hint : r.callerUid < 2 ^ 31) : Judged grants r := by
  have hmet : r.met = r.groups := Set.Subset.antisymm met_subset fun x => Or.imp_right (met_of_ascending hlist)
  refine .inr fun g _ h => ?_
  have := h.differs
  rw [if_pos hint, hmet] at this
  exact this Iff.rfl

private theorem isCapable_iff_granted {grants : List CapGrant} (hcaller : r.callerUid < 2 ^ 32)
    (huid : ∀ g ∈ grants, uidAny ≤ g.cond.uid) (hlast : ∀ g ∈ grants, g.cond.path.getLast? ≠ some '/') :
    (isCapable grants r = true ↔ ∃ g ∈ grants, Granted g r) ↔ Judged grants r := by
  have hcap : isCapable grants r = true ↔ ∃ g ∈ grants, Passes g r (asInt r.callerUid) r.met := by
    rw [isCapable, any_eq_true]
    exact exists_congr fun g => and_congr_right fun hg => g.isCapable_iff (hlast g hg)
  have hmis : ∀ g ∈ grants, (Misjudged g r ↔ ¬(Passes g r (asInt r.callerUid) r.met ↔ Granted g r)) :=
    fun g hg => misjudged_iff_not hcaller (huid g hg)
  rw [hcap]
  constructor
  · intro heq
    by_contra hno
    simp only [Judged, not_or, not_exists, not_and, not_not, not_forall] at hno
    obtain ⟨hall, g, hg, h⟩ := hno
    have hdiff := (hmis g hg).1 h
    by_cases hgranted : Granted g r
    · obtain ⟨g', hg', hpass⟩ := heq.2 ⟨g, hg, hgranted⟩
      have hno' : ¬Granted g' r := fun hgr => (hmis g' hg').1 (hall g' hg' hgr) (iff_of_true hpass hgr)
      have h' : Misjudged g' r := (hmis g' hg').2 fun hiff => hno' (hiff.1 hpass)
      exact h'.alike hcaller h hpass hno' hgranted
    · have hpass : Passes g r (asInt r.callerUid) r.met := by_contra fun hp => hdiff (iff_of_false hp hgranted)
      obtain ⟨g', hg', hgr⟩ := heq.1 ⟨g, hg, hpass⟩
      exact h.alike hcaller (hall g' hg' hgr) hpass hgranted hgr
  · rintro (⟨g, hg, hgr, h⟩ | hall)
    · exact iff_of_true ⟨g, hg, (not_not.1 (mt (hmis g hg).2 h)).2 hgr⟩ ⟨g, hg, hgr⟩
    · exact exists_congr fun g => and_congr_right fun hg => not_not.1 (mt (hmis g hg).2 (hall g hg))

private theorem granted_congr (g : CapGrant) (r : Request) {list : Option (List ℕ)}
    (hlist : ∀ x, x ∈ list.getD [] ↔ x ∈ r.callerGidList.getD []) :
    Granted g { r with callerGidList := list } ↔ Granted g r := by
  have hgroups : Request.groups { r with callerGidList := list } = r.groups := by
    ext x
    exact or_congr_right (hlist x)
  constructor
  · rintro ⟨h1, h2, h3, h4, h5⟩
    rw [hgroups] at h2 h5
    exact ⟨h1, h2, h3, h4, h5.imp_right fun ⟨a, b, c, d, e⟩ => ⟨a, b, c, d, e⟩⟩
  · rintro ⟨h1, h2, h3, h4, h5⟩
    refine ⟨h1, ?_, h3, h4, ?_⟩
    · rwa [hgroups]
    · rw [hgroups]
      exact h5.imp_right fun ⟨a, b, c, d, e⟩ => ⟨a, b, c, d, e⟩

/-- The decision is what is granted just if no grant is misjudged or one that is not gives the permission. Another list of
the same grants and another list of the same groups get the same answer just if both or neither are judged so. -/
theorem isCapable_by_grants {grants : List CapGrant} {r : Request} (hcaller : r.callerUid < 2 ^ 32)
    (huid : ∀ g ∈ grants, uidAny ≤ g.cond.uid) (hlast : ∀ g ∈ grants, g.cond.path.getLast? ≠ some '/') :
    ((isCapable grants r = true ↔ ∃ g ∈ grants, Granted g r) ↔ Judged grants r) ∧
      ∀ (grants' : List CapGrant) (list : Option (List ℕ)), (∀ g, g ∈ grants' ↔ g ∈ grants) →
        (∀ x, x ∈ list.getD [] ↔ x ∈ r.callerGidList.getD []) →
          (isCapable grants' { r with callerGidList := list } = isCapable grants r ↔
            (Judged grants' { r with callerGidList := list } ↔ Judged grants r)) := by
  refine ⟨isCapable_iff_granted hcaller huid hlast, fun grants' list hgrants hlist => ?_⟩
  rw [Bool.eq_iff_iff, ← isCapable_iff_granted hcaller huid hlast,
    ← isCapable_iff_granted (r := { r with callerGidList := list }) hcaller (fun g hg => huid g ((hgrants g).1 hg))
      fun g hg => hlast g ((hgrants g).1 hg),
    exists_congr fun g => and_congr (hgrants g) (granted_congr g r hlist)]
  by_cases hgranted : ∃ g ∈ grants, Granted g r
  · simp only [hgranted, iff_true]
  · simp only [hgranted, iff_false, not_iff_not]

/-- A read of `a/b` by uid 7 under a grant for the directory `a`, uid 7 and group 3; the file belongs to group 3. -/
def readShared : List CapGrant × Request :=
  ([⟨⟨true, false, false, false⟩, { uid := 7, gids := [3], path := ['a'] }⟩],
    ⟨['a', '/', 'b'], 0, 3, 0o040, 7, 9, some [3, 5], 1, 0, 0⟩)

theorem isCapable_by_grants_readShared : (∃ g ∈ readShared.1, Granted g readShared.2) ∧
      isCapable (readShared.1 ++ readShared.1) { readShared.2 with callerGidList := some [3, 3, 5] } =
        isCapable readShared.1 readShared.2 := by
  have hmain := @isCapable_by_grants readShared.1 readShared.2 (by decide)
    (by simp [readShared, uidAny]) (by simp [readShared])
  have hjudged := judged_of_ascending (r := readShared.2) readShared.1 (by decide) (by decide)
  refine ⟨(hmain.1.2 hjudged).1 (by decide +kernel), (hmain.2 _ _ ?_ ?_).2 (iff_of_true ?_ hjudged)⟩
  · simp
  · simp [readShared]
  · exact judged_of_ascending _ (by decide) (by decide)

/-- With the same groups in the other order the merge stops at the larger one and the read is refused. A uid of
`2^31` or more never equals that of a grant. -/
theorem isCapable_depends_on_order : isCapable readShared.1 readShared.2 = true ∧
      isCapable readShared.1 { readShared.2 with callerGidList := some [5, 3] } = false ∧
      isCapable [⟨⟨true, true, true, true⟩, { uid := 2 ^ 31 }⟩]
        { readShared.2 with callerUid := 2 ^ 31, inodeUid := 2 ^ 31, inodeMode := 0o700 } = false := by
  decide +kernel

end Lunule.AuthCaps
