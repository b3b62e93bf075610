import Lunule.Cache.Counter
import Lunule.Cache.Density

/-!
# Hit windows over the tree

`CInode::hit` counts a hit on the inode and on every ancestor, in the epoch that each of these counters happens to be
in; `alpha_beta` moves the counters of one inode, and on the way those of inodes below it, to the current epoch. The
counts that `alpha_beta` reads are those of the preceding epoch as long as every counter is moved in step: an ancestor
has reached the epoch of a hit before the hit, and counters that hold hits move by one epoch at a time.
-/

namespace Lunule.Cache
open Climb Exec List HitCount MDCache Function Option

/-! ### Inodes above an inode -/

namespace Shape
variable {S : Shape} {i j x : InodePtr} {l : List InodePtr}

def upInode (S : Shape) (i : InodePtr) : Option InodePtr := (S.parent i).map fun dn => S.owner dn.1

def isOver (S : Shape) (i j : InodePtr) : Bool :=
  match climb S.upInode S.numInodes j with
  | some l => l.contains i
  | none => false

private theorem upInode_owner (S : Shape) (d : DirPtr) : S.upInode (S.owner d) = (S.up d).map S.owner := by
  simp [upInode, up, comp_def]

private theorem chain_owner {d : DirPtr} {l : List DirPtr} (h : Chain S.up d l) :
    Chain S.upInode (S.owner d) (l.map S.owner) := by
  induction h with
  | root h0 => exact .root (by simp [upInode_owner, h0])
  | step h0 _ ih => exact .step (by simp [upInode_owner, h0]) ih

section
variable (h : S.Linked)
include h

private theorem Linked.rooted_upInode : Rooted S.upInode := by
  intro i
  cases hp : S.parent i with
  | none => exact ⟨[i], .root (by simp [upInode, hp])⟩
  | some dn =>
    obtain ⟨l, hl⟩ := h.rooted dn.1
    exact ⟨i :: l.map S.owner, .step (by simp [upInode, hp]) (chain_owner hl)⟩

private theorem Linked.upInode_lt (hx : S.upInode i = some x) : x < S.numInodes := by
  obtain ⟨⟨d, key⟩, hp, rfl⟩ := map_eq_some_iff.1 hx
  exact (h.fragBound (h.isOpen_of_parent hp)).1

private theorem Linked.chain_upInode_lt (hi : i < S.numInodes) (hl : Chain S.upInode i l) :
    ∀ x ∈ l, x < S.numInodes := by
  intro x hx
  by_cases hxi : x = i
  · exact hxi ▸ hi
  · obtain ⟨y, -, hy⟩ := hl.exists_up_eq hx hxi
    exact h.upInode_lt hy

private theorem Linked.isOver_iff (hj : j < S.numInodes) (hl : Chain S.upInode j l) : S.isOver i j = true ↔ i ∈ l := by
  rw [isOver, hl.climb_eq (h.chain_upInode_lt hj hl)]
  simp

private theorem Linked.isOver_self (hj : j < S.numInodes) : S.isOver j j = true := by
  obtain ⟨l, hl⟩ := h.rooted_upInode j
  exact (h.isOver_iff hj hl).2 hl.mem_self

private theorem Linked.isOver_of_up (hj : j < S.numInodes) (hx : S.upInode j = some x)
    (hi : S.isOver i x = true) : S.isOver i j = true := by
  obtain ⟨l, hl⟩ := h.rooted_upInode x
  rw [h.isOver_iff (h.upInode_lt hx) hl] at hi
  exact (h.isOver_iff hj (.step hx hl)).2 (mem_cons_of_mem _ hi)

private theorem Linked.isOver_trans (hx : x < S.numInodes) (hij : S.isOver i j = true)
    (hjx : S.isOver j x = true) : S.isOver i x = true := by
  obtain ⟨l, hl⟩ := h.rooted_upInode x
  have hj := (h.isOver_iff hx hl).1 hjx
  obtain ⟨l', hl', hs⟩ := hl.of_mem hj
  rw [h.isOver_iff (h.chain_upInode_lt hx hl j hj) hl'] at hij
  exact (h.isOver_iff hx hl).2 (hs.subset hij)

end
end Shape

/-! ### Hits counted by epoch -/

abbrev HitLog := List (InodePtr × Int)

def Recent (log : HitLog) (x : InodePtr) (t : Int) : Prop := ∃ n < queueLen, (x, t - queueLen + (n : Nat)) ∈ log

instance (log : HitLog) (x : InodePtr) (t : Int) : Decidable (Recent log x t) :=
  inferInstanceAs (Decidable (∃ n < queueLen, _))

/-- The class of a hit: 0 if the inode was hit in the five preceding epochs, 1 if it was not. -/
def kind (log : HitLog) (x : InodePtr) (t : Int) : Fin 2 := if Recent log x t then 0 else 1

/-- The inodes at or below `i` that were hit in epoch `t` with a hit of class `k`. -/
def hitsIn (S : Shape) (log : HitLog) (i : InodePtr) (t : Int) (k : Fin 2) : Finset InodePtr :=
  (Finset.range S.numInodes).filter fun x => S.isOver i x = true ∧ (x, t) ∈ log ∧ kind log x t = k

section
variable {S : Shape} {log log' : HitLog} {i j x : InodePtr} {t e : Int} {k : Fin 2}

private theorem hitsIn_eq_empty (h : ∀ x, S.isOver i x = true → (x, t) ∉ log) : hitsIn S log i t k = ∅ := by
  refine Finset.filter_eq_empty_iff.2 fun x _ hx => ?_
  exact h x hx.1 hx.2.1

private theorem kind_congr
    (h : ∀ n < queueLen, ((x, t - queueLen + (n : Nat)) ∈ log' ↔ (x, t - queueLen + (n : Nat)) ∈ log)) :
    kind log' x t = kind log x t := by
  have : Recent log' x t ↔ Recent log x t := exists_congr fun n => and_congr_right fun hn => h n hn
  simp [kind, this]

private theorem hitsIn_congr
    (h : ∀ x, S.isOver i x = true → ((x, t) ∈ log' ↔ (x, t) ∈ log) ∧ kind log' x t = kind log x t) :
    hitsIn S log' i t k = hitsIn S log i t k := by
  refine Finset.filter_congr fun x _ => and_congr_right fun hx => ?_
  rw [(h x hx).1, (h x hx).2]

private theorem kind_cons (hte : t ≤ e) (x : InodePtr) : kind ((i, e) :: log) x t = kind log x t := by
  refine kind_congr fun n hn => ?_
  simp only [mem_cons, Prod.mk.injEq, or_iff_right_iff_imp]
  omega

private theorem hitsIn_cons_of_lt (hte : t < e) : hitsIn S ((i, e) :: log) j t k = hitsIn S log j t k := by
  refine hitsIn_congr fun x _ => ⟨?_, kind_cons (le_of_lt hte) x⟩
  simp only [mem_cons, Prod.mk.injEq, or_iff_right_iff_imp]
  omega

private theorem hitsIn_cons_of_not_over (hte : t ≤ e) (hij : S.isOver j i = false) :
    hitsIn S ((i, e) :: log) j t k = hitsIn S log j t k := by
  refine hitsIn_congr fun x hx => ⟨?_, kind_cons hte x⟩
  simp only [mem_cons, or_iff_right_iff_imp]
  rintro ⟨rfl, -⟩
  simp [hx] at hij

private theorem card_hitsIn_cons (hi : i < S.numInodes) (hnew : (i, e) ∉ log) (hij : S.isOver j i = true) :
    (hitsIn S ((i, e) :: log) j e k).card = (hitsIn S log j e k).card + if kind log i e = k then 1 else 0 := by
  have hmem : ∀ x, x ∈ hitsIn S ((i, e) :: log) j e k ↔ x ∈ hitsIn S log j e k ∨ x = i ∧ kind log i e = k := by
    intro x
    simp only [hitsIn, kind_cons (le_refl e)]
    by_cases hx : x = i
    · subst hx
      simp [hi, hij]
    · simp [hx]
  have hnot : i ∉ hitsIn S log j e k := by simp [hitsIn, hnew]
  by_cases hk : kind log i e = k
  · have : hitsIn S ((i, e) :: log) j e k = insert i (hitsIn S log j e k) := by
      ext x
      rw [hmem, Finset.mem_insert]
      tauto
    rw [this, Finset.card_insert_of_notMem hnot, if_pos hk]
  have : hitsIn S ((i, e) :: log) j e k = hitsIn S log j e k := by
    ext x
    rw [hmem]
    tauto
  rw [this, if_neg hk]
  rfl

end

/-! ### The counters of one inode -/

namespace HitCount
variable {S : Shape} {log : HitLog} {j : InodePtr} {h : HitCount} {e : Int}

def roll (h : HitCount) (e : Int) : HitCount := (h.maybeUpdateEpoch e).1

@[simp] theorem roll_beatEpoch (h : HitCount) (e : Int) : (h.roll e).beatEpoch = e := rfl

private theorem roll_of_lt (hlt : h.beatEpoch < e) : h.roll e =
    { hitcount := h.hitcount.switchEpoch (e - h.beatEpoch).toNat, newoldhit := fun _ => 0,
      lastNewoldhit := h.newoldhit, beatEpoch := e } := by
  simp [roll, maybeUpdateEpoch, hlt]

private theorem roll_of_le (hle : e ≤ h.beatEpoch) : h.roll e = { h with beatEpoch := e } := by
  simp [roll, maybeUpdateEpoch, not_lt.2 hle]

private theorem roll_roll (h : HitCount) (e : Int) : (h.roll e).roll e = h.roll e := roll_of_le (le_refl e)

private theorem maybeUpdateEpoch_nonneg (h : HitCount) (e : Int) : ¬(h.maybeUpdateEpoch e).2 < 0 := by
  simp only [maybeUpdateEpoch]
  split <;> omega

/-- The counters may move to epoch `e`: they hold no hit or move by one epoch, and a first move finds the counter as
its constructor should leave it or jumps over the whole window. -/
def InStep (h : HitCount) (e : Int) : Prop :=
  (h.newoldhit 0 = 0 ∧ h.newoldhit 1 = 0 ∨ e ≤ h.beatEpoch + 1) ∧ (h.beatEpoch = -1 → 6 ≤ e ∨ h.hitcount = {})

instance (h : HitCount) (e : Int) : Decidable (h.InStep e) := inferInstanceAs (Decidable (_ ∧ _))

/-- The counters of inode `j` say what the log does. -/
structure Keeps (S : Shape) (log : HitLog) (j : InodePtr) (h : HitCount) : Prop where
  reached : ∀ {x t}, S.isOver j x = true → (x, t) ∈ log → t ≤ h.beatEpoch
  now : ∀ k, h.newoldhit k = (hitsIn S log j h.beatEpoch k).card
  before : ∀ k, h.lastNewoldhit k = (hitsIn S log j (h.beatEpoch - 1) k).card
  window : h.beatEpoch ≠ -1 → h.hitcount.Tracks (fun t => decide ((j, t) ∈ log)) h.beatEpoch ∧
    h.hitcount.lastHit = decide ((j, h.beatEpoch) ∈ log)

section
variable (hk : Keeps S log j h)
include hk

private theorem Keeps.hitsIn_after {t : Int} (ht : h.beatEpoch < t) (k : Fin 2) : hitsIn S log j t k = ∅ :=
  hitsIn_eq_empty fun _ hx hmem => absurd (hk.reached hx hmem) (not_le.2 ht)

private theorem Keeps.tracks_roll (hlt : h.beatEpoch < e) (hs : h.InStep e)
    (hself : S.isOver j j = true) (hlog : ∀ p ∈ log, 0 ≤ p.2) :
    (h.hitcount.switchEpoch (e - h.beatEpoch).toNat).Tracks (fun t => decide ((j, t) ∈ log)) e ∧
      (h.hitcount.switchEpoch (e - h.beatEpoch).toNat).lastHit = false := by
  have hafter : ∀ t, h.beatEpoch < t → (j, t) ∉ log := fun t ht hmem => absurd (hk.reached hself hmem) (not_le.2 ht)
  have hjump : h.beatEpoch + ((e - h.beatEpoch).toNat : Int) = e := by omega
  have hrest : ∀ u, h.beatEpoch < u → u < h.beatEpoch + ((e - h.beatEpoch).toNat : Int) →
      decide ((j, u) ∈ log) = false := fun u hu _ => decide_eq_false (hafter u hu)
  by_cases hfirst : h.beatEpoch = -1
  · have hneg : ∀ t, t < 0 → (j, t) ∉ log := fun t ht hmem => absurd (hlog _ hmem) (not_le.2 ht)
    rcases hs.2 hfirst with he | he
    · have hlarge : queueLen + 1 < (e - h.beatEpoch).toNat := by
        simp only [queueLen]
        omega
      rw [ReqCounter.switchEpoch, if_pos hlarge]
      refine ⟨ReqCounter.Tracks.empty fun n hn => decide_eq_false ?_, rfl⟩
      exact hafter _ (by simp only [queueLen]; omega)
    · have htr : h.hitcount.Tracks (fun t => decide ((j, t) ∈ log)) h.beatEpoch := by
        rw [he]
        refine ReqCounter.Tracks.empty fun n hn => decide_eq_false (hneg _ ?_)
        omega
      have hlast : h.hitcount.lastHit = decide ((j, h.beatEpoch) ∈ log) := by
        rw [he, decide_eq_false (hneg _ (by omega))]
      have := htr.switchEpoch hlast (by omega) hrest
      rwa [hjump] at this
  · obtain ⟨htr, hlast⟩ := hk.window hfirst
    have := htr.switchEpoch hlast (by omega) hrest
    rwa [hjump] at this

private theorem Keeps.roll (hle : h.beatEpoch ≤ e) (hs : h.InStep e) (hself : S.isOver j j = true)
    (hlog : ∀ p ∈ log, 0 ≤ p.2) : Keeps S log j (h.roll e) := by
  rcases lt_or_eq_of_le hle with hlt | rfl
  · have htr := hk.tracks_roll hlt hs hself hlog
    rw [roll_of_lt hlt]
    refine ⟨fun hx hmem => (hk.reached hx hmem).trans hle, fun k => ?_, fun k => ?_, fun _ => ⟨htr.1, ?_⟩⟩
    · simp [hk.hitsIn_after hlt]
    · -- the counts of the epoch before, or none were made since
      by_cases hone : e = h.beatEpoch + 1
      · have : e - 1 = h.beatEpoch := by omega
        simp only [this]
        exact hk.now k
      have hzero : h.newoldhit k = 0 := by
        rcases hs.1 with h0 | h0
        · rcases (show k = 0 ∨ k = 1 by omega) with rfl | rfl
          · exact h0.1
          · exact h0.2
        · omega
      simp only [hzero, hk.hitsIn_after (show h.beatEpoch < e - 1 by omega), Finset.card_empty]
    · rw [htr.2]
      exact (decide_eq_false fun hmem => absurd (hk.reached hself hmem) (not_le.2 hlt)).symm
  · rw [roll_of_le (le_refl _)]
    exact ⟨hk.reached, hk.now, hk.before, hk.window⟩

private theorem Keeps.of_mem_iff {log' : HitLog} (hmem : ∀ p, p ∈ log' ↔ p ∈ log) : Keeps S log' j h := by
  have hkind : ∀ x t, kind log' x t = kind log x t := fun x t => kind_congr fun n _ => hmem _
  have hin : ∀ t k, hitsIn S log' j t k = hitsIn S log j t k := fun t k => hitsIn_congr fun x _ => ⟨hmem _, hkind x t⟩
  refine ⟨fun hx hm => hk.reached hx ((hmem _).1 hm), fun k => ?_, fun k => ?_, fun hb => ?_⟩
  · rw [hin]
    exact hk.now k
  · rw [hin]
    exact hk.before k
  · simpa only [hmem] using hk.window hb

private theorem Keeps.hit_elsewhere {i : InodePtr} (hle : h.beatEpoch ≤ e)
    (hji : S.isOver j i = false) (hself : S.isOver j j = true) : Keeps S ((i, e) :: log) j h := by
  have hne : j ≠ i := by
    rintro rfl
    simp [hself] at hji
  refine ⟨fun {x t} hx hm => ?_, fun k => ?_, fun k => ?_, fun hb => ?_⟩
  · rcases mem_cons.1 hm with hm | hm
    · obtain ⟨rfl, rfl⟩ := Prod.mk.inj hm
      simp [hx] at hji
    · exact hk.reached hx hm
  · rw [hitsIn_cons_of_not_over hle hji]
    exact hk.now k
  · rw [hitsIn_cons_of_not_over (by omega) hji]
    exact hk.before k
  · have hmem : ∀ t, (j, t) ∈ (i, e) :: log ↔ (j, t) ∈ log := by
      simp [hne]
    simpa only [hmem] using hk.window hb

private theorem Keeps.hit_below {i : InodePtr} (hbeat : h.beatEpoch = e) (hi : i < S.numInodes)
    (hnew : (i, e) ∉ log) (hji : S.isOver j i = true) {h' : HitCount}
    (hcount : h'.newoldhit = (h.count (kind log i e)).newoldhit) (hlast : h'.lastNewoldhit = h.lastNewoldhit) (hbeat' : h'.beatEpoch = e)
    (hwin : e ≠ -1 → h'.hitcount.Tracks (fun t => decide ((j, t) ∈ (i, e) :: log)) e ∧
      h'.hitcount.lastHit = decide ((j, e) ∈ (i, e) :: log)) : Keeps S ((i, e) :: log) j h' := by
  subst hbeat
  refine ⟨fun {x t} hx hm => ?_, fun k => ?_, fun k => ?_, by rw [hbeat']; exact hwin⟩
  · rw [hbeat']
    rcases mem_cons.1 hm with hm | hm
    · exact le_of_eq (Prod.mk.inj hm).2
    · exact hk.reached hx hm
  · rw [hbeat', card_hitsIn_cons hi hnew hji, hcount, ← hk.now k]
    by_cases hkk : k = kind log i h.beatEpoch
    · subst hkk
      simp [count]
    · simp [count, hkk, Ne.symm hkk]
  · rw [hbeat', hlast, hitsIn_cons_of_lt (by omega)]
    exact hk.before k

end

def mark (h : HitCount) : HitCount := { h with hitcount := { h.hitcount with lastHit := true } }

def hitKind (h : HitCount) : Fin 2 := if h.hitcount.cacheHitTimes = 0 then 1 else 0

end HitCount

/-! ### Hits on the cache -/

namespace MDCache
variable {c c' : MDCache} {i j : InodePtr} {e : Int} {l : List InodePtr}

def hits (c : MDCache) (i : InodePtr) : HitCount := (c.inodes i).hits

private theorem shape_setInode_same {X : CInode} (hp : X.parent = (c.inodes i).parent)
    (hf : X.dirfrags = (c.inodes i).dirfrags) : (c.setInode i X).shape = c.shape := by
  have hpar : update c.shape.parent i (c.inodes i).parent = c.shape.parent := update_eq_self i c.shape.parent
  have hfr : update c.shape.dirfrags i (c.inodes i).dirfrags = c.shape.dirfrags := update_eq_self i c.shape.dirfrags
  rw [shape_setInode, hp, hf, hpar, hfr]

private theorem shape_setHits (c : MDCache) (i : InodePtr) (h : HitCount) : (c.setHits i h).shape = c.shape :=
  shape_setInode_same rfl rfl

private theorem hits_setHits (c : MDCache) (i : InodePtr) (h : HitCount) (j : InodePtr) :
    (c.setHits i h).hits j = if j = i then h else c.hits j := by
  by_cases hj : j = i
  · subst hj
    simp [hits, setHits, setInode]
  · simp [hits, setHits, setInode, hj]

private theorem hitAncestors_eq (k : Fin 2) (hl : Chain c.shape.upInode i l) {n : Nat} (hn : l.length ≤ n) :
    ∃ c', hitAncestors k n c i = some c' ∧ c'.shape = c.shape ∧
      ∀ j, c'.hits j = if j ∈ l ∧ j ≠ i then (c.hits j).count k else c.hits j := by
  generalize hup : c.shape.upInode = up at hl
  induction hl generalizing c n with
  | @root i h0 =>
    obtain ⟨n, rfl⟩ : ∃ m, n = m + 1 := ⟨n - 1, by simp at hn; omega⟩
    have hpar : c.parentInode i = none := (congrFun hup i).trans h0
    refine ⟨c, by simp [hitAncestors, hpar], rfl, fun j => ?_⟩
    simp
  | @step i p l h0 hp ih =>
    obtain ⟨n, rfl⟩ : ∃ m, n = m + 1 := ⟨n - 1, by simp at hn; omega⟩
    have hpar : c.parentInode i = some p := (congrFun hup i).trans h0
    obtain ⟨c', hc', hshape, hhits⟩ := ih (c := c.setHits p ((c.inodes p).hits.count k)) (by simpa using hn)
      (by rw [shape_setHits, hup])
    rw [shape_setHits] at hshape
    refine ⟨c', by simp [hitAncestors, hpar, hc'], hshape, fun j => ?_⟩
    have hnd := nodup_cons.1 (Chain.step h0 hp).nodup
    rw [hhits j, hits_setHits]
    by_cases hjp : j = p
    · subst hjp
      have hji : j ≠ i := by
        rintro rfl
        exact hnd.1 hp.mem_self
      simp [hp.mem_self, hji, hits]
    · by_cases hji : j = i
      · subst hji
        simp [hnd.1, hjp]
      · simp [hji, hjp]

/-- `CInode::hit` on a tree: the counters of the inode move to the epoch, and a first hit in it counts for the inode and
for every inode above. -/
theorem hit_eq (h : c.shape.Linked) (hi : i < c.numInodes) (hl : Chain c.shape.upInode i l) (e : Int) :
    ∃ c' r, c.hit i true e = some (c', r) ∧ c'.shape = c.shape ∧
      (((c.hits i).roll e).hitcount.lastHit = true → ∀ j, c'.hits j = if j = i then (c.hits i).roll e else c.hits j) ∧
      (((c.hits i).roll e).hitcount.lastHit = false →
        ∀ j, c'.hits j = if j = i then ((c.hits i).roll e).mark.count ((c.hits i).roll e).hitKind
          else if j ∈ l then (c.hits j).count ((c.hits i).roll e).hitKind else c.hits j) := by
  have hret : ¬(((c.inodes i).hits.maybeUpdateEpoch e).2 < 0) := maybeUpdateEpoch_nonneg _ _
  have hroll : ((c.inodes i).hits.maybeUpdateEpoch e).1 = (c.hits i).roll e := rfl
  cases hlast : ((c.hits i).roll e).hitcount.lastHit with
  | true =>
    refine ⟨c.setHits i ((c.hits i).roll e), -1, ?_, shape_setHits .., fun _ j => hits_setHits .., by simp⟩
    simp only [hit, hret, hroll, ReqCounter.hit, hlast, and_false, if_false, if_true]
  | false =>
    obtain ⟨c', hc', hshape, hhits⟩ := hitAncestors_eq
      (c := c.setHits i (((c.hits i).roll e).mark.count ((c.hits i).roll e).hitKind)) ((c.hits i).roll e).hitKind (i := i) (l := l)
      (by rw [shape_setHits]; exact hl) (hl.length_le (h.chain_upInode_lt hi hl))
    rw [shape_setHits] at hshape
    refine ⟨c', (((c.hits i).roll e).hitKind.val : Int), ?_, hshape, by simp, fun _ j => ?_⟩
    · simp only [hit, hret, hroll, ReqCounter.hit, hlast, if_true]
      exact congrArg (Option.map _) hc'
    · rw [hhits j, hits_setHits]
      by_cases hji : j = i
      · simp [hji]
      · simp [hji]

/-! ### Counting a subtree -/

/-- Some inodes at or below `i` have been moved to epoch `e`. -/
structure Refreshes (e : Int) (i : InodePtr) (c c' : MDCache) : Prop where
  shape : c'.shape = c.shape
  hits : ∀ j < c.numInodes, c'.hits j = c.hits j ∨ c.shape.isOver i j = true ∧ c'.hits j = (c.hits j).roll e

private theorem Refreshes.refl (e : Int) (i : InodePtr) (c : MDCache) : Refreshes e i c c := ⟨rfl, fun _ _ => .inl rfl⟩

private theorem Refreshes.of_shape_hits (hshape : c'.shape = c.shape) (hhits : c'.hits = c.hits) : Refreshes e i c c' :=
  ⟨hshape, fun _ _ => .inl (congrFun hhits _)⟩

private theorem numInodes_eq (h : c'.shape = c.shape) : c'.numInodes = c.numInodes := congrArg Shape.numInodes h

private theorem Refreshes.trans {c1 : MDCache} (h : Refreshes e i c c1) (h' : Refreshes e i c1 c') :
    Refreshes e i c c' := by
  refine ⟨h'.shape.trans h.shape, fun j hj => ?_⟩
  have hj1 : j < c1.numInodes := numInodes_eq h.shape ▸ hj
  rcases h.hits j hj with h1 | ⟨ho, h1⟩ <;> rcases h'.hits j hj1 with h2 | ⟨ho', h2⟩
  · exact .inl (h2.trans h1)
  · exact .inr ⟨h.shape ▸ ho', by rw [h2, h1]⟩
  · exact .inr ⟨ho, h2.trans h1⟩
  · exact .inr ⟨ho, by rw [h2, h1, roll_roll]⟩

private theorem Refreshes.of_child (hL : c.shape.Linked) (hup : c.shape.upInode j = some i) (hj : j < c.numInodes)
    (h : Refreshes e j c c') : Refreshes e i c c' := by
  refine ⟨h.shape, fun x hx => (h.hits x hx).imp_right fun ⟨ho, heq⟩ => ⟨?_, heq⟩⟩
  exact hL.isOver_trans hx (hL.isOver_of_up hj hup (hL.isOver_self (hL.upInode_lt hup))) ho

/-- What `get_authsubtree_size_slow` may do below the inode `i`. -/
def SizesBelow (f : MDCache → InodePtr → Option (MDCache × Int)) (S : Shape) (e : Int) (i : InodePtr) : Prop :=
  ∀ c j, c.shape = S → S.upInode j = some i → j < S.numInodes → ∃ r, f c j = some r ∧ Refreshes e j c r.1

private theorem dirSize_eq {f : MDCache → InodePtr → Option (MDCache × Int)} {S : Shape} (hL : S.Linked)
    (hf : SizesBelow f S e i) (hc : c.shape = S) {d : DirPtr} (hd : d ∈ S.frags i) :
    ∃ r, dirSize f e c d = some r ∧ Refreshes e i c r.1 := by
  unfold dirSize
  split
  · exact ⟨_, rfl, Refreshes.refl ..⟩
  dsimp only
  generalize hc1 : c.setDir d _ = c1
  have h₁ : Refreshes e i c c1 := by
    rw [← hc1]
    exact Refreshes.of_shape_hits (shape_setDir_same rfl rfl) rfl
  have hfold : ∃ r, (c1.dirs d).items.foldlM (addDentrySize f) (c1, 0) = some r ∧ Refreshes e i c r.1 := by
    refine foldlM_invariant (I := fun acc : MDCache × Int => Refreshes e i c acc.1) ?_ h₁
    intro acc dn hdn hacc
    unfold addDentrySize
    split
    · rename_i j hj
      have hdn' : dn ∈ S.items d := by
        have : c1.shape.items d = S.items d := by rw [h₁.shape, hc]
        exact this ▸ hdn
      have hpar := hL.linked hdn' hj
      have hup : S.upInode j = some i := by simp [Shape.upInode, hpar, hL.owner hd]
      have hlt : j < S.numInodes := hL.inodeBound (by simp [hpar])
      have hS : acc.1.shape = S := hacc.shape.trans hc
      obtain ⟨r, hr, href⟩ := hf acc.1 j hS hup hlt
      have hlt' : j < acc.1.shape.numInodes := by
        rw [hS]
        exact hlt
      exact ⟨(r.1, acc.2 + r.2), by rw [hr]; rfl, hacc.trans (href.of_child (hS ▸ hL) (hS ▸ hup) hlt')⟩
    · exact ⟨acc, rfl, hacc⟩
  obtain ⟨r, hr, href⟩ := hfold
  refine ⟨_, by rw [hr]; rfl, href.trans ?_⟩
  exact Refreshes.of_shape_hits (shape_setDir_same rfl rfl) rfl

private theorem inodeSize_eq (n : Nat) (hL : c.shape.Linked) (hi : i < c.numInodes) (hl : Chain c.shape.upInode i l)
    (hn : c.numInodes < n + l.length) : ∃ r, inodeSize e n c i = some r ∧ Refreshes e i c r.1 := by
  induction n generalizing c i l with
  | zero =>
    have := hl.length_le (hL.chain_upInode_lt hi hl)
    have hnum : c.shape.numInodes = c.numInodes := rfl
    omega
  | succ n ih =>
    have hroll : Refreshes e i c (c.setHits i (((c.inodes i).hits.maybeUpdateEpoch e).1)) := by
      refine ⟨shape_setHits .., fun j _ => ?_⟩
      rw [hits_setHits]
      split
      · rename_i hj
        subst hj
        exact .inr ⟨hL.isOver_self hi, rfl⟩
      · exact .inl rfl
    unfold inodeSize
    split
    · exact ⟨_, rfl, Refreshes.refl ..⟩
    dsimp only
    split
    · exact ⟨_, rfl, hroll⟩
    generalize hc1 : c.setHits i _ = c1 at hroll ⊢
    have hS1 : c1.shape = c.shape := hroll.shape
    have hsizes : SizesBelow (inodeSize e n) c.shape e i := by
      intro c' j hc' hup hj
      have hnum := numInodes_eq hc'
      refine ih (hc' ▸ hL) (hnum ▸ hj) (l := j :: l) (hc' ▸ Chain.step hup hl) ?_
      rw [hnum, length_cons]
      omega
    have hfold : ∃ r, (c1.frags i).foldlM (addFragSize (dirSize (inodeSize e n) e)) (c1, 0) = some r ∧
        Refreshes e i c r.1 := by
      refine foldlM_invariant (I := fun acc : MDCache × Int => Refreshes e i c acc.1) ?_ hroll
      intro acc d hd hacc
      unfold addFragSize
      split
      · have hd' : d ∈ c.shape.frags i := by
          have : c1.shape.frags i = c.shape.frags i := by rw [hS1]
          exact this ▸ hd
        obtain ⟨r, hr, href⟩ := dirSize_eq hL hsizes hacc.shape hd'
        exact ⟨(r.1, acc.2 + r.2), by rw [hr]; rfl, hacc.trans href⟩
      · exact ⟨acc, rfl, hacc⟩
    obtain ⟨r, hr, href⟩ := hfold
    refine ⟨_, by rw [hr]; rfl, href.trans ?_⟩
    refine Refreshes.of_shape_hits (shape_setInode_same rfl rfl) ?_
    funext j
    by_cases hj : j = i
    · subst hj
      simp [hits, setInode]
    · simp [hits, setInode, hj]

/-- `alpha_beta` moves the inode, and some inodes below it, to its epoch, and reads the counts of the epoch before. -/
theorem alphaBeta_eq (hL : c.shape.Linked) (hi : i < c.numInodes) (e : Int) : ∃ c' size, c.alphaBeta i e =
        some (c', ratios ((c'.hits i).lastNewoldhit 0) ((c'.hits i).lastNewoldhit 1) size) ∧
      Refreshes e i c c' ∧ c'.hits i = (c.hits i).roll e := by
  obtain ⟨l, hl⟩ := hL.rooted_upInode i
  obtain ⟨r, hr, href⟩ := inodeSize_eq (e := e) (c.numInodes + 1) hL hi hl (by omega)
  have hroll : (r.1.hits i).roll e = (c.hits i).roll e := by
    rcases href.hits i hi with h | ⟨-, h⟩
    · rw [h]
    · rw [h, roll_roll]
  have hself : (r.1.setHits i ((r.1.hits i).roll e)).hits i = (r.1.hits i).roll e := by simp [hits_setHits]
  refine ⟨r.1.setHits i ((r.1.hits i).roll e), r.2, ?_, ?_, hself.trans hroll⟩
  · rw [hself]
    simp only [alphaBeta, hr]
    rfl
  refine ⟨(shape_setHits ..).trans href.shape, fun j hj => ?_⟩
  rw [hits_setHits]
  split
  · rename_i hji
    subst hji
    exact .inr ⟨hL.isOver_self hi, hroll⟩
  · exact href.hits j hj

end MDCache

/-! ### Runs of hits and readings -/

/-- A cached tree, the last epoch used, and the hits made so far. -/
structure Observed where
  cache : MDCache
  epoch : Int := 0
  log : HitLog := []

inductive HitEvent
  | hit (i : InodePtr) (epoch : Int)
  | alphaBeta (i : InodePtr) (epoch : Int)
deriving DecidableEq

namespace Observed
variable {o o' : Observed} {i j : InodePtr} {e : Int}

/-- A call with an epoch that is not smaller than those before. -/
def step (o : Observed) : HitEvent → Option Observed
  | .hit i e =>
    if o.epoch ≤ e ∧ i < o.cache.numInodes then
      (o.cache.hit i true e).map fun r => ⟨r.1, e, (i, e) :: o.log⟩
    else none
  | .alphaBeta i e =>
    if o.epoch ≤ e ∧ i < o.cache.numInodes then (o.cache.alphaBeta i e).map fun r => ⟨r.1, e, o.log⟩ else none

/-- The counters that the call moves are in step, and every inode above a hit has reached its epoch. -/
def Punctual (o : Observed) : HitEvent → Prop
  | .hit i e => (o.cache.hits i).InStep e ∧
      ∀ j < o.cache.numInodes, j ≠ i → o.cache.shape.isOver j i = true → (o.cache.hits j).beatEpoch = e
  | .alphaBeta i e => ∀ j < o.cache.numInodes, o.cache.shape.isOver i j = true → (o.cache.hits j).InStep e

instance (o : Observed) (ev : HitEvent) : Decidable (o.Punctual ev) :=
  match ev with
  | .hit _ _ => inferInstanceAs (Decidable (_ ∧ _))
  | .alphaBeta _ _ => inferInstanceAs (Decidable (∀ j < _, _))

structure Inv (o : Observed) : Prop where
  linked : o.cache.shape.Linked
  nonneg : 0 ≤ o.epoch
  log : ∀ p ∈ o.log, 0 ≤ p.2
  keeps : ∀ j < o.cache.numInodes, (o.cache.hits j).Keeps o.cache.shape o.log j
  beat : ∀ j < o.cache.numInodes, (o.cache.hits j).beatEpoch ≤ o.epoch

private theorem kind_of_tracks {log : HitLog} {h : HitCount}
    (htr : h.hitcount.Tracks (fun t => decide ((i, t) ∈ log)) e) : h.hitKind = kind log i e := by
  have hiff : h.hitcount.cacheHitTimes = 0 ↔ ¬Recent log i e := by
    rw [htr.times_eq_zero]
    simp [Recent]
  by_cases hr : Recent log i e
  · simp [hitKind, kind, hiff]
  · simp [hitKind, kind, hiff]

private theorem Inv.next (h : o.Inv) (hle : o.epoch ≤ e) {c' : MDCache} (hshape : c'.shape = o.cache.shape)
    {log : HitLog} (hlog : ∀ p ∈ log, 0 ≤ p.2) (hkeeps : ∀ j < o.cache.numInodes,
      (c'.hits j).Keeps o.cache.shape log j ∧ (c'.hits j).beatEpoch ≤ e) : Inv ⟨c', e, log⟩ := by
  have hnum := numInodes_eq hshape
  refine ⟨hshape ▸ h.linked, h.nonneg.trans hle, hlog, fun j hj => ?_, fun j hj => (hkeeps j (hnum ▸ hj)).2⟩
  rw [hshape]
  exact (hkeeps j (hnum ▸ hj)).1

private theorem Inv.hit (h : o.Inv) (hle : o.epoch ≤ e) (hi : i < o.cache.numInodes) (hq : o.Punctual (.hit i e))
    {r : MDCache × Int} (hr : o.cache.hit i true e = some r) :
    Inv ⟨r.1, e, (i, e) :: o.log⟩ ∧ r.1.shape = o.cache.shape := by
  obtain ⟨l, hl⟩ := h.linked.rooted_upInode i
  obtain ⟨c', r', hc', hshape, hagain, hfirst⟩ := hit_eq h.linked hi hl e
  obtain rfl : (c', r') = r := by simpa [hc'] using hr
  have hself := h.linked.isOver_self (j := i) hi
  have he : 0 ≤ e := h.nonneg.trans hle
  have hroll := (h.keeps i hi).roll ((h.beat i hi).trans hle) hq.1 hself h.log
  obtain ⟨htr, hlast⟩ := hroll.window (by rw [roll_beatEpoch]; omega)
  rw [roll_beatEpoch] at htr hlast
  refine ⟨h.next hle hshape (forall_mem_cons.2 ⟨he, h.log⟩) fun j hj => ?_, hshape⟩
  · have hselfj := h.linked.isOver_self hj
    have hbeatj := (h.beat j hj).trans hle
    by_cases hmem : (i, e) ∈ o.log
    · -- not the first hit of this epoch
      have hh := hagain (by rw [hlast, decide_eq_true hmem]) j
      have hiff : ∀ p, p ∈ (i, e) :: o.log ↔ p ∈ o.log := by
        intro p
        simp only [mem_cons, or_iff_right_iff_imp]
        rintro rfl
        exact hmem
      rw [hh]
      split
      · rename_i hji
        subst hji
        exact ⟨hroll.of_mem_iff hiff, le_refl _⟩
      · exact ⟨(h.keeps j hj).of_mem_iff hiff, hbeatj⟩
    · have hh := hfirst (by rw [hlast, decide_eq_false hmem]) j
      rw [kind_of_tracks htr] at hh
      rw [hh]
      split
      · rename_i hji
        subst hji
        have htr' : ReqCounter.Tracks { ((o.cache.hits j).roll e).hitcount with lastHit := true }
            (fun t => decide ((j, t) ∈ o.log)) e := ⟨htr.data, htr.times⟩
        refine ⟨hroll.hit_below rfl hi hmem hself rfl rfl rfl fun _ => ⟨?_, by simp [HitCount.count, HitCount.mark]⟩, le_refl _⟩
        refine htr'.congr fun n hn => ?_
        have hne : e - (queueLen : Int) + n ≠ e := by omega
        simp [hne]
      · rename_i hji
        split
        · rename_i hjl
          have hover := (h.linked.isOver_iff hi hl).2 hjl
          have hbeat := hq.2 j hj hji hover
          refine ⟨(h.keeps j hj).hit_below hbeat hi hmem hover rfl rfl hbeat fun hne => ?_, le_of_eq hbeat⟩
          have hw := (h.keeps j hj).window (by rw [hbeat]; exact hne)
          rw [hbeat] at hw
          simpa [hji, HitCount.count] using hw
        · rename_i hjl
          have hover : o.cache.shape.isOver j i = false := by
            rw [← Bool.not_eq_true, h.linked.isOver_iff hi hl]
            exact hjl
          exact ⟨(h.keeps j hj).hit_elsewhere hbeatj hover hselfj, hbeatj⟩

private theorem Inv.alphaBeta (h : o.Inv) (hle : o.epoch ≤ e) (hq : o.Punctual (.alphaBeta i e)) {c' : MDCache}
    (hr : MDCache.Refreshes e i o.cache c') : Inv ⟨c', e, o.log⟩ := by
  refine h.next hle hr.shape h.log fun j hj => ?_
  have hbeatj := (h.beat j hj).trans hle
  rcases hr.hits j hj with heq | ⟨hover, heq⟩
  · rw [heq]
    exact ⟨h.keeps j hj, hbeatj⟩
  · rw [heq]
    exact ⟨(h.keeps j hj).roll hbeatj (hq j hj hover) (h.linked.isOver_self hj) h.log, le_refl _⟩

private theorem Inv.step_alphaBeta (h : o.Inv) (hs : o.step (.alphaBeta i e) = some o') :
    o.epoch ≤ e ∧ i < o.cache.numInodes ∧ o'.log = o.log ∧ o'.epoch = e ∧ MDCache.Refreshes e i o.cache o'.cache ∧
      (o'.cache.hits i).beatEpoch = e := by
  obtain ⟨hg, hs⟩ := ite_none_right_eq_some.1 hs
  obtain ⟨c', size, hc', href, hroll⟩ := alphaBeta_eq h.linked hg.2 e
  rw [hc', map_some, some.injEq] at hs
  subst hs
  exact ⟨hg.1, hg.2, rfl, rfl, href, by rw [hroll, roll_beatEpoch]⟩

private theorem Inv.step (h : o.Inv) {ev : HitEvent} (hq : o.Punctual ev) (hs : o.step ev = some o') :
    o'.Inv ∧ o'.cache.shape = o.cache.shape := by
  cases ev with
  | hit i e =>
    obtain ⟨hg, hs⟩ := ite_none_right_eq_some.1 hs
    obtain ⟨r, hr, rfl⟩ := map_eq_some_iff.1 hs
    exact h.hit hg.1 hg.2 hq hr
  | alphaBeta i e =>
    obtain ⟨hle, -, hlog, hepoch, href, -⟩ := h.step_alphaBeta hs
    obtain ⟨c', ep, log⟩ := o'
    subst hlog hepoch
    exact ⟨h.alphaBeta hle hq href, href.shape⟩

def Fresh (h : HitCount) : Prop := h.newoldhit = (fun _ => 0) ∧ h.lastNewoldhit = (fun _ => 0) ∧ h.beatEpoch = -1

private theorem inv_init {c : MDCache} (hL : c.shape.Linked) (hfresh : ∀ i < c.numInodes, Fresh (c.hits i)) :
    Inv ⟨c, 0, []⟩ := by
  refine ⟨hL, le_refl _, by simp, fun j hj => ?_, fun j hj => ?_⟩
  · obtain ⟨hn, hl, hb⟩ := hfresh j hj
    refine ⟨by simp, fun k => ?_, fun k => ?_, fun hne => absurd hb hne⟩
    · simp [hn, hitsIn]
    · simp [hl, hitsIn]
  · rw [(hfresh j hj).2.2]
    exact show (-1 : Int) ≤ 0 by decide

/-- If all counters are moved in step, the counts that `alpha_beta` reads on an inode are the numbers of hits of each
class made in the preceding epoch on the inode and below it. -/
theorem lastNewoldhit_eq {c : MDCache} (hL : c.shape.Linked) (hfresh : ∀ i < c.numInodes, Fresh (c.hits i))
    {evs : List HitEvent} (hq : AllSteps Observed.step Punctual ⟨c, 0, []⟩ (evs ++ [.alphaBeta i e]))
    (hrun : exec Observed.step ⟨c, 0, []⟩ (evs ++ [.alphaBeta i e]) = some o) (k : Fin 2) :
    (o.cache.hits i).lastNewoldhit k = (hitsIn c.shape o.log i (e - 1) k).card := by
  have hinv : ∀ {es : List HitEvent} {p : Observed}, AllSteps Observed.step Punctual ⟨c, 0, []⟩ es →
      exec Observed.step ⟨c, 0, []⟩ es = some p → p.Inv ∧ p.cache.shape = c.shape := by
    intro es p hall hex
    exact exec_invariant (I := fun p : Observed => p.Inv ∧ p.cache.shape = c.shape)
      (fun s ev t hs hq ht => ⟨(hs.1.step hq ht).1, (hs.1.step hq ht).2.trans hs.2⟩)
      ⟨inv_init hL hfresh, rfl⟩ hall hex
  obtain ⟨hoinv, hoshape⟩ := hinv hq hrun
  obtain ⟨p, hp, hlast⟩ := exec_append_eq_some.1 hrun
  obtain ⟨hpinv, hpshape⟩ := hinv hq.of_append hp
  obtain ⟨o1, hstep, hnil⟩ := exec_cons_eq_some.1 hlast
  obtain rfl : o1 = o := by simpa using hnil
  obtain ⟨-, hi, -, -, href, hbeat⟩ := hpinv.step_alphaBeta hstep
  have hio : i < o1.cache.numInodes := numInodes_eq href.shape ▸ hi
  have hbefore := (hoinv.keeps i hio).before k
  rwa [hbeat, hoshape] at hbefore

def sampleCache : MDCache :=
  (exec MDCache.step {} [.newInode, .addDirfrag 0 Frag.root true (-1), .newInode,
    .addPrimary 0 ⟨"a", noSnap⟩ 1]).getD {}

theorem lastNewoldhit_sampleCache : ∃ o, exec Observed.step ⟨sampleCache, 0, []⟩
        [.alphaBeta 0 6, .hit 1 6, .hit 1 6, .alphaBeta 0 7, .hit 1 7, .alphaBeta 0 8] = some o ∧
      (o.cache.hits 0).lastNewoldhit 0 = 1 ∧
      ∀ k, (o.cache.hits 0).lastNewoldhit k = (hitsIn sampleCache.shape o.log 0 (8 - 1) k).card := by
  refine ⟨_, rfl, by decide, ?_⟩
  have hrun : exec MDCache.step {} [.newInode, .addDirfrag 0 Frag.root true (-1), .newInode,
      .addPrimary 0 ⟨"a", noSnap⟩ 1] = some sampleCache := rfl
  have hq : AllSteps Observed.step Punctual ⟨sampleCache, 0, []⟩
      ([.alphaBeta 0 6, .hit 1 6, .hit 1 6, .alphaBeta 0 7, .hit 1 7] ++ [.alphaBeta 0 8]) := by decide
  refine lastNewoldhit_eq (inv_of_run hrun).linked ?_ hq rfl
  intro i hi
  have hi' : i < 2 := hi
  rcases (show i = 0 ∨ i = 1 by omega) with rfl | rfl
  · exact ⟨rfl, rfl, rfl⟩
  · exact ⟨rfl, rfl, rfl⟩

/-- One inode is hit in epoch 1 and read in epoch 3: the reading reports the hit as one of epoch 2. -/
theorem lastNewoldhit_after_gap : ∃ o, exec Observed.step ⟨sampleCache, 0, []⟩ [.hit 0 1, .alphaBeta 0 3] = some o ∧
      (o.cache.hits 0).lastNewoldhit 1 ≠ (hitsIn sampleCache.shape o.log 0 (3 - 1) 1).card :=
  ⟨_, rfl, by decide⟩

end Observed
end Lunule.Cache
