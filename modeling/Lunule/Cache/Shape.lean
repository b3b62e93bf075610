import Lunule.Cache.Basic

/-!
# The shape of the cached tree

`Shape` forgets every counter of the cache and keeps what links inodes, fragments and dentries. `Linked` says that it
is a forest: a dentry links an inode exactly if the inode names the dentry as its parent, an inode and its fragments
know each other, and every fragment has a chain to a root. Each structural operation keeps it.

For a weight `f` on the fragments, `deficit S f x` is what `f x` exceeds the number of dentries of `x` and the weights
of the fragments right below by. Adding an amount to every fragment of the chain of `d` changes the deficit of `d` by
that amount and no other deficit (`deficit_chain`): at each ancestor the amount is added once to its own weight and
once to the only fragment below it that lies on the chain.
-/

namespace Lunule.Cache
open Climb List Function

structure Shape where
  parent : InodePtr → Option (DirPtr × DentryKey)
  dirfrags : InodePtr → List (Frag × DirPtr)
  owner : DirPtr → InodePtr
  items : DirPtr → List CDentry
  numInodes : Nat
  numDirs : Nat

namespace Shape
variable {S : Shape} {d p x y : DirPtr} {i j : InodePtr} {key : DentryKey} {dn : CDentry} {fg : Frag} {l : List DirPtr}

def frags (S : Shape) (i : InodePtr) : List DirPtr := (S.dirfrags i).map (·.2)

def up (S : Shape) (d : DirPtr) : Option DirPtr := (S.parent (S.owner d)).map (·.1)

def IsOpen (S : Shape) (d : DirPtr) : Prop := d ∈ S.frags (S.owner d)

instance (S : Shape) (d : DirPtr) : Decidable (S.IsOpen d) := inferInstanceAs (Decidable (_ ∈ _))

def fragsOf (S : Shape) (dn : CDentry) : List DirPtr :=
  match dn.linkage with
  | .primary i => S.frags i
  | _ => []

def below (S : Shape) (d : DirPtr) : List DirPtr := (S.items d).flatMap S.fragsOf

structure Linked (S : Shape) : Prop where
  owner : ∀ {i d}, d ∈ S.frags i → S.owner d = i
  fragKeys : ∀ i, ((S.dirfrags i).map (·.1)).Nodup
  fragsNodup : ∀ i, (S.frags i).Nodup
  keys : ∀ d, ((S.items d).map (·.key)).Nodup
  linked : ∀ {d dn i}, dn ∈ S.items d → dn.linkage = .primary i → S.parent i = some (d, dn.key)
  parent : ∀ {i d key}, S.parent i = some (d, key) → (⟨key, .primary i⟩ : CDentry) ∈ S.items d
  opened : ∀ {d}, S.items d ≠ [] → S.IsOpen d
  fragBound : ∀ {i d}, d ∈ S.frags i → i < S.numInodes ∧ d < S.numDirs
  inodeBound : ∀ {i}, S.parent i ≠ none → i < S.numInodes
  rooted : Rooted S.up

private theorem mem_fragsOf : y ∈ S.fragsOf dn ↔ ∃ i, dn.linkage = .primary i ∧ y ∈ S.frags i := by
  unfold fragsOf
  split
  · rename_i h
    simp [h]
  · rename_i h
    simp only [not_mem_nil, false_iff, not_exists, not_and]
    exact fun i hi => absurd hi (h i)

theorem fragsOf_eq_nil (hlk : ∀ i, dn.linkage ≠ .primary i) : S.fragsOf dn = [] :=
  eq_nil_iff_forall_not_mem.2 fun _ hy => (mem_fragsOf.1 hy).elim fun i hi => hlk i hi.1

namespace Linked
variable (h : S.Linked)
include h

theorem isOpen_of_parent (hp : S.parent i = some (d, key)) : S.IsOpen d := h.opened (ne_nil_of_mem (h.parent hp))

theorem isOpen_of_up (hp : S.up x = some p) : S.IsOpen p := by
  obtain ⟨⟨d, key⟩, hpar, rfl⟩ := Option.map_eq_some_iff.1 hp
  exact h.isOpen_of_parent hpar

theorem isOpen_of_mem_frags (hy : y ∈ S.frags i) : S.IsOpen y := by
  rw [IsOpen, h.owner hy]
  exact hy

private theorem mem_below : y ∈ S.below x ↔ S.IsOpen y ∧ S.up y = some x := by
  simp only [below, mem_flatMap, mem_fragsOf]
  constructor
  · rintro ⟨dn, hdn, i, hi, hy⟩
    exact ⟨h.isOpen_of_mem_frags hy, by simp [up, h.owner hy, h.linked hdn hi]⟩
  · rintro ⟨ho, hup⟩
    obtain ⟨⟨d, key⟩, hpar, rfl⟩ := Option.map_eq_some_iff.1 hup
    exact ⟨_, h.parent hpar, _, rfl, ho⟩

theorem eq_of_key_eq {dn' : CDentry} (hdn : dn ∈ S.items d) (hdn' : dn' ∈ S.items d)
    (hkey : dn.key = dn'.key) : dn = dn' :=
  inj_on_of_nodup_map (h.keys d) hdn hdn' hkey

private theorem below_nodup (x : DirPtr) : (S.below x).Nodup := by
  refine nodup_flatMap.2 ⟨fun dn _ => ?_, ?_⟩
  · unfold fragsOf
    split
    · exact h.fragsNodup _
    · exact nodup_nil
  have hk := pairwise_map.1 (nodup_iff_pairwise_ne.1 (h.keys x))
  refine hk.imp_of_mem fun {a b} ha hb hne => ?_
  intro y hya hyb
  obtain ⟨i, hi, hy⟩ := mem_fragsOf.1 hya
  obtain ⟨j, hj, hy'⟩ := mem_fragsOf.1 hyb
  obtain rfl : i = j := (h.owner hy).symm.trans (h.owner hy')
  have hpar := (h.linked ha hi).symm.trans (h.linked hb hj)
  exact hne (by simpa using hpar)

private theorem isOpen_of_chain (hd : S.IsOpen d) (hl : Chain S.up d l) (hx : x ∈ l) : S.IsOpen x := by
  by_cases hxd : x = d
  · exact hxd ▸ hd
  · obtain ⟨y, -, hy⟩ := hl.exists_up_eq hx hxd
    exact h.isOpen_of_up hy

theorem chain_lt (hd : S.IsOpen d) (hl : Chain S.up d l) : ∀ x ∈ l, x < S.numDirs :=
  fun _ hx => (h.fragBound (h.isOpen_of_chain hd hl hx)).2

end Linked

/-! ### Weights -/

def deficit (S : Shape) (f : DirPtr → Int) (x : DirPtr) : Int := f x - (S.items x).length - ((S.below x).map f).sum

private theorem sum_ite_mem {B : List DirPtr} (hB : B.Nodup) (δ : Int) (hy : y ∈ B) (hyl : y ∈ l)
    (huniq : ∀ z ∈ B, z ∈ l → z = y) : (B.map fun z => if z ∈ l then δ else 0).sum = δ := by
  have hcongr : (B.map fun z => if z ∈ l then δ else 0) = B.map fun z => if z = y then δ else 0 := by
    refine map_congr_left fun z hz => ?_
    by_cases hzy : z = y
    · simp [hzy, hyl]
    · rw [if_neg hzy, if_neg fun hzl => hzy (huniq z hz hzl)]
  rw [hcongr, sum_map_ite_eq, count_eq_one_of_mem hB hy]
  simp

theorem deficit_chain (h : S.Linked) (hd : S.IsOpen d) (hl : Chain S.up d l) (f : DirPtr → Int) (δ : Int) (x : DirPtr) :
    S.deficit (fun y => f y + if y ∈ l then δ else 0) x = S.deficit f x + if x = d then δ else 0 := by
  have hbelow : ((S.below x).map fun y => if y ∈ l then δ else 0).sum = if x ∈ l ∧ x ≠ d then δ else 0 := by
    by_cases hx : x ∈ l ∧ x ≠ d
    · obtain ⟨y, hy, hup⟩ := hl.exists_up_eq hx.1 hx.2
      rw [if_pos hx]
      refine sum_ite_mem (h.below_nodup x) δ (h.mem_below.2 ⟨h.isOpen_of_chain hd hl hy, hup⟩) hy fun z hz hzl => ?_
      exact hl.eq_of_up_eq hzl hy (h.mem_below.1 hz).2 hup
    -- a fragment on the chain right below `x` would put `x` on the chain, and not first
    rw [if_neg hx]
    refine sum_eq_zero fun v hv => ?_
    obtain ⟨y, hy, rfl⟩ := mem_map.1 hv
    refine if_neg fun hyl => hx ?_
    have hup := (h.mem_below.1 hy).2
    refine ⟨hl.up_mem hyl hup, ?_⟩
    rintro rfl
    exact hl.up_ne_first hyl hup
  have hdl := hl.mem_self
  simp only [deficit, sum_map_add, hbelow]
  by_cases hxd : x = d
  · subst hxd
    simp [hdl]
    ring
  · by_cases hxl : x ∈ l
    · simp [hxd]
      ring
    · simp [hxd, hxl]

/-! ### Operations -/

variable (S)

def insert (d : DirPtr) (dn : CDentry) : Shape := { S with items := update S.items d (S.items d ++ [dn]) }

def relink (d : DirPtr) (key : DentryKey) (linkage : Linkage) : Shape :=
  let relinked := (S.items d).map fun dn => if dn.key = key then { dn with linkage } else dn
  { S with items := update S.items d relinked }

variable (i)

def hang (d : DirPtr) (key : DentryKey) : Shape :=
  { S.relink d key (.primary i) with parent := update S.parent i (some (d, key)) }

def detach (d : DirPtr) (key : DentryKey) : Shape := { S.relink d key .null with parent := update S.parent i none }

def erase (d : DirPtr) (key : DentryKey) : Shape :=
  { S with items := update S.items d ((S.items d).filter (·.key ≠ key)) }

def openFrag (fg : Frag) : Shape :=
  { S with dirfrags := update S.dirfrags i (S.dirfrags i ++ [(fg, S.numDirs)])
           owner := update S.owner S.numDirs i
           items := update S.items S.numDirs []
           numDirs := S.numDirs + 1 }

def closeFrag (fg : Frag) : Shape := { S with dirfrags := update S.dirfrags i ((S.dirfrags i).filter (·.1 ≠ fg)) }

variable {i}

def newInode : Shape :=
  { S with parent := update S.parent S.numInodes none
           dirfrags := update S.dirfrags S.numInodes []
           numInodes := S.numInodes + 1 }

variable {S} {lk : Linkage}

theorem mem_relink : dn ∈ (S.relink d key lk).items x ↔ (x ≠ d ∨ dn.key ≠ key) ∧ dn ∈ S.items x ∨
      x = d ∧ dn.linkage = lk ∧ dn.key = key ∧ ∃ lk', (⟨key, lk'⟩ : CDentry) ∈ S.items d := by
  by_cases hx : x = d
  · subst hx
    simp only [relink, update_self, mem_map]
    constructor
    · rintro ⟨a, ha, rfl⟩
      by_cases hk : a.key = key
      · obtain ⟨k, lk'⟩ := a
        obtain rfl : k = key := hk
        exact .inr ⟨trivial, by simp, by simp, lk', ha⟩
      · rw [if_neg hk]
        exact .inl ⟨.inr hk, ha⟩
    · rintro (⟨hk, ha⟩ | ⟨-, hlk, hk, lk', ha⟩)
      · exact ⟨dn, ha, if_neg (hk.resolve_left (by simp))⟩
      · refine ⟨_, ha, ?_⟩
        obtain ⟨k, l⟩ := dn
        simp_all
  · simp [relink, hx]

private theorem map_key_relink (S : Shape) (d x : DirPtr) (key : DentryKey) (lk : Linkage) :
    ((S.relink d key lk).items x).map (·.key) = (S.items x).map (·.key) := by
  by_cases hx : x = d
  · subst hx
    simp only [relink, update_self, map_map]
    refine map_congr_left fun dn _ => ?_
    simp only [comp]
    split <;> rfl
  · simp [relink, hx]

private theorem relink_items_ne_nil (h : (S.relink d key lk).items x ≠ []) : S.items x ≠ [] := by
  intro hnil
  have hmap := map_key_relink S d x key lk
  rw [hnil, map_nil, map_eq_nil_iff] at hmap
  exact h hmap

namespace Linked
variable (h : S.Linked)
include h

theorem insert (hd : S.IsOpen d) (hfresh : ∀ a ∈ S.items d, a.key ≠ dn.key)
    (hlk : ∀ i, dn.linkage ≠ .primary i) : (S.insert d dn).Linked where
  __ := h
  keys := by
    intro x
    by_cases hx : x = d
    · subst hx
      simp only [Shape.insert, update_self, map_append]
      refine nodup_append.2 ⟨h.keys x, by simp, ?_⟩
      intro a ha b hb
      obtain ⟨a', ha', rfl⟩ := mem_map.1 ha
      rw [mem_singleton.1 hb]
      exact hfresh a' ha'
    · simpa [Shape.insert, hx] using h.keys x
  linked := by
    intro x a j ha hj
    by_cases hx : x = d
    · subst hx
      simp only [Shape.insert, update_self, mem_append, mem_singleton] at ha
      rcases ha with ha | rfl
      · exact h.linked ha hj
      · exact absurd hj (hlk j)
    · have ha : a ∈ S.items x := by simpa [Shape.insert, hx] using ha
      exact h.linked ha hj
  parent := by
    intro j x k hp
    have := h.parent hp
    by_cases hx : x = d
    · subst hx
      simp [Shape.insert, this]
    · simpa [Shape.insert, hx] using this
  opened := by
    intro x hx
    by_cases hxd : x = d
    · subst hxd
      exact hd
    · exact h.opened (by simpa [Shape.insert, hxd] using hx)

private theorem mem_relink_of_parent (hdn : (⟨key, lk⟩ : CDentry) ∈ S.items d) {lk' : Linkage} {k : DentryKey}
    (hp : S.parent j = some (x, k)) (hlk : lk ≠ .primary j) :
    (⟨k, .primary j⟩ : CDentry) ∈ (S.relink d key lk').items x := by
  refine mem_relink.2 (.inl ⟨?_, h.parent hp⟩)
  by_contra hcon
  obtain ⟨rfl, rfl⟩ : x = d ∧ k = key := by simpa using hcon
  have heq := h.eq_of_key_eq hdn (h.parent hp) rfl
  exact hlk (by simpa using heq)

theorem hang (hdn : (⟨key, lk⟩ : CDentry) ∈ S.items d) (hlk : ∀ i, lk ≠ .primary i)
    (hpar : S.parent i = none) (hi : i < S.numInodes) (hl : Chain S.up d l) (hcycle : ∀ y ∈ l, S.owner y ≠ i) :
    (S.hang i d key).Linked where
  __ := h
  keys x := (map_key_relink S d x key _) ▸ h.keys x
  linked := by
    intro x a j ha hj
    rcases mem_relink.1 ha with ⟨-, ha⟩ | ⟨rfl, hlk', rfl, -⟩
    · have hp := h.linked ha hj
      have hji : j ≠ i := by
        rintro rfl
        simp [hpar] at hp
      simpa [Shape.hang, hji] using hp
    · obtain rfl : i = j := by simpa using hlk'.symm.trans hj
      simp [Shape.hang]
  parent := by
    intro j x k hp
    by_cases hji : j = i
    · subst hji
      obtain ⟨rfl, rfl⟩ : d = x ∧ key = k := by simpa [Shape.hang] using hp
      exact mem_relink.2 (.inr ⟨rfl, rfl, rfl, lk, hdn⟩)
    · exact h.mem_relink_of_parent hdn (by simpa [Shape.hang, hji] using hp) (hlk j)
  opened := fun hx => h.opened (relink_items_ne_nil hx)
  inodeBound := by
    intro j hj
    by_cases hji : j = i
    · exact hji ▸ hi
    · exact h.inodeBound (by simpa [Shape.hang, hji] using hj)
  rooted := by
    refine h.rooted.link hl fun a => ?_
    by_cases ha : S.owner a = i
    · refine .inr ⟨fun hmem => hcycle a hmem ha, ?_, ?_⟩
      · simp [up, ha, hpar]
      · simp [up, Shape.hang, relink, ha]
    · exact .inl (by simp [up, Shape.hang, relink, ha])

theorem detach (hdn : (⟨key, .primary i⟩ : CDentry) ∈ S.items d) : (S.detach i d key).Linked where
  __ := h
  keys x := (map_key_relink S d x key _) ▸ h.keys x
  linked := by
    intro x a j ha hj
    rcases mem_relink.1 ha with ⟨hne, ha⟩ | ⟨-, hlk', -⟩
    · have hp := h.linked ha hj
      have hji : j ≠ i := by
        rintro rfl
        have hd := h.linked hdn rfl
        rw [hp] at hd
        simp only [Option.some.injEq, Prod.mk.injEq] at hd
        exact hne.elim (fun hx => hx hd.1) fun hk => hk hd.2
      simpa [Shape.detach, hji] using hp
    · simp [hlk'] at hj
  parent := by
    intro j x k hp
    have hji : j ≠ i := by
      rintro rfl
      simp [Shape.detach] at hp
    exact h.mem_relink_of_parent hdn (by simpa [Shape.detach, hji] using hp) (by simpa using Ne.symm hji)
  opened := fun hx => h.opened (relink_items_ne_nil hx)
  inodeBound := by
    intro j hj
    by_cases hji : j = i
    · simp [Shape.detach, hji] at hj
    · exact h.inodeBound (by simpa [Shape.detach, hji] using hj)
  rooted := by
    refine h.rooted.cut fun a => ?_
    by_cases ha : S.owner a = i
    · exact .inr (by simp [up, Shape.detach, relink, ha])
    · exact .inl (by simp [up, Shape.detach, relink, ha])

theorem relink {lk lk' : Linkage} (hdn : (⟨key, lk⟩ : CDentry) ∈ S.items d)
    (hlk : ∀ i, lk ≠ .primary i) (hlk' : ∀ i, lk' ≠ .primary i) : (S.relink d key lk').Linked where
  __ := h
  keys x := (map_key_relink S d x key _) ▸ h.keys x
  linked := by
    intro x a j ha hj
    rcases mem_relink.1 ha with ⟨-, ha⟩ | ⟨-, hl, -⟩
    · exact h.linked ha hj
    · exact absurd (hl.symm.trans hj) (hlk' j)
  parent := fun hp => h.mem_relink_of_parent hdn hp (hlk _)
  opened := fun hx => h.opened (relink_items_ne_nil hx)

theorem erase (hdn : (⟨key, lk⟩ : CDentry) ∈ S.items d) (hlk : ∀ i, lk ≠ .primary i) : (S.erase d key).Linked := by
  have hsub : ∀ x, ((S.erase d key).items x).Sublist (S.items x) := by
    intro x
    by_cases hx : x = d
    · subst hx
      simp [Shape.erase]
    · simp [Shape.erase, hx]
  refine { h with keys := ?_, linked := ?_, parent := ?_, opened := ?_ }
  · intro x
    exact (h.keys x).sublist ((hsub x).map _)
  · intro x a j ha hj
    exact h.linked ((hsub x).subset ha) hj
  · intro j x k hp
    have hmem := h.parent hp
    by_cases hx : x = d
    · subst hx
      simp only [Shape.erase, update_self, mem_filter]
      refine ⟨hmem, ?_⟩
      simp only [decide_not, Bool.not_eq_true', decide_eq_false_iff_not]
      rintro rfl
      have heq := h.eq_of_key_eq hdn hmem rfl
      exact hlk j (by simpa using heq)
    · simpa [Shape.erase, hx] using hmem
  · intro x hx
    refine h.opened fun hnil => hx ?_
    have := hsub x
    rw [hnil] at this
    exact sublist_nil.1 this

private theorem items_of_ge (hd : S.numDirs ≤ d) : S.items d = [] := by
  by_contra hne
  exact absurd (h.fragBound (h.opened hne)).2 (Nat.not_lt.2 hd)

private theorem items_openFrag : (S.openFrag i fg).items = S.items := update_eq_self_iff.2 (h.items_of_ge le_rfl).symm

theorem openFrag (hi : i < S.numInodes) (hfg : fg ∉ (S.dirfrags i).map (·.1)) : (S.openFrag i fg).Linked := by
  have hfrags : ∀ j, (S.openFrag i fg).frags j = if j = i then S.frags i ++ [S.numDirs] else S.frags j := by
    intro j
    by_cases hj : j = i
    · subst hj
      simp [Shape.openFrag, frags]
    · simp [Shape.openFrag, frags, hj]
  have hlt : ∀ {j x}, x ∈ S.frags j → x ≠ S.numDirs := fun hx => Nat.ne_of_lt (h.fragBound hx).2
  have hitems : (S.openFrag i fg).items = S.items := h.items_openFrag
  have hmem : ∀ {j x}, x ∈ S.frags j → x ∈ (S.openFrag i fg).frags j := by
    intro j x hx
    rw [hfrags]
    split
    · rename_i hj
      exact mem_append_left _ (hj ▸ hx)
    · exact hx
  refine ⟨?_, ?_, ?_, ?_, ?_, ?_, ?_, ?_, h.inodeBound, ?_⟩
  · intro j x hx
    rw [hfrags] at hx
    split at hx
    · rename_i hj
      rcases mem_append.1 hx with hx | hx
      · simpa [Shape.openFrag, hlt hx, hj] using h.owner hx
      · simp [Shape.openFrag, mem_singleton.1 hx, hj]
    · simpa [Shape.openFrag, hlt hx] using h.owner hx
  · intro j
    by_cases hj : j = i
    · subst hj
      simp only [Shape.openFrag, update_self, map_append, map_cons]
      exact nodup_append.2 ⟨h.fragKeys j, by simp, fun a ha b hb => by
        rw [mem_singleton.1 hb]
        exact fun hab => hfg (hab ▸ ha)⟩
    · simpa [Shape.openFrag, hj] using h.fragKeys j
  · intro j
    rw [hfrags]
    split
    · exact nodup_append.2 ⟨h.fragsNodup i, by simp, fun a ha b hb => by
        rw [mem_singleton.1 hb]
        exact hlt ha⟩
    · exact h.fragsNodup j
  · rw [hitems]
    exact h.keys
  · rw [hitems]
    exact h.linked
  · rw [hitems]
    exact h.parent
  · intro x hx
    rw [hitems] at hx
    have ho := h.opened hx
    have howner : (S.openFrag i fg).owner x = S.owner x := by simp [Shape.openFrag, hlt ho]
    rw [IsOpen, howner]
    exact hmem ho
  · intro j x hx
    rw [hfrags] at hx
    split at hx
    · rename_i hj
      rcases mem_append.1 hx with hx | hx
      · exact ⟨hj ▸ hi, Nat.lt_succ_of_lt (h.fragBound hx).2⟩
      · exact ⟨hj ▸ hi, by simp [Shape.openFrag, mem_singleton.1 hx]⟩
    · exact ⟨(h.fragBound hx).1, Nat.lt_succ_of_lt (h.fragBound hx).2⟩
  · have hnot : ∀ a, S.up a ≠ some S.numDirs := by
      intro a ha
      exact hlt (h.isOpen_of_up ha) rfl
    refine h.rooted.redirect hnot (fun a ha => by simp [up, Shape.openFrag, ha]) fun hself => ?_
    obtain ⟨⟨x, k⟩, hp, hx⟩ := Option.map_eq_some_iff.1 hself
    exact hlt (h.isOpen_of_parent hp) hx

theorem mem_closeFrag (hfd : (fg, d) ∈ S.dirfrags i) : x ∈ (S.closeFrag i fg).frags j ↔ x ∈ S.frags j ∧ x ≠ d := by
  have hd : d ∈ S.frags i := mem_map.2 ⟨_, hfd, rfl⟩
  by_cases hj : j = i
  · subst hj
    simp only [closeFrag, frags, update_self, mem_map, mem_filter, Prod.exists, decide_not, Bool.not_eq_true',
      decide_eq_false_iff_not]
    constructor
    · rintro ⟨g, y, ⟨hmem, hg⟩, rfl⟩
      refine ⟨⟨g, y, hmem, rfl⟩, ?_⟩
      rintro rfl
      have := inj_on_of_nodup_map (h.fragsNodup j) hmem hfd rfl
      exact hg (by simpa using this)
    · rintro ⟨⟨g, y, hmem, rfl⟩, hne⟩
      refine ⟨g, y, ⟨hmem, ?_⟩, rfl⟩
      rintro rfl
      have := inj_on_of_nodup_map (h.fragKeys j) hmem hfd rfl
      exact hne (by simpa using this)
  · have heq : (S.closeFrag i fg).frags j = S.frags j := by simp [closeFrag, frags, hj]
    rw [heq]
    refine ⟨fun hx => ⟨hx, ?_⟩, fun hx => hx.1⟩
    rintro rfl
    exact hj ((h.owner hx).symm.trans (h.owner hd))

theorem closeFrag (hfd : (fg, d) ∈ S.dirfrags i) (hnil : S.items d = []) : (S.closeFrag i fg).Linked := by
  have hmem {x j} := h.mem_closeFrag (x := x) (j := j) hfd
  have hsub : ∀ j, ((S.closeFrag i fg).dirfrags j).Sublist (S.dirfrags j) := by
    intro j
    by_cases hj : j = i
    · subst hj
      simp [Shape.closeFrag]
    · simp [Shape.closeFrag, hj]
  refine { h with owner := ?_, fragKeys := ?_, fragsNodup := ?_, opened := ?_, fragBound := ?_ }
  · intro j x hx
    exact h.owner (hmem.1 hx).1
  · intro j
    exact (h.fragKeys j).sublist ((hsub j).map _)
  · intro j
    exact (h.fragsNodup j).sublist ((hsub j).map _)
  · intro x hx
    refine hmem.2 ⟨h.opened hx, ?_⟩
    rintro rfl
    exact hx hnil
  · intro j x hx
    exact h.fragBound (hmem.1 hx).1

theorem newInode_eq : S.newInode = { S with numInodes := S.numInodes + 1 } := by
  have hpar : S.newInode.parent = S.parent := by
    refine update_eq_self_iff.2 ?_
    by_contra hne
    exact lt_irrefl _ (h.inodeBound (Ne.symm hne))
  have hfrags : S.newInode.dirfrags = S.dirfrags := by
    refine update_eq_self_iff.2 (Eq.symm ?_)
    by_contra hne
    obtain ⟨e, he⟩ := exists_mem_of_ne_nil _ hne
    exact lt_irrefl _ (h.fragBound (i := S.numInodes) (mem_map.2 ⟨e, he, rfl⟩)).1
  rw [← hpar, ← hfrags]
  rfl

theorem newInode : S.newInode.Linked := by
  rw [h.newInode_eq]
  exact { h with
    fragBound := fun hx => ⟨Nat.lt_succ_of_lt (h.fragBound hx).1, (h.fragBound hx).2⟩
    inodeBound := fun hj => Nat.lt_succ_of_lt (h.inodeBound hj) }

end Linked

/-! ### Weights under the operations -/

private theorem sum_below (S : Shape) (f : DirPtr → Int) (x : DirPtr) :
    ((S.below x).map f).sum = ((S.items x).map fun dn => ((S.fragsOf dn).map f).sum).sum := by
  unfold below
  induction S.items x with
  | nil => simp
  | cons a as ih => simp [ih]

theorem deficit_insert (dn : CDentry) (f : DirPtr → Int) (hlk : ∀ i, dn.linkage ≠ .primary i) (x : DirPtr) :
    (S.insert d dn).deficit f x = S.deficit f x - if x = d then 1 else 0 := by
  have hnil : S.fragsOf dn = [] := fragsOf_eq_nil hlk
  by_cases hx : x = d
  · subst hx
    have hitems : (S.insert x dn).items x = S.items x ++ [dn] := by simp [insert]
    have hold : (S.insert x dn).fragsOf = S.fragsOf := rfl
    simp only [deficit, sum_below, hitems, map_append, sum_append, map_cons, map_nil, hnil, hold, length_append,
      length_cons, length_nil, sum_cons, sum_nil]
    push_cast
    ring
  · have hitems : (S.insert d dn).items x = S.items x := by simp [insert, hx]
    have hold : (S.insert d dn).fragsOf = S.fragsOf := rfl
    simp [deficit, sum_below, hitems, hold, hx]

private theorem sum_relink (lk' : Linkage) {items : List CDentry} (hkeys : (items.map (·.key)).Nodup)
    (hdn : (⟨key, lk⟩ : CDentry) ∈ items) (g : CDentry → Int) :
    ((items.map fun dn => if dn.key = key then { dn with linkage := lk' } else dn).map g).sum =
      (items.map g).sum - g ⟨key, lk⟩ + g ⟨key, lk'⟩ := by
  induction items with
  | nil => simp at hdn
  | cons a as ih =>
    rw [map_cons, nodup_cons] at hkeys
    simp only [map_cons, sum_cons]
    rcases mem_cons.1 hdn with rfl | hdn'
    · have hrest : (as.map fun dn => if dn.key = key then { dn with linkage := lk' } else dn) = as := by
        refine (map_congr_left fun b hb => if_neg ?_).trans (map_id as)
        rintro rfl
        exact hkeys.1 (mem_map.2 ⟨b, hb, rfl⟩)
      rw [hrest]
      simp only [if_true]
      ring
    · have hne : a.key ≠ key := fun ha => hkeys.1 (ha ▸ mem_map.2 ⟨_, hdn', rfl⟩)
      rw [if_neg hne, ih hkeys.2 hdn']
      ring

theorem deficit_relink (lk' : Linkage) (h : S.Linked) (hdn : (⟨key, lk⟩ : CDentry) ∈ S.items d) (f : DirPtr → Int)
    (x : DirPtr) :
    (S.relink d key lk').deficit f x = S.deficit f x +
      if x = d then ((S.fragsOf ⟨key, lk⟩).map f).sum - ((S.fragsOf ⟨key, lk'⟩).map f).sum else 0 := by
  have hlen : ((S.relink d key lk').items x).length = (S.items x).length := by
    have := congrArg List.length (map_key_relink S d x key lk')
    simpa using this
  have hold : (S.relink d key lk').fragsOf = S.fragsOf := rfl
  by_cases hx : x = d
  · subst hx
    have hsum := sum_relink lk' (h.keys x) hdn fun dn => ((S.fragsOf dn).map f).sum
    simp only [deficit, sum_below, hlen, hold, if_true]
    simp only [relink, update_self, hsum]
    ring
  · have hitems : (S.relink d key lk').items x = S.items x := by simp [relink, hx]
    simp [deficit, sum_below, hitems, hold, hx]

theorem deficit_erase (f : DirPtr → Int) (hx : x ≠ d) : (S.erase d key).deficit f x = S.deficit f x := by
  have hitems : (S.erase d key).items x = S.items x := by simp [erase, hx]
  have hold : (S.erase d key).fragsOf = S.fragsOf := rfl
  simp [deficit, sum_below, hitems, hold]

theorem deficit_openFrag (h : S.Linked) {f f' : DirPtr → Int} (hnew : f' S.numDirs = 0)
    (hold : ∀ y, y ≠ S.numDirs → f' y = f y) (x : DirPtr) :
    (S.openFrag i fg).deficit f' x = if x = S.numDirs then 0 else S.deficit f x := by
  have hitems : (S.openFrag i fg).items = S.items := h.items_openFrag
  have hfrags : ∀ j, (((S.openFrag i fg).frags j).map f').sum = ((S.frags j).map f).sum := by
    intro j
    have heq : (S.frags j).map f' = (S.frags j).map f :=
      map_congr_left fun y hy => hold y (Nat.ne_of_lt (h.fragBound hy).2)
    by_cases hj : j = i
    · subst hj
      rw [← heq]
      simp [openFrag, frags, hnew]
    · rw [← heq]
      simp [openFrag, frags, hj]
  have hsum : (((S.openFrag i fg).below x).map f').sum = ((S.below x).map f).sum := by
    simp only [sum_below, hitems]
    refine congrArg List.sum (map_congr_left fun dn _ => ?_)
    unfold fragsOf
    split
    · exact hfrags _
    · rfl
  simp only [deficit, hitems, hsum]
  split
  · rename_i hx
    have hnil := h.items_of_ge (le_refl S.numDirs)
    simp [hx, hnew, below, hnil]
  · rename_i hx
    rw [hold x hx]

theorem deficit_closeFrag (h : S.Linked) (hfd : (fg, d) ∈ S.dirfrags i) (hnil : S.items d = []) (f : DirPtr → Int)
    (x : DirPtr) :
    (S.closeFrag i fg).deficit f x = S.deficit f x + if S.up d = some x then f d else 0 := by
  have hmem : ∀ y, y ∈ (S.closeFrag i fg).below x ↔ y ∈ (S.below x).erase d := by
    intro y
    rw [(h.closeFrag hfd hnil).mem_below, (h.below_nodup x).mem_erase_iff, h.mem_below, IsOpen, h.mem_closeFrag hfd]
    tauto
  have hperm := (perm_ext_iff_of_nodup ((h.closeFrag hfd hnil).below_nodup x) ((h.below_nodup x).erase d)).2 hmem
  have hsum := (hperm.map f).sum_eq
  have hopen : S.IsOpen d := h.isOpen_of_mem_frags (mem_map.2 ⟨_, hfd, rfl⟩)
  have hitems : (S.closeFrag i fg).items x = S.items x := rfl
  simp only [deficit, hsum, hitems]
  by_cases hup : S.up d = some x
  · have := sum_map_erase f (h.mem_below.2 ⟨hopen, hup⟩)
    rw [if_pos hup, ← this]
    ring
  · rw [if_neg hup, erase_of_not_mem fun hd => hup (h.mem_below.1 hd).2]
    ring

end Shape
end Lunule.Cache
