import Lunule.Cache.Shape
import Lunule.Lib.Exec

/-!
# Density counters

`num_dentries_nested` under the operations that add, remove, link and unlink dentries and that open and close
fragments. Each operation acts on the shape of the tree, and through `inc_density` on the counters of one chain of
ancestors. The law is that no open fragment has a deficit. Adding dentries and opening or closing fragments keep it;
removing a dentry, and linking or unlinking an inode with counted fragments, change the shape alone.
-/

namespace Lunule.Cache
open Climb Exec List Option Function MDCache CDir
open Shape (openFrag)

namespace MDCache
variable {c c' : MDCache} {d p x : DirPtr} {i : InodePtr} {key : DentryKey} {dn : CDentry} {l : List DirPtr}
  {a b e ep : Int} {X : CDir} {S : Shape}

def shape (c : MDCache) : Shape where
  parent i := (c.inodes i).parent
  dirfrags i := (c.inodes i).dirfrags
  owner d := (c.dirs d).inode
  items d := (c.dirs d).items
  numInodes := c.numInodes
  numDirs := c.numDirs

def nested (c : MDCache) (d : DirPtr) : Int := (c.dirs d).numDentriesNested

def deficit (c : MDCache) (d : DirPtr) : Int := c.shape.deficit c.nested d

structure Inv (c : MDCache) : Prop where
  linked : c.shape.Linked
  counted : ∀ d, (c.dirs d).numAny = (c.dirs d).items.length

def Counted (c : MDCache) : Prop := ∀ d, (c.dirs d).numAny = (c.dirs d).items.length

private theorem shape_setDir (hX : X.inode = (c.dirs d).inode) :
    (c.setDir d X).shape = { c.shape with items := update c.shape.items d X.items } := by
  have howner : (fun y => ((c.setDir d X).dirs y).inode) = fun y => (c.dirs y).inode := by
    refine (funext fun y => apply_update (fun _ D => inode D) c.dirs d X y).trans ?_
    rw [hX]
    exact update_eq_self d _
  have hitems : (fun y => ((c.setDir d X).dirs y).items) = update c.shape.items d X.items :=
    funext fun y => apply_update (fun _ D => items D) c.dirs d X y
  simp only [shape, howner, hitems]
  rfl

theorem shape_setDir_same (hX : X.inode = (c.dirs d).inode) (hi : X.items = (c.dirs d).items) :
    (c.setDir d X).shape = c.shape := by
  rw [shape_setDir hX, hi]
  have : update c.shape.items d (c.dirs d).items = c.shape.items := update_eq_self d c.shape.items
  rw [this]

theorem shape_setInode (c : MDCache) (i : InodePtr) (X : CInode) : (c.setInode i X).shape =
    { c.shape with parent := update c.shape.parent i X.parent, dirfrags := update c.shape.dirfrags i X.dirfrags } := by
  have hpar : (fun j => ((c.setInode i X).inodes j).parent) = update c.shape.parent i X.parent :=
    funext fun j => apply_update (fun _ D => CInode.parent D) c.inodes i X j
  have hfr : (fun j => ((c.setInode i X).inodes j).dirfrags) = update c.shape.dirfrags i X.dirfrags :=
    funext fun j => apply_update (fun _ D => CInode.dirfrags D) c.inodes i X j
  simp only [shape, hpar, hfr]
  rfl

private theorem shape_setParent (c : MDCache) (i : InodePtr) (p : Option (DirPtr × DentryKey)) :
    (c.setInode i { c.inodes i with parent := p }).shape = { c.shape with parent := update c.shape.parent i p } := by
  have hfr : update c.shape.dirfrags i (c.inodes i).dirfrags = c.shape.dirfrags := update_eq_self i c.shape.dirfrags
  rw [shape_setInode, hfr]

private theorem shape_setFrags (c : MDCache) (i : InodePtr) (fs : List (Frag × DirPtr)) :
    (c.setInode i { c.inodes i with dirfrags := fs }).shape =
      { c.shape with dirfrags := update c.shape.dirfrags i fs } := by
  have hpar : update c.shape.parent i (c.inodes i).parent = c.shape.parent := update_eq_self i c.shape.parent
  rw [shape_setInode, hpar]

private theorem nested_setDir (hX : X.numDentriesNested = c.nested d) : (c.setDir d X).nested = c.nested := by
  refine (funext fun y => apply_update (fun _ D => numDentriesNested D) c.dirs d X y).trans ?_
  rw [hX]
  exact update_eq_self d _

private theorem Counted.setDir (h : c.Counted) (hX : X.numAny = X.items.length) : (c.setDir d X).Counted := by
  intro y
  by_cases hy : y = d
  · subst hy
    simpa [MDCache.setDir] using hX
  · simpa [MDCache.setDir, hy] using h y

private theorem checked_eq (h : c.Counted) (d : DirPtr) : c.checked d = some c := if_pos (h d)

/-! ### The loop to the root -/

def bumpAll (c : MDCache) (l : List DirPtr) (a b e ep : Int) : MDCache :=
  { c with dirs := fun y => if y ∈ l then (c.dirs y).bump a b e ep else c.dirs y }

private theorem bump_fields (D : CDir) (a b e ep : Int) : (D.bump a b e ep).inode = D.inode ∧
    (D.bump a b e ep).items = D.items ∧ (D.bump a b e ep).numAny = D.numAny ∧
    (D.bump a b e ep).numDentriesNested = D.numDentriesNested + a ∧ (D.bump a b e ep).auth = D.auth := by
  unfold bump maybeUpdateEpoch numAny
  split <;> simp

private theorem densityLoop_eq (hl : Chain c.parentDir d l) {n : Nat} (hn : l.length ≤ n) :
    densityLoop a b e ep n c d = some (c.bumpAll l a b e ep) := by
  generalize hup : c.parentDir = up at hl
  induction hl generalizing c n with
  | @root d h0 =>
    obtain ⟨n, rfl⟩ : ∃ m, n = m + 1 := ⟨n - 1, by simp at hn; omega⟩
    have hpar : (c.setDir d ((c.dirs d).bump a b e ep)).parentDir d = none := by
      simpa [parentDir, setDir, (bump_fields _ a b e ep).1, ← hup] using h0
    simp only [densityLoop, hpar, Option.some.injEq]
    simp only [setDir]
    congr 1
    funext y
    by_cases hy : y = d
    · subst hy
      simp
    · simp [hy]
  | @step d p l h0 hp ih =>
    obtain ⟨n, rfl⟩ : ∃ m, n = m + 1 := ⟨n - 1, by simp at hn; omega⟩
    have hpd : ∀ y, (c.setDir d ((c.dirs d).bump a b e ep)).parentDir y = c.parentDir y := by
      intro y
      by_cases hy : y = d
      · subst hy
        simp [parentDir, setDir, (bump_fields _ a b e ep).1]
      · simp [parentDir, setDir, hy]
    have hpar : (c.setDir d ((c.dirs d).bump a b e ep)).parentDir d = some p := by
      rw [hpd, hup, h0]
    have hnd : d ∉ l := (nodup_cons.1 (Chain.step h0 hp).nodup).1
    simp only [densityLoop, hpar]
    rw [ih (by simpa using hn) (by rw [← hup]; exact funext hpd)]
    simp only [setDir, bumpAll, Option.some.injEq]
    congr 1
    funext y
    by_cases hy : y = d
    · subst hy
      simp [hnd]
    · simp [hy]

private theorem shape_bumpAll (c : MDCache) (l : List DirPtr) (a b e ep : Int) :
    (c.bumpAll l a b e ep).shape = c.shape := by
  have howner : ∀ y, ((c.bumpAll l a b e ep).dirs y).inode = (c.dirs y).inode := by
    intro y
    simp only [bumpAll]
    split
    · exact (bump_fields _ a b e ep).1
    · rfl
  have hitems : ∀ y, ((c.bumpAll l a b e ep).dirs y).items = (c.dirs y).items := by
    intro y
    simp only [bumpAll]
    split
    · exact (bump_fields _ a b e ep).2.1
    · rfl
  simp only [shape, howner, hitems]
  rfl

private theorem nested_bumpAll (c : MDCache) (l : List DirPtr) (a b e ep : Int) :
    (c.bumpAll l a b e ep).nested = fun y => c.nested y + if y ∈ l then a else 0 := by
  funext y
  simp only [nested, bumpAll]
  split
  · exact (bump_fields _ a b e ep).2.2.2.1
  · simp

private theorem Counted.bumpAll (h : c.Counted) : (c.bumpAll l a b e ep).Counted := by
  intro y
  simp only [MDCache.bumpAll]
  split
  · rw [(bump_fields _ a b e ep).2.2.1, (bump_fields _ a b e ep).2.1]
    exact h y
  · exact h y

private theorem Inv.incDensity (h : c.Inv) (hd : c.shape.IsOpen d) (a b e : Int) :
    ∃ c', c.incDensity d a b e = some c' ∧ c'.shape = c.shape ∧ c'.Inv ∧
      (∀ x, c'.deficit x = c.deficit x + if x = d then a else 0) ∧
      ∀ l, Chain c.shape.up d l → ∀ y, y ∉ l → c'.nested y = c.nested y := by
  obtain ⟨l, hl⟩ := h.linked.rooted d
  have hlen : l.length ≤ c.numDirs := hl.length_le (h.linked.chain_lt hd hl)
  refine ⟨_, densityLoop_eq hl hlen, shape_bumpAll .., ⟨?_, Counted.bumpAll h.counted⟩, ?_, ?_⟩
  · rw [shape_bumpAll]
    exact h.linked
  · intro x
    rw [deficit, shape_bumpAll, nested_bumpAll]
    exact Shape.deficit_chain h.linked hd hl c.nested a x
  · intro l' hl' y hy
    rw [nested_bumpAll, hl.unique hl']
    simp [hy]

/-! ### The pieces of the operations -/

/-- What one piece of an operation does: a new shape, and the counters as they were. -/
structure Reshapes (c c' : MDCache) (S : Shape) : Prop where
  shape : c'.shape = S
  nested : c'.nested = c.nested
  counted : ∀ d, (c'.dirs d).numAny = (c'.dirs d).items.length

private theorem Reshapes.deficit (h : Reshapes c c' S) (x : DirPtr) : c'.deficit x = S.deficit c.nested x := by
  rw [MDCache.deficit, h.shape, h.nested]

private theorem Reshapes.inv (h : Reshapes c c' S) (hS : S.Linked) : c'.Inv := ⟨h.shape ▸ hS, h.counted⟩

private theorem reshapes_setDir (h : c.Counted) (hi : X.inode = (c.dirs d).inode)
    (hn : X.numDentriesNested = c.nested d) (hc : X.numAny = X.items.length) :
    Reshapes c (c.setDir d X) { c.shape with items := update c.shape.items d X.items } :=
  ⟨shape_setDir hi, nested_setDir hn, h.setDir hc⟩

private theorem Reshapes.recount (h : Reshapes c c' S) (hi : X.inode = (c'.dirs d).inode)
    (hit : X.items = (c'.dirs d).items) (hn : X.numDentriesNested = (c'.dirs d).numDentriesNested)
    (hc : X.numAny = (c'.dirs d).numAny) : Reshapes c (c'.setDir d X) S :=
  ⟨(shape_setDir_same hi hit).trans h.shape, (nested_setDir hn).trans h.nested,
    Counted.setDir h.counted (by rw [hc, hit]; exact h.counted d)⟩

private theorem find?_eq_some (h : c.shape.Linked) (hdn : dn ∈ c.shape.items d) :
    (c.dirs d).find? dn.key = some dn := by
  cases hf : (c.dirs d).find? dn.key with
  | none =>
    have := find?_eq_none.1 hf dn hdn
    simp at this
  | some dn' =>
    have hmem := mem_of_find?_eq_some hf
    have hkey : dn'.key = dn.key := by simpa using find?_some hf
    rw [h.eq_of_key_eq hmem hdn hkey]

private theorem of_find?_eq_some (hf : (c.dirs d).find? key = some dn) : dn ∈ c.shape.items d ∧ dn.key = key :=
  ⟨mem_of_find?_eq_some hf, by simpa using find?_some hf⟩

private theorem insertDentry_eq (h : c.Inv) (hins : c.insertDentry d dn = some c') :
    (∀ a ∈ c.shape.items d, a.key ≠ dn.key) ∧ Reshapes c c' (c.shape.insert d dn) := by
  obtain ⟨hf, hins⟩ := ite_none_left_eq_some.1 hins
  cases hins
  constructor
  · intro x hx hkey
    have hnone : (c.dirs d).find? dn.key = none := by simpa using hf
    have := find?_eq_none.1 hnone x hx
    simp [hkey] at this
  have hcount := h.counted d
  generalize hX : (if dn.linkage = .null then _ else _ : CDir) = X
  have hfields : X.inode = (c.dirs d).inode ∧ X.numDentriesNested = c.nested d ∧
      X.items = (c.dirs d).items ++ [dn] ∧ X.numAny = (c.dirs d).numAny + 1 := by
    rw [← hX]
    split
    · exact ⟨by simp, by simp [nested], by simp, addNull_numAny ..⟩
    · exact ⟨by simp, by simp [nested], by simp, addItems_numAny ..⟩
  obtain ⟨hin, hne, hit, hnum⟩ := hfields
  have hr := reshapes_setDir h.counted hin hne (by rw [hnum, hit, hcount]; simp)
  rw [hit] at hr
  exact hr

private theorem setPrimaryParent_eq (hcount : c.Counted)
    (hset : c.setPrimaryParent i d key = some c') : c.shape.parent i = none ∧
      Reshapes c c' { c.shape with parent := update c.shape.parent i (some (d, key)) } := by
  obtain ⟨hp, hset⟩ := ite_none_right_eq_some.1 hset
  cases hset
  exact ⟨hp, shape_setParent .., rfl, hcount⟩

private theorem unlinkInodeWork_eq (h : c.Inv) (hdn : dn ∈ c.shape.items d) (hu : c.unlinkInodeWork d dn = some c') :
    ∃ S, Reshapes c c' S ∧ S.Linked ∧ S.dirfrags = c.shape.dirfrags ∧ (⟨dn.key, .null⟩ : CDentry) ∈ S.items d ∧
      (∀ x, S.deficit c.nested x = c.deficit x + if x = d then ((c.shape.fragsOf dn).map c.nested).sum else 0) := by
  obtain ⟨key, lk⟩ := dn
  have hrelink : ∀ {c : MDCache}, c.Counted →
      Reshapes c (c.setDir d ((c.dirs d).setLinkage key .null)) (c.shape.relink d key .null) := by
    intro c hc
    exact reshapes_setDir hc rfl rfl (by simpa [setLinkage, numAny] using hc d)
  have hnull : c.shape.fragsOf ⟨key, .null⟩ = [] := rfl
  have hdef := fun x => Shape.deficit_relink .null h.linked hdn c.nested x
  simp only [hnull, map_nil, sum_nil, sub_zero] at hdef
  cases lk with
  | null => simp [unlinkInodeWork] at hu
  | remote ino dType =>
    obtain ⟨-, hu⟩ := ite_none_left_eq_some.1 hu
    cases hu
    refine ⟨_, hrelink h.counted, h.linked.relink hdn (by simp) (by simp), rfl, ?_, hdef⟩
    exact Shape.mem_relink.2 (.inr ⟨rfl, rfl, rfl, _, hdn⟩)
  | primary i =>
    obtain ⟨-, hu⟩ := ite_none_right_eq_some.1 hu
    cases hu
    refine ⟨c.shape.detach i d key, ?_, h.linked.detach hdn, rfl, ?_, hdef⟩
    · have := hrelink (c := c.setInode i { c.inodes i with parent := none }) h.counted
      refine ⟨this.shape.trans ?_, this.nested, this.counted⟩
      rw [shape_setParent]
      rfl
    · exact Shape.mem_relink.2 (.inr ⟨rfl, rfl, rfl, _, hdn⟩)

/-! ### The operations -/

private theorem Reshapes.incDensity {c1 : MDCache} (h : Reshapes c c1 S) (hS : S.Linked) (hd : S.IsOpen d)
    (hinc : c1.incDensity d a b e = some c') :
    c'.Inv ∧ c'.shape = S ∧ ∀ x, c'.deficit x = S.deficit c.nested x + if x = d then a else 0 := by
  have hd1 : c1.shape.IsOpen d := h.shape ▸ hd
  obtain ⟨c2, hc2, hshape, hinv, hdef, -⟩ := (h.inv hS).incDensity hd1 a b e
  obtain rfl : c2 = c' := by simpa [hinc] using hc2.symm
  refine ⟨hinv, hshape.trans h.shape, fun x => ?_⟩
  rw [hdef, h.deficit]

private theorem Inv.of_checked (h : c.Inv) (hc : c.checked d = some c') : c' = c := by
  rw [checked_eq h.counted] at hc
  exact (Option.some.inj hc).symm

private theorem Inv.addDentry (h : c.Inv) (hd : c.shape.IsOpen d) (hlk : ∀ i, dn.linkage ≠ .primary i)
    (hop : c.addDentry d dn = some c') :
    c'.Inv ∧ c'.shape = c.shape.insert d dn ∧ ∀ x, c'.deficit x = c.deficit x := by
  simp only [MDCache.addDentry, bind_eq_bind, bind_eq_some_iff] at hop
  obtain ⟨c1, hins, c2, hinc, hchk⟩ := hop
  obtain ⟨hfresh, hr⟩ := insertDentry_eq h hins
  obtain ⟨hinv, hshape, hdef⟩ := hr.incDensity (h.linked.insert hd hfresh hlk) hd hinc
  obtain rfl := hinv.of_checked hchk
  refine ⟨hinv, hshape, fun x => ?_⟩
  rw [hdef, Shape.deficit_insert dn c.nested hlk, deficit]
  split <;> ring

private theorem insert_primary_eq (S : Shape) (hfresh : ∀ a ∈ S.items d, a.key ≠ key) :
    { S.insert d ⟨key, .primary i⟩ with parent := update S.parent i (some (d, key)) } =
      (S.insert d ⟨key, .null⟩).hang i d key := by
  have hmap : (S.items d).map (fun dn => if dn.key = key then { dn with linkage := .primary i } else dn) = S.items d :=
    (map_congr_left fun a ha => if_neg (hfresh a ha)).trans (map_id _)
  simp [Shape.insert, Shape.hang, Shape.relink, hmap]

private theorem Inv.addPrimaryDentry (h : c.Inv) (hd : c.shape.IsOpen d) (hi : i < c.numInodes)
    (hl : Chain c.shape.up d l) (hcycle : ∀ y ∈ l, c.shape.owner y ≠ i) (hop : c.addPrimaryDentry d key i = some c') :
    c'.Inv ∧ c'.shape = (c.shape.insert d ⟨key, .null⟩).hang i d key ∧ ∀ x, c'.deficit x = c.deficit x := by
  simp only [MDCache.addPrimaryDentry, bind_eq_bind, bind_eq_some_iff] at hop
  obtain ⟨c1, hins, c2, hset, c3, hinc, hchk⟩ := hop
  obtain ⟨hfresh, hr⟩ := insertDentry_eq h hins
  obtain ⟨hpar, hr'⟩ := setPrimaryParent_eq hr.counted hset
  have hL : (c.shape.insert d ⟨key, .null⟩).Linked := h.linked.insert hd hfresh (by simp)
  have hdn : (⟨key, .null⟩ : CDentry) ∈ (c.shape.insert d ⟨key, .null⟩).items d := by simp [Shape.insert]
  rw [hr.shape] at hpar
  have hL' := hL.hang hdn (by simp) hpar hi hl hcycle
  have hS : Reshapes c c2 ((c.shape.insert d ⟨key, .null⟩).hang i d key) := by
    refine ⟨?_, hr'.nested.trans hr.nested, hr'.counted⟩
    rw [hr'.shape, hr.shape]
    exact insert_primary_eq c.shape hfresh
  obtain ⟨hinv, hshape, hdef⟩ := hS.incDensity hL' hd hinc
  obtain rfl := hinv.of_checked hchk
  refine ⟨hinv, hshape, fun x => ?_⟩
  have hsum : ((c2.frags i).map fun s => (c2.dirs s).numDentriesNested).sum = ((c.shape.frags i).map c.nested).sum := by
    have hfr : c2.frags i = c.shape.frags i := congrFun (congrArg Shape.frags hS.shape) i
    rw [hfr, ← hS.nested]
    rfl
  have hrel := Shape.deficit_relink (.primary i) hL hdn c.nested x
  have hins' := Shape.deficit_insert (S := c.shape) (d := d) ⟨key, .null⟩ c.nested (by simp) x
  rw [hdef, hsum]
  calc ((c.shape.insert d ⟨key, .null⟩).hang i d key).deficit c.nested x + _
      = ((c.shape.insert d ⟨key, .null⟩).relink d key (.primary i)).deficit c.nested x + _ := rfl
    _ = c.deficit x := by
      rw [hrel, hins', deficit]
      split
      · simp only [Shape.fragsOf, map_nil, sum_nil]
        rw [show (c.shape.insert d ⟨key, .null⟩).frags i = c.shape.frags i from rfl]
        ring
      · ring

private theorem Inv.unlinkInode (h : c.Inv) (hop : c.unlinkInode d key = some c') :
    c'.Inv ∧ c'.shape.dirfrags = c.shape.dirfrags ∧ ∃ dn, (c.dirs d).find? key = some dn ∧
      ∀ x, c'.deficit x = c.deficit x + if x = d then ((c.shape.fragsOf dn).map c.nested).sum else 0 := by
  simp only [MDCache.unlinkInode, bind_eq_bind, bind_eq_some_iff] at hop
  obtain ⟨dn, hf, c1, hu, hchk⟩ := hop
  obtain ⟨S, hr, hL, hfr, -, hdef⟩ := unlinkInodeWork_eq h (of_find?_eq_some hf).1 hu
  have hr' : Reshapes c (c1.setDir d (((c1.dirs d).addItems key.last (-1)).addNull key.last 1)) S :=
    hr.recount (by simp) (by simp) (by simp) (by simp)
  have hinv := hr'.inv hL
  obtain rfl := hinv.of_checked hchk
  refine ⟨hinv, by rw [hr'.shape, hfr], dn, hf, fun x => ?_⟩
  rw [hr'.deficit, hdef]

private theorem Inv.linkPrimaryInode (h : c.Inv) (hi : i < c.numInodes) (hl : Chain c.shape.up d l)
    (hcycle : ∀ y ∈ l, c.shape.owner y ≠ i) (hop : c.linkPrimaryInode d key i = some c') :
    c'.Inv ∧ c'.shape = c.shape.hang i d key ∧
      ∀ x, c'.deficit x = c.deficit x - if x = d then ((c.shape.frags i).map c.nested).sum else 0 := by
  simp only [MDCache.linkPrimaryInode, bind_eq_bind, bind_eq_some_iff] at hop
  obtain ⟨dn, hf, hop⟩ := hop
  obtain ⟨hnull, hop⟩ := ite_none_left_eq_some.1 hop
  simp only [bind_eq_some_iff] at hop
  obtain ⟨c1, hset, hchk⟩ := hop
  obtain ⟨hmem, rfl⟩ := of_find?_eq_some hf
  obtain ⟨key, lk⟩ := dn
  have hlk : ∀ j, lk ≠ .primary j := by
    rintro j rfl
    simp [Linkage.isNull] at hnull
  have hr0 : Reshapes c (c.setDir d ((c.dirs d).setLinkage key (.primary i))) (c.shape.relink d key (.primary i)) :=
    reshapes_setDir h.counted rfl rfl (by simpa [setLinkage, numAny] using h.counted d)
  obtain ⟨hpar, hr1⟩ := setPrimaryParent_eq hr0.counted hset
  have hL := h.linked.hang hmem hlk hpar hi hl hcycle
  have hS : Reshapes c c1 (c.shape.hang i d key) := by
    refine ⟨?_, hr1.nested.trans hr0.nested, hr1.counted⟩
    rw [hr1.shape, hr0.shape]
    rfl
  have hr' : Reshapes c (c1.setDir d (((c1.dirs d).addItems key.last 1).addNull key.last (-1)))
      (c.shape.hang i d key) :=
    hS.recount (by simp) (by simp) (by simp) (by simp)
  have hinv := hr'.inv hL
  obtain rfl := hinv.of_checked hchk
  refine ⟨hinv, hr'.shape, fun x => ?_⟩
  have hnil : c.shape.fragsOf ⟨key, lk⟩ = [] := Shape.fragsOf_eq_nil hlk
  have hrel := Shape.deficit_relink (.primary i) h.linked hmem c.nested x
  rw [hr'.deficit]
  calc (c.shape.hang i d key).deficit c.nested x
      = (c.shape.relink d key (.primary i)).deficit c.nested x := rfl
    _ = c.deficit x - if x = d then ((c.shape.frags i).map c.nested).sum else 0 := by
      rw [hrel, hnil, deficit]
      split
      · simp only [Shape.fragsOf, map_nil, sum_nil]
        ring
      · ring

/-! ### Removing dentries -/

private theorem setDir_setDir (c : MDCache) (d : DirPtr) (X Y : CDir) : (c.setDir d X).setDir d Y = c.setDir d Y := by
  simp [setDir]

private theorem setDir_dirs (c : MDCache) (d : DirPtr) (X : CDir) : (c.setDir d X).dirs d = X := by
  simp [setDir]

private theorem reshapes_erase (h : c.Inv) {lk : Linkage} (hdn : (⟨key, lk⟩ : CDentry) ∈ c.shape.items d)
    (hi : X.inode = (c.dirs d).inode) (hit : X.items = (c.dirs d).items)
    (hn : X.numDentriesNested = (c.dirs d).numDentriesNested) (hc : X.numAny = (c.dirs d).numAny - 1) :
    Reshapes c (c.setDir d { X with items := X.items.filter (·.key ≠ key) }) (c.shape.erase d key) := by
  have hlen : (((c.dirs d).items.filter (·.key ≠ key)).length : Int) = (c.dirs d).items.length - 1 := by
    have hkeys : ((c.dirs d).items.map (·.key)).Nodup := h.linked.keys d
    have hmem : key ∈ (c.dirs d).items.map (·.key) := mem_map.2 ⟨_, hdn, rfl⟩
    have hmap : ((c.dirs d).items.filter (·.key ≠ key)).map (·.key) = ((c.dirs d).items.map (·.key)).erase key := by
      rw [hkeys.erase_eq_filter, List.filter_map]
      simp [comp_def, bne, BEq.beq]
    have hlen := congrArg length hmap
    have hpos := length_pos_of_mem hmem
    rw [length_map, length_erase_of_mem hmem] at hlen
    rw [length_map] at hlen hpos
    omega
  have := reshapes_setDir (d := d) (X := { X with items := X.items.filter (·.key ≠ key) }) h.counted hi hn (by
    show X.numAny = _
    rw [hc, h.counted d]
    simp only [hit]
    rw [hlen])
  simp only [hit] at this ⊢
  exact this

private theorem unlinkInodeWork_addItems (c : MDCache) (d : DirPtr) (dn : CDentry) (last : Nat) (n : Int) :
    (c.setDir d ((c.dirs d).addItems last n)).unlinkInodeWork d dn =
      (c.unlinkInodeWork d dn).map fun c' => c'.setDir d ((c'.dirs d).addItems last n) := by
  have hcomm : ∀ D : CDir, (D.addItems last n).setLinkage dn.key .null = (D.setLinkage dn.key .null).addItems last n := by
    intro D
    unfold addItems setLinkage
    split <;> rfl
  unfold unlinkInodeWork
  split
  · rfl
  · split
    · rfl
    · simp [setDir, hcomm]
  · simp only [show (c.setDir d ((c.dirs d).addItems last n)).inodes = c.inodes from rfl]
    split
    · simp [setDir, setInode, hcomm]
    · rfl

private theorem Inv.removeDentry (h : c.Inv) (hop : c.removeDentry d key = some c') : c'.Inv ∧
    c'.shape.dirfrags = c.shape.dirfrags ∧ ∃ dn, (c.dirs d).find? key = some dn ∧
      (dn.linkage.isNull = true → Reshapes c c' (c.shape.erase d key)) := by
  simp only [MDCache.removeDentry, bind_eq_bind, bind_eq_some_iff] at hop
  obtain ⟨dn, hf, c1, hu, hchk⟩ := hop
  obtain ⟨hmem, rfl⟩ := of_find?_eq_some hf
  obtain ⟨key, lk⟩ := dn
  by_cases hnull : lk.isNull
  · simp only [hnull, if_true, Option.some.injEq] at hu
    subst hu
    simp only [setDir_dirs, setDir_setDir] at hchk
    have hlk : ∀ j, lk ≠ .primary j := by
      rintro j rfl
      simp [Linkage.isNull] at hnull
    have hr := reshapes_erase (X := (c.dirs d).addNull key.last (-1)) h hmem (by simp) (by simp) (by simp)
      (addNull_numAny ..)
    have hinv := hr.inv (h.linked.erase hmem hlk)
    obtain rfl := hinv.of_checked hchk
    exact ⟨hinv, by rw [hr.shape]; rfl, _, hf, fun _ => hr⟩
  · simp only [hnull, Bool.false_eq_true, if_false] at hu
    rw [unlinkInodeWork_addItems] at hu
    obtain ⟨c2, hu2, rfl⟩ := map_eq_some_iff.1 hu
    obtain ⟨S, hr, hL, hfr, hdn, -⟩ := unlinkInodeWork_eq h hmem hu2
    simp only [setDir_dirs, setDir_setDir] at hchk
    rw [← hr.shape] at hdn hL
    have hr' := reshapes_erase (X := (c2.dirs d).addItems key.last (-1)) ⟨hL, hr.counted⟩ hdn (by simp) (by simp)
      (by simp) (addItems_numAny ..)
    have hinv := hr'.inv (hL.erase hdn (by simp))
    obtain rfl := hinv.of_checked hchk
    refine ⟨hinv, ?_, _, hf, fun hn => absurd hn hnull⟩
    rw [hr'.shape, ← hfr, ← hr.shape]
    rfl

/-! ### Opening and closing fragments -/

private theorem Inv.setEpoch (h : c.Inv) (d : DirPtr) :
    Reshapes c (c.setDir d ((c.dirs d).maybeUpdateEpoch (-1))) c.shape := by
  have hr : Reshapes c c c.shape := ⟨rfl, rfl, h.counted⟩
  unfold maybeUpdateEpoch
  split
  · exact hr.recount rfl rfl rfl rfl
  · exact hr.recount rfl rfl rfl rfl

private theorem Inv.addDirfrag (h : c.Inv) {fg : Frag} {auth : Bool} (hi : i < c.numInodes)
    (hop : c.addDirfrag i fg auth ep = some c') :
    c'.Inv ∧ c'.shape = c.shape.openFrag i fg ∧ ∀ x, c'.deficit x = if x = c.numDirs then 0 else c.deficit x := by
  unfold MDCache.addDirfrag at hop
  split at hop
  · cases hop
  rename_i hfg
  have hL := h.linked.openFrag hi hfg
  dsimp only at hop
  generalize hc1 : setInode _ i _ = c1 at hop
  have hshape : c1.shape = c.shape.openFrag i fg := by
    rw [← hc1, shape_setFrags]
    simp only [setDir, shape]
    congr 1
    all_goals
      funext y
      by_cases hy : y = c.numDirs <;> simp [hy]
  have hnew : c1.nested c.numDirs = 0 := by
    rw [← hc1]
    simp [nested, setInode, setDir]
  have hold : ∀ y, y ≠ c.numDirs → c1.nested y = c.nested y := by
    intro y hy
    rw [← hc1]
    simp [nested, setInode, setDir, hy]
  have hcount : c1.Counted := by
    intro y
    rw [← hc1]
    by_cases hy : y = c.numDirs
    · simp [setInode, setDir, hy, numAny]
    · simpa [setInode, setDir, hy] using h.counted y
  have hinv : c1.Inv := ⟨hshape ▸ hL, hcount⟩
  have hdef : ∀ x, c1.deficit x = if x = c.numDirs then 0 else c.deficit x := by
    intro x
    rw [deficit, hshape]
    exact Shape.deficit_openFrag h.linked hnew hold x
  unfold incParentDensity at hop
  split at hop
  · cases hop
    exact ⟨hinv, hshape, hdef⟩
  rename_i p hp
  have hopen : c1.shape.IsOpen p := hinv.linked.isOpen_of_up hp
  obtain ⟨hinv', hshape', hdef'⟩ := (hinv.setEpoch c.numDirs).incDensity hinv.linked hopen hop
  refine ⟨hinv', hshape'.trans hshape, fun x => ?_⟩
  have hzero : ((c1.setDir c.numDirs ((c1.dirs c.numDirs).maybeUpdateEpoch (-1))).dirs c.numDirs).numDentriesNested =
      0 :=
    (congrFun (hinv.setEpoch c.numDirs).nested c.numDirs).trans hnew
  rw [hdef', hzero, ← hdef x, deficit]
  simp

/-- `remove_null_dentries`: only the dentries of `d` change. -/
structure Trims (c c' : MDCache) (d : DirPtr) : Prop where
  inv : c'.Inv
  dirfrags : c'.shape.dirfrags = c.shape.dirfrags
  up : c'.shape.up = c.shape.up
  nested : c'.nested = c.nested
  deficit : ∀ x, x ≠ d → c'.deficit x = c.deficit x

private theorem Trims.trans {c1 : MDCache} (h : Trims c c1 d) (h' : Trims c1 c' d) : Trims c c' d :=
  ⟨h'.inv, h'.dirfrags.trans h.dirfrags, h'.up.trans h.up, h'.nested.trans h.nested,
    fun x hx => (h'.deficit x hx).trans (h.deficit x hx)⟩

private theorem trims_removeDentry (h : c.Inv) (hdn : dn ∈ c.shape.items d) (hnull : dn.linkage.isNull = true)
    (hop : c.removeDentry d dn.key = some c') :
    Trims c c' d ∧ ∀ a ∈ c.shape.items d, a.key ≠ dn.key → a ∈ c'.shape.items d := by
  obtain ⟨hinv, hfr, dn', hf, hr⟩ := h.removeDentry hop
  obtain rfl : dn' = dn := by simpa [find?_eq_some h.linked hdn] using hf.symm
  have hr := hr hnull
  constructor
  · refine ⟨hinv, hfr, by rw [hr.shape]; rfl, hr.nested, fun x hx => ?_⟩
    rw [hr.deficit, Shape.deficit_erase _ hx, deficit]
  · intro a ha hkey
    rw [hr.shape]
    simp [Shape.erase, ha, hkey]

private theorem trims_removeAll (h : c.Inv) {dns : List CDentry} (hnd : (dns.map (·.key)).Nodup)
    (hmem : ∀ dn ∈ dns, dn ∈ c.shape.items d ∧ dn.linkage.isNull = true)
    (hop : dns.foldlM (fun c dn => c.removeDentry d dn.key) c = some c') : Trims c c' d := by
  induction dns generalizing c with
  | nil =>
    obtain rfl : c = c' := by simpa using hop
    exact ⟨h, rfl, rfl, rfl, fun _ _ => rfl⟩
  | cons dn dns ih =>
    simp only [foldlM_cons, bind_eq_bind, bind_eq_some_iff] at hop
    obtain ⟨c1, h1, hop⟩ := hop
    obtain ⟨hdn, hnull⟩ := hmem dn (by simp)
    obtain ⟨ht, hkeep⟩ := trims_removeDentry h hdn hnull h1
    rw [map_cons, nodup_cons] at hnd
    refine ht.trans (ih ht.inv hnd.2 (fun a ha => ?_) hop)
    obtain ⟨ha', hanull⟩ := hmem a (by simp [ha])
    refine ⟨hkeep a ha' fun hkey => ?_, hanull⟩
    exact hnd.1 (hkey ▸ mem_map.2 ⟨a, ha, rfl⟩)

private theorem trims_removeNullDentries (h : c.Inv) (hop : c.removeNullDentries d = some c') : Trims c c' d := by
  simp only [removeNullDentries, bind_eq_bind, bind_eq_some_iff] at hop
  obtain ⟨c1, hfold, hop⟩ := hop
  have ht : Trims c c1 d := by
    refine trims_removeAll h ?_ ?_ hfold
    · exact (h.linked.keys d).sublist (filter_sublist.map _)
    · intro dn hdn
      exact ⟨(mem_filter.1 hdn).1, (mem_filter.1 hdn).2⟩
  obtain ⟨-, hop⟩ := ite_none_right_eq_some.1 hop
  obtain rfl := ht.inv.of_checked hop
  exact ht

private theorem Inv.closeDirfrag (h : c.Inv) {fg : Frag} (hop : c.closeDirfrag i fg = some c') :
    c'.Inv ∧ ∃ d, (fg, d) ∈ c.shape.dirfrags i ∧ c'.shape.dirfrags = (c.shape.closeFrag i fg).dirfrags ∧
      ¬c'.shape.IsOpen d ∧ ∀ x, x ≠ d → c'.deficit x = c.deficit x := by
  simp only [MDCache.closeDirfrag, bind_eq_bind, bind_eq_some_iff] at hop
  obtain ⟨⟨fg', d⟩, hf, c1, hnull, c2, hdec, hop⟩ := hop
  obtain rfl : fg' = fg := by simpa using find?_some hf
  have hfd : (fg', d) ∈ c.shape.dirfrags i := mem_of_find?_eq_some hf
  have ht := trims_removeNullDentries h hnull
  have hfd1 := ht.dirfrags ▸ hfd
  -- the counters of `d` leave the chain above it, in which `d` is not
  have hchain : c2.Inv ∧ c2.shape = c1.shape ∧ c2.nested d = c1.nested d ∧
      ∀ x, c2.deficit x = c1.deficit x - if c1.shape.up d = some x then c1.nested d else 0 := by
    unfold decParentDensity at hdec
    split at hdec
    · rename_i hp
      cases hdec
      exact ⟨ht.inv, rfl, rfl, fun x => by simp [show c1.shape.up d = none from hp]⟩
    rename_i p hp
    have hup : c1.shape.up d = some p := hp
    have hopen : c1.shape.IsOpen p := ht.inv.linked.isOpen_of_up hp
    have he := ht.inv.setEpoch d
    have hinve := he.inv ht.inv.linked
    have hopene := he.shape ▸ hopen
    obtain ⟨c3, hc3, hshape, hinv, hdef, hoff⟩ := hinve.incDensity hopene
      (-((c1.setDir d ((c1.dirs d).maybeUpdateEpoch (-1))).nested d)) _ _
    obtain rfl : c3 = c2 := by
      have := hc3.symm.trans hdec
      simpa using this
    refine ⟨hinv, hshape.trans he.shape, ?_, fun x => ?_⟩
    · obtain ⟨l, hl⟩ := ht.inv.linked.rooted p
      rw [hoff l (he.shape ▸ hl) d fun hd => hl.up_ne_first hd hup, he.nested]
    · rw [hdef, he.deficit, he.nested, deficit, hup]
      by_cases hx : x = p
      · simp [hx]
        ring
      · simp [hx, Ne.symm hx]
  obtain ⟨hinv2, hshape2, hnd, hdef2⟩ := hchain
  obtain ⟨hnil, hop⟩ := ite_none_right_eq_some.1 hop
  cases hop
  have hfd2 := hshape2 ▸ hfd1
  have hshape : (c2.setInode i { c2.inodes i with
      dirfrags := (c2.inodes i).dirfrags.filter (·.1 ≠ fg') }).shape = c2.shape.closeFrag i fg' := shape_setFrags ..
  have hclose := hinv2.linked.closeFrag hfd2 hnil
  refine ⟨⟨hshape ▸ hclose, hinv2.counted⟩, d, hfd, ?_, ?_, fun x hx => ?_⟩
  · rw [hshape, hshape2]
    simp only [Shape.closeFrag, ht.dirfrags]
  · rw [hshape, Shape.IsOpen, hinv2.linked.mem_closeFrag hfd2]
    simp
  rw [deficit, hshape]
  have := Shape.deficit_closeFrag hinv2.linked hfd2 hnil c2.nested x
  calc (c2.shape.closeFrag i fg').deficit c2.nested x
      = c2.deficit x + if c2.shape.up d = some x then c2.nested d else 0 := this
    _ = c1.deficit x := by
      rw [hdef2, hshape2, hnd]
      ring
    _ = c.deficit x := ht.deficit x hx

/-! ### Runs -/

inductive TreeOp
  | newInode
  | addNull (d : DirPtr) (key : DentryKey)
  | addPrimary (d : DirPtr) (key : DentryKey) (i : InodePtr)
  | addRemote (d : DirPtr) (key : DentryKey) (ino dType : Nat)
  | remove (d : DirPtr) (key : DentryKey)
  | unlink (d : DirPtr) (key : DentryKey)
  | linkPrimary (d : DirPtr) (key : DentryKey) (i : InodePtr)
  | addDirfrag (i : InodePtr) (fg : Frag) (auth : Bool) (epoch : Int)
  | closeDirfrag (i : InodePtr) (fg : Frag)

def isAbove (c : MDCache) (i : InodePtr) (d : DirPtr) : Bool :=
  match climb c.parentDir c.numDirs d with
  | some l => l.any fun y => (c.dirs y).inode = i
  | none => false

/-- An operation on open fragments and existing inodes. An inode is never linked below itself. -/
def step (c : MDCache) : TreeOp → Option MDCache
  | .newInode => some { c.setInode c.numInodes {} with numInodes := c.numInodes + 1 }
  | .addNull d key => if c.shape.IsOpen d then c.addNullDentry d key else none
  | .addPrimary d key i =>
    if c.shape.IsOpen d ∧ i < c.numInodes ∧ c.isAbove i d = false then c.addPrimaryDentry d key i else none
  | .addRemote d key ino dType => if c.shape.IsOpen d then c.addRemoteDentry d key ino dType else none
  | .remove d key => c.removeDentry d key
  | .unlink d key => c.unlinkInode d key
  | .linkPrimary d key i =>
    if c.shape.IsOpen d ∧ i < c.numInodes ∧ c.isAbove i d = false then c.linkPrimaryInode d key i else none
  | .addDirfrag i fg auth epoch => if i < c.numInodes then c.addDirfrag i fg auth epoch else none
  | .closeDirfrag i fg => c.closeDirfrag i fg

private theorem Inv.chain_of_isAbove (h : c.Inv) (hd : c.shape.IsOpen d) (hno : c.isAbove i d = false) :
    ∃ l, Chain c.shape.up d l ∧ ∀ y ∈ l, c.shape.owner y ≠ i := by
  obtain ⟨l, hl⟩ := h.linked.rooted d
  have hclimb : climb c.parentDir c.numDirs d = some l := hl.climb_eq (h.linked.chain_lt hd hl)
  refine ⟨l, hl, fun y hy howner => ?_⟩
  rw [isAbove, hclimb] at hno
  have := any_eq_false.1 hno y hy
  simp only [decide_eq_true_eq] at this
  exact this howner

private theorem Inv.newInode (h : c.Inv) {c' : MDCache}
    (hc : { c.setInode c.numInodes {} with numInodes := c.numInodes + 1 } = c') :
    c'.Inv ∧ c'.shape.dirfrags = c.shape.dirfrags ∧ ∀ x, c'.deficit x = c.deficit x := by
  have hshape : c'.shape = c.shape.newInode := by
    have := shape_setInode c c.numInodes {}
    subst hc
    simp only [shape] at this ⊢
    simp only [Shape.newInode, Shape.mk.injEq] at this ⊢
    exact ⟨this.1, this.2.1, rfl, rfl, trivial, rfl⟩
  have hinv : c'.Inv := ⟨hshape ▸ h.linked.newInode, hc ▸ h.counted⟩
  rw [h.linked.newInode_eq] at hshape
  refine ⟨hinv, by rw [hshape], fun x => ?_⟩
  rw [deficit, hshape, ← hc]
  rfl

def Balanced (c : MDCache) : Prop := ∀ d, c.shape.IsOpen d → c.deficit d = 0

def linkedFrags (c : MDCache) (d : DirPtr) (key : DentryKey) : List DirPtr :=
  match (c.dirs d).find? key with
  | some dn => c.shape.fragsOf dn
  | none => []

/-- The operation does not take a dentry out of a fragment that stays open, and links or unlinks no inode whose
fragments have dentries counted in them. -/
def Settled (c : MDCache) : TreeOp → Prop
  | .remove _ _ => False
  | .unlink d key => ((c.linkedFrags d key).map c.nested).sum = 0
  | .linkPrimary _ _ i => ((c.frags i).map c.nested).sum = 0
  | _ => True

instance (c : MDCache) (op : TreeOp) : Decidable (c.Settled op) :=
  match op with
  | .remove _ _ => isFalse id
  | .unlink _ _ | .linkPrimary _ _ _ => inferInstanceAs (Decidable (_ = _))
  | .newInode | .addNull _ _ | .addPrimary _ _ _ | .addRemote _ _ _ _ | .addDirfrag _ _ _ _ | .closeDirfrag _ _ =>
    isTrue trivial

private theorem Inv.isOpen_of_dirfrags (h : c.Inv) (hfr : c'.shape.dirfrags = c.shape.dirfrags)
    (hd : c'.shape.IsOpen d) : c.shape.IsOpen d := by
  have hmem : d ∈ c.shape.frags (c'.shape.owner d) := by
    rw [Shape.frags, ← hfr]
    exact hd
  exact h.linked.isOpen_of_mem_frags hmem

private theorem Balanced.of_deficit (hb : c.Balanced) (h : c.Inv) (hfr : c'.shape.dirfrags = c.shape.dirfrags)
    (hdef : ∀ x, c'.deficit x = c.deficit x) : c'.Balanced := by
  intro d hd
  rw [hdef]
  exact hb d (h.isOpen_of_dirfrags hfr hd)

/-- A settled operation on a balanced cache leaves it balanced. -/
theorem Inv.step (h : c.Inv) {op : TreeOp} (hop : c.step op = some c') :
    c'.Inv ∧ (c.Balanced → c.Settled op → c'.Balanced) := by
  cases op with
  | newInode =>
    obtain ⟨hinv, hfr, hdef⟩ := h.newInode (Option.some.inj hop)
    exact ⟨hinv, fun hb _ => hb.of_deficit h hfr hdef⟩
  | addNull d key =>
    obtain ⟨hd, hop⟩ := ite_none_right_eq_some.1 hop
    obtain ⟨hinv, hshape, hdef⟩ := h.addDentry hd (by simp) hop
    exact ⟨hinv, fun hb _ => hb.of_deficit h (by rw [hshape]; rfl) hdef⟩
  | addPrimary d key i =>
    obtain ⟨hg, hop⟩ := ite_none_right_eq_some.1 hop
    obtain ⟨l, hl, hcycle⟩ := h.chain_of_isAbove hg.1 hg.2.2
    obtain ⟨hinv, hshape, hdef⟩ := h.addPrimaryDentry hg.1 hg.2.1 hl hcycle hop
    exact ⟨hinv, fun hb _ => hb.of_deficit h (by rw [hshape]; rfl) hdef⟩
  | addRemote d key ino dType =>
    obtain ⟨hd, hop⟩ := ite_none_right_eq_some.1 hop
    obtain ⟨hinv, hshape, hdef⟩ := h.addDentry hd (by simp) hop
    exact ⟨hinv, fun hb _ => hb.of_deficit h (by rw [hshape]; rfl) hdef⟩
  | remove d key => exact ⟨(h.removeDentry hop).1, fun _ hq => hq.elim⟩
  | unlink d key =>
    obtain ⟨hinv, hfr, dn, hf, hdef⟩ := h.unlinkInode hop
    refine ⟨hinv, fun hb hq => hb.of_deficit h hfr fun x => ?_⟩
    have hzero : ((c.shape.fragsOf dn).map c.nested).sum = 0 := by
      have hq' : ((c.linkedFrags d key).map c.nested).sum = 0 := hq
      rwa [linkedFrags, hf] at hq'
    simp [hdef, hzero]
  | linkPrimary d key i =>
    obtain ⟨hg, hop⟩ := ite_none_right_eq_some.1 hop
    obtain ⟨l, hl, hcycle⟩ := h.chain_of_isAbove hg.1 hg.2.2
    obtain ⟨hinv, hshape, hdef⟩ := h.linkPrimaryInode hg.2.1 hl hcycle hop
    refine ⟨hinv, fun hb hq => hb.of_deficit h (by rw [hshape]; rfl) fun x => ?_⟩
    have hzero : ((c.shape.frags i).map c.nested).sum = 0 := hq
    simp [hdef, hzero]
  | addDirfrag i fg auth epoch =>
    obtain ⟨hi, hop⟩ := ite_none_right_eq_some.1 hop
    obtain ⟨hinv, hshape, hdef⟩ := h.addDirfrag hi hop
    refine ⟨hinv, fun hb _ d hd => ?_⟩
    rw [hdef]
    split
    · rfl
    rename_i hne
    refine hb d ?_
    rw [hshape] at hd
    have hmem : d ∈ (c.shape.openFrag i fg).frags (c.shape.owner d) := by
      have howner : (c.shape.openFrag i fg).owner d = c.shape.owner d := by
        simp [openFrag, show d ≠ c.shape.numDirs from hne]
      rwa [Shape.IsOpen, howner] at hd
    by_cases hi : c.shape.owner d = i
    · rw [Shape.IsOpen, hi]
      rw [hi] at hmem
      simpa [Shape.frags, openFrag, show d ≠ c.shape.numDirs from hne] using hmem
    · simpa [Shape.IsOpen, Shape.frags, openFrag, hi] using hmem
  | closeDirfrag i fg =>
    obtain ⟨hinv, d, hfd, hfr, hclosed, hdef⟩ := h.closeDirfrag hop
    refine ⟨hinv, fun hb _ x hx => ?_⟩
    have hxd : x ≠ d := by
      rintro rfl
      exact hclosed hx
    rw [hdef x hxd]
    refine hb x (h.linked.isOpen_of_mem_frags (i := c'.shape.owner x) ?_)
    have hmem : x ∈ (c.shape.closeFrag i fg).frags (c'.shape.owner x) := by
      rw [Shape.frags, ← hfr]
      exact hx
    exact ((h.linked.mem_closeFrag hfd).1 hmem).1

private theorem inv_empty : ({} : MDCache).Inv := by
  refine ⟨⟨?_, ?_, ?_, ?_, ?_, ?_, ?_, ?_, ?_, ?_⟩, fun d => rfl⟩ <;> try simp [shape, Shape.frags]
  exact fun a => ⟨[a], .root rfl⟩

theorem inv_of_run {ops : List TreeOp} (hrun : exec step {} ops = some c) : c.Inv :=
  exec_invariant_all (fun _ _ _ h hs => (h.step hs).1) inv_empty hrun

/-- In every run that takes no dentry out of an open fragment, and links or unlinks no inode with counted fragments,
`num_dentries_nested` of each open fragment is the number of its dentries and the sum over the fragments right below. -/
theorem numDentriesNested_eq {ops : List TreeOp} (hq : AllSteps step Settled {} ops)
    (hrun : exec step {} ops = some c) (hd : c.shape.IsOpen d) :
    (c.dirs d).numDentriesNested = (c.dirs d).items.length + ((c.shape.below d).map c.nested).sum := by
  have hinv : c.Inv ∧ c.Balanced :=
    exec_invariant (I := fun c => c.Inv ∧ c.Balanced) (fun s e t hs hq ht => ⟨(hs.1.step ht).1, (hs.1.step ht).2 hs.2 hq⟩)
      ⟨inv_empty, fun d hd => by simp [shape, Shape.IsOpen, Shape.frags] at hd⟩ hq hrun
  have hzero := hinv.2 d hd
  simp only [deficit, Shape.deficit] at hzero
  have hitems : c.shape.items d = (c.dirs d).items := rfl
  have hnested : c.nested d = (c.dirs d).numDentriesNested := rfl
  rw [hitems, hnested] at hzero
  omega

/-- Adding and removing one dentry leaves the fragment empty with a count of 1. -/
theorem removeDentry_keeps_count :
    ∃ c, exec step {} [.newInode, .addDirfrag 0 Frag.root true 0, .addNull 0 ⟨"a", noSnap⟩,
        .remove 0 ⟨"a", noSnap⟩] = some c ∧ c.shape.IsOpen 0 ∧
      (c.dirs 0).numDentriesNested ≠ (c.dirs 0).items.length + ((c.shape.below 0).map c.nested).sum :=
  ⟨_, rfl, by decide, by decide⟩

/-- A directory below another one, unlinked while empty, linked back and filled. -/
def sampleOps : List TreeOp :=
  [.newInode, .addDirfrag 0 Frag.root true 0, .newInode, .addPrimary 0 ⟨"a", noSnap⟩ 1,
   .addDirfrag 1 Frag.root true 0, .unlink 0 ⟨"a", noSnap⟩, .linkPrimary 0 ⟨"a", noSnap⟩ 1,
   .addNull 1 ⟨"b", noSnap⟩, .addRemote 1 ⟨"c", noSnap⟩ 5 8, .newInode, .addDirfrag 2 Frag.root true 0,
   .addNull 2 ⟨"d", noSnap⟩, .addPrimary 1 ⟨"e", noSnap⟩ 2, .newInode, .addPrimary 2 ⟨"f", noSnap⟩ 3,
   .addDirfrag 3 Frag.root false 0, .addNull 3 ⟨"g", noSnap⟩, .closeDirfrag 3 Frag.root]

theorem numDentriesNested_sampleOps : ∃ c, exec step {} sampleOps = some c ∧ (c.dirs 0).numDentriesNested = 6 ∧
      (c.dirs 0).numDentriesNested = (c.dirs 0).items.length + ((c.shape.below 0).map c.nested).sum := by
  have hq : AllSteps step Settled {} sampleOps := by decide
  exact ⟨_, rfl, by decide, numDentriesNested_eq hq rfl (by decide)⟩

end MDCache
end Lunule.Cache
