import Lunule.Bluestore.ExtentMap

/-!
# Punching holes and setting extents

What `punch_hole` does to one extent does not depend on the others: `clip` is the piece that it takes out of an extent, `cut`
what it leaves of it. Its loop stops early and treats the first and the last extent of the range on their own, but comes to
the same as clipping and cutting every extent of the map (`punchHole_eq`). What the map has at a logical offset then follows
from what one extent has there.
-/

namespace Lunule.Bluestore
open RangeMap List Extent Function UseTracker Option
variable {β : Type}

namespace Extent
variable (offset length : ℕ) (e : Extent β)

def touched : Bool := e.logical_offset < offset + length ∧ offset < e.logicalEnd

/-- The piece of an extent within a range that overlaps it. -/
def clip : Extent β :=
  { logical_offset := max e.logical_offset offset
    blob_offset := e.blob_offset + (max e.logical_offset offset - e.logical_offset)
    length := min e.logicalEnd (offset + length) - max e.logical_offset offset
    blob := e.blob }

/-- What is left of an extent outside a range. -/
def cut : List (Extent β) :=
  if e.touched offset length then
    (if e.logical_offset < offset then [{ e with length := offset - e.logical_offset }] else []) ++
      if offset + length < e.logicalEnd then
        [⟨offset + length, e.blob_offset + (offset + length - e.logical_offset), e.logicalEnd - (offset + length), e.blob⟩]
      else []
  else [e]

end Extent

namespace ExtentMap

abbrev Disjoint (m : List (Extent β)) : Prop := Sep logical_offset logicalEnd m

abbrev find (m : List (Extent β)) (b : ℕ) : Option (β × ℕ) := lookup logical_offset logicalEnd target m b

section
variable {m : List (Extent β)} {e p : Extent β} {offset length b : ℕ}

theorem find_cons : find (e :: m) b =
    if e.logical_offset ≤ b ∧ b < e.logicalEnd then some (e.target b) else find m b := rfl

private theorem find_singleton : find [e] b = if e.logical_offset ≤ b ∧ b < e.logical_offset + e.length then
      some (e.blob, e.blob_offset + (b - e.logical_offset)) else none := rfl

private theorem touched_iff : e.touched offset length ↔
    e.logical_offset < offset + length ∧ offset < e.logical_offset + e.length := by
  rw [touched, decide_eq_true_iff, logicalEnd]

private theorem find_cut :
    find (e.cut offset length) b = if offset ≤ b ∧ b < offset + length then none else find [e] b := by
  unfold cut
  rw [find_singleton]
  by_cases ht : e.touched offset length
  · have ht' := touched_iff.1 ht
    rw [if_pos ht, find, lookup_append, logicalEnd]
    by_cases hl : e.logical_offset < offset <;> by_cases hr : offset + length < e.logical_offset + e.length
    · rw [if_pos hl, if_pos hr, ← find, ← find, find_singleton, find_singleton]
      dsimp only
      split_ifs <;> simp <;> omega
    · rw [if_pos hl, if_neg hr, ← find, ← find, find_singleton]
      dsimp only
      split_ifs <;> simp <;> omega
    · rw [if_neg hl, if_pos hr, ← find, ← find, find_singleton]
      dsimp only
      split_ifs <;> simp <;> omega
    · rw [if_neg hl, if_neg hr, lookup_nil]
      split_ifs <;> first | rfl | omega
  · have ht' := mt touched_iff.2 ht
    rw [if_neg ht, find_singleton]
    split_ifs <;> first | rfl | omega

theorem find_flatMap_cut :
    find (m.flatMap (·.cut offset length)) b = if offset ≤ b ∧ b < offset + length then none else find m b := by
  induction m with
  | nil => simp
  | cons e m ih =>
    have hone : find (e :: m) b = (find [e] b).or (find m b) := lookup_append (l := [e])
    rw [flatMap_cons, find, lookup_append, ← find, ← find, find_cut, ih, hone]
    split <;> rfl

private theorem find_clip :
    find [e.clip offset length] b = if offset ≤ b ∧ b < offset + length then find [e] b else none := by
  rw [find_singleton, find_singleton]
  unfold clip logicalEnd
  dsimp only
  split_ifs
  · rw [Option.some.injEq, Prod.mk.injEq]
    exact ⟨rfl, by omega⟩
  all_goals first | rfl | omega

theorem find_clips : find ((m.filter (·.touched offset length)).map (·.clip offset length)) b =
    if offset ≤ b ∧ b < offset + length then find m b else none := by
  induction m with
  | nil => simp
  | cons e m ih =>
    have hone : find (e :: m) b = (find [e] b).or (find m b) := lookup_append (l := [e])
    by_cases ht : e.touched offset length
    · have hcons : find (e.clip offset length :: (m.filter (·.touched offset length)).map (·.clip offset length)) b =
          (find [e.clip offset length] b).or (find ((m.filter (·.touched offset length)).map (·.clip offset length)) b) :=
        lookup_append (l := [e.clip offset length])
      rw [filter_cons_of_pos ht, map_cons, hcons, find_clip, ih, hone]
      split <;> rfl
    · have ht' := mt touched_iff.2 ht
      rw [filter_cons_of_neg ht, ih, hone, find_singleton]
      split_ifs <;> first | rfl | omega

private theorem mem_cut (hpos : 0 < e.length) (hp : p ∈ e.cut offset length) :
    e.logical_offset ≤ p.logical_offset ∧ p.logical_offset < p.logicalEnd ∧ p.logicalEnd ≤ e.logicalEnd := by
  unfold cut at hp
  by_cases ht : e.touched offset length
  · have ht' := touched_iff.1 ht
    rw [if_pos ht] at hp
    rcases mem_append.1 hp with hp | hp
    · split at hp
      · obtain rfl := mem_singleton.1 hp
        unfold logicalEnd
        dsimp only
        omega
      · cases hp
    · split at hp
      · obtain rfl := mem_singleton.1 hp
        unfold logicalEnd at *
        dsimp only at *
        omega
      · cases hp
  · rw [if_neg ht] at hp
    obtain rfl := mem_singleton.1 hp
    unfold logicalEnd
    omega

private theorem disjoint_cut (hpos : 0 < e.length) : Disjoint (e.cut offset length) := by
  refine ⟨?_, fun p hp => (mem_cut hpos hp).2.1⟩
  unfold cut
  by_cases ht : e.touched offset length
  · rw [if_pos ht]
    split_ifs
    · simp [logicalEnd]
      omega
    all_goals simp
  · rw [if_neg ht]
    simp

theorem disjoint_flatMap_cut (h : Disjoint m) : Disjoint (m.flatMap (·.cut offset length)) := by
  induction m with
  | nil => exact sep_nil
  | cons e m ih =>
    obtain ⟨hpos, hfirst, hm⟩ := sep_cons.1 h
    have hlen : 0 < e.length := by
      unfold logicalEnd at hpos
      omega
    rw [flatMap_cons, Disjoint, sep_append]
    refine ⟨disjoint_cut hlen, ih hm, fun p hp q hq => ?_⟩
    obtain ⟨e', he', hq'⟩ := mem_flatMap.1 hq
    have hlen' : 0 < e'.length := by
      have := hm.pos e' he'
      unfold logicalEnd at this
      omega
    have h1 := mem_cut hlen hp
    have h2 := mem_cut hlen' hq'
    have h3 := hfirst e' he'
    omega

theorem clips_ordered (offset length : ℕ) (h : Disjoint m) :
    (((m.filter (·.touched offset length)).map (·.clip offset length)).Pairwise
      fun a b => a.logicalEnd ≤ b.logical_offset) ∧
    ∀ p ∈ (m.filter (·.touched offset length)).map (·.clip offset length), offset ≤ p.logical_offset ∧
      p.logicalEnd ≤ offset + length ∧ (0 < length → 0 < p.length) := by
  constructor
  · rw [pairwise_map]
    refine (h.apart.filter _).imp_of_mem fun {a b} ha hb hle => ?_
    unfold clip logicalEnd at *
    dsimp only at *
    omega
  · intro p hp
    obtain ⟨e, he, rfl⟩ := mem_map.1 hp
    have he' := touched_iff.1 (mem_filter.1 he).2
    have hpos := h.pos e (mem_filter.1 he).1
    unfold clip
    unfold logicalEnd at *
    dsimp only
    omega

variable [DecidableEq β] {blobs : β → Blob}

/-! ### The loop -/

def createAll : (β → Blob) → List (Extent β) → Option (List (OldExtent β) × (β → Blob))
  | blobs, [] => some ([], blobs)
  | blobs, e :: es => do
    let (oe, blobs) ← createOld blobs e
    let (old, blobs) ← createAll blobs es
    return (oe :: old, blobs)

omit [DecidableEq β] in
private theorem insert_front (h : ∀ e ∈ m, p.logical_offset < e.logical_offset) : insert m p = p :: m := by
  cases m with
  | nil => rfl
  | cons e m => exact if_pos (h e (by simp))

omit [DecidableEq β] in
private theorem untouched (offset length : ℕ)
    (h : ∀ e ∈ m, offset + length ≤ e.logical_offset ∨ e.logicalEnd ≤ offset) :
    m.filter (·.touched offset length) = [] ∧ m.flatMap (·.cut offset length) = m := by
  have hno : ∀ e ∈ m, ¬e.touched offset length := by
    intro e he ht
    have := touched_iff.1 ht
    have := h e he
    unfold logicalEnd at this
    omega
  refine ⟨filter_eq_nil_iff.2 hno, ?_⟩
  induction m with
  | nil => rfl
  | cons e m ih =>
    rw [flatMap_cons, cut, if_neg (hno e (by simp)), ih (forall_mem_cons.1 h).2
      (forall_mem_cons.1 hno).2]
    rfl

private theorem punchLoop_eq (h : Disjoint m) (hgt : ∀ e ∈ m, offset < e.logicalEnd) : punchLoop offset length m blobs =
      (createAll blobs ((m.filter (·.touched offset length)).map (·.clip offset length))).map fun r =>
        (m.flatMap (·.cut offset length), r.1, r.2) := by
  induction m generalizing blobs with
  | nil => rfl
  | cons p rest ih =>
    obtain ⟨hpos, hfirst, hrest⟩ := sep_cons.1 h
    have hp := hgt p (by simp)
    have hpend : p.logicalEnd = p.logical_offset + p.length := rfl
    have hgt' := (forall_mem_cons.1 hgt).2
    rw [punchLoop]
    dsimp only
    by_cases hbehind : offset + length ≤ p.logical_offset
    · obtain ⟨hfilter, hcut⟩ := untouched offset length (m := p :: rest) fun e he => by
        rcases mem_cons.1 he with rfl | he
        · exact .inl hbehind
        · have := hfirst e he
          exact .inl (by omega)
      rw [if_pos hbehind, hfilter, hcut]
      rfl
    · have ht : p.touched offset length := touched_iff.2 ⟨by omega, by omega⟩
      rw [if_neg hbehind, filter_cons_of_pos ht, map_cons, flatMap_cons, createAll]
      -- past an extent that reaches beyond the range nothing changes
      have hlast : offset + length < p.logicalEnd →
          rest.filter (·.touched offset length) = [] ∧ rest.flatMap (·.cut offset length) = rest := by
        intro hlong
        refine untouched offset length fun e he => .inl ?_
        have := hfirst e he
        omega
      have hinsert : ∀ q : Extent β, q.logical_offset = offset + length → offset + length < p.logicalEnd →
          insert rest q = q :: rest := by
        intro q hq hlong
        refine insert_front fun e he => ?_
        have := hfirst e he
        omega
      have hstep : ∀ (r : OldExtent β × (β → Blob)) (left : List (Extent β)),
          ((punchLoop offset length rest r.2).bind fun s => some (left ++ s.1, r.1 :: s.2.1, s.2.2)) =
            Option.map (fun s => (left ++ rest.flatMap (·.cut offset length), s.1, s.2))
              ((createAll r.2 ((rest.filter (·.touched offset length)).map (·.clip offset length))).bind fun s =>
                some (r.1 :: s.1, s.2)) := by
        intro r left
        rw [ih hrest hgt']
        cases createAll r.2 ((rest.filter (·.touched offset length)).map (·.clip offset length)) <;> rfl
      by_cases hlo : p.logical_offset < offset
      · rw [if_pos hlo]
        by_cases hlong : offset + length < p.logicalEnd
        · obtain ⟨hfilter, hcut⟩ := hlast hlong
          have hclip : p.clip offset length =
              ⟨offset, p.blob_offset + (offset - p.logical_offset), length, p.blob⟩ := by
            unfold clip
            congr 1 <;> omega
          have hcutp : p.cut offset length = [{ p with length := offset - p.logical_offset },
              ⟨offset + length, p.blob_offset + (offset - p.logical_offset) + length,
                p.length - (offset - p.logical_offset) - length, p.blob⟩] := by
            rw [cut, if_pos ht, if_pos hlo, if_pos hlong, singleton_append]
            congr 3 <;> omega
          rw [if_pos hlong, hinsert _ rfl hlong, hclip, hfilter, hcut, hcutp]
          cases createOld blobs ⟨offset, p.blob_offset + (offset - p.logical_offset), length, p.blob⟩ <;> rfl
        · have hclip : p.clip offset length = ⟨offset, p.blob_offset + (offset - p.logical_offset),
              p.length - (offset - p.logical_offset), p.blob⟩ := by
            unfold clip
            congr 1 <;> omega
          have hcutp : p.cut offset length = [{ p with length := offset - p.logical_offset }] := by
            rw [cut, if_pos ht, if_pos hlo, if_neg hlong, append_nil]
          rw [if_neg hlong, if_neg (by omega), hclip, hcutp]
          cases createOld blobs ⟨offset, p.blob_offset + (offset - p.logical_offset),
              p.length - (offset - p.logical_offset), p.blob⟩ with
          | none => rfl
          | some r => exact hstep r [{ p with length := offset - p.logical_offset }]
      · rw [if_neg hlo]
        by_cases hlong : offset + length < p.logicalEnd
        · obtain ⟨hfilter, hcut⟩ := hlast hlong
          have hclip : p.clip offset length = { p with length := p.length - (p.logicalEnd - (offset + length)) } := by
            unfold clip
            congr 1 <;> omega
          have hcutp : p.cut offset length = [⟨offset + length, p.blob_offset + p.length - (p.logicalEnd - (offset + length)),
              p.logicalEnd - (offset + length), p.blob⟩] := by
            rw [cut, if_pos ht, if_neg hlo, if_pos hlong, nil_append]
            congr 2
            omega
          rw [if_neg (by omega), hinsert _ rfl hlong, hclip, hfilter, hcut, hcutp]
          cases createOld blobs { p with length := p.length - (p.logicalEnd - (offset + length)) } <;> rfl
        · have hclip : p.clip offset length = p := by
            unfold clip
            dsimp only [logicalEnd] at *
            congr 1 <;> omega
          have hcutp : p.cut offset length = [] := by
            rw [cut, if_pos ht, if_neg hlo, if_neg hlong, append_nil]
          rw [if_pos (by omega), hclip, hcutp]
          cases createOld blobs p with
          | none => rfl
          | some r => exact hstep r []

/-- `punch_hole` takes the pieces of all extents within the range out of them. -/
theorem punchHole_eq (em : ExtentMap β) (offset length : ℕ) (h : Disjoint em.extent_map) (old : List (OldExtent β)) :
    em.punchHole offset length old =
      (createAll em.blobs ((em.extent_map.filter (·.touched offset length)).map (·.clip offset length))).map fun r =>
        ({ em with extent_map := em.extent_map.flatMap (·.cut offset length), blobs := r.2 }, old ++ r.1) := by
  unfold punchHole seekLextent
  rcases hs : seek logical_offset logicalEnd em.extent_map offset with ⟨before, rest⟩
  obtain ⟨heq, hle, hgt⟩ := seek_spec h hs
  rw [heq] at h ⊢
  obtain ⟨hfilter, hcut⟩ := untouched offset length (m := before.reverse) fun e he =>
    .inr (hle e (mem_reverse.1 he))
  dsimp only
  rw [punchLoop_eq (sep_append.1 h).2.1 hgt, filter_append, hfilter, nil_append, flatMap_append, hcut]
  cases createAll em.blobs ((rest.filter (·.touched offset length)).map (·.clip offset length)) <;> rfl

end

/-! ### What the blobs have in use -/

section
variable [DecidableEq β] {m es : List (Extent β)} {e : Extent β} {offset length i : ℕ} {blobs blobs' : β → Blob} {b : β}

def useOf (blobs : β → Blob) (es : List (Extent β)) (b : β) (i : ℕ) : ℕ :=
  (es.map fun e => if e.blob = b then (blobs b).used_in_blob.bytesIn i e.blob_offset e.length else 0).sum

/-- Every blob is as before, but for the use of some extents, which is taken off. -/
structure Lowered (blobs blobs' : β → Blob) (es : List (Extent β)) (b : β) : Prop where
  logical_length : (blobs' b).logical_length = (blobs b).logical_length
  release_size : (blobs' b).release_size = (blobs b).release_size
  au_size : (blobs' b).used_in_blob.au_size = (blobs b).used_in_blob.au_size
  unitOf : ∀ x, (blobs' b).used_in_blob.unitOf x = (blobs b).used_in_blob.unitOf x
  use : ∀ i, (blobs' b).used_in_blob.usedIn i + useOf blobs es b i = (blobs b).used_in_blob.usedIn i

@[simp] theorem useOf_nil : useOf blobs [] b i = 0 := rfl

@[simp] theorem useOf_cons : useOf blobs (e :: es) b i =
    (if e.blob = b then (blobs b).used_in_blob.bytesIn i e.blob_offset e.length else 0) + useOf blobs es b i := by
  simp [useOf]

private theorem useOf_congr (blobs : β → Blob)
    (h : ∀ x, (blobs' b).used_in_blob.unitOf x = (blobs b).used_in_blob.unitOf x) :
    useOf blobs' es b i = useOf blobs es b i := by
  unfold useOf bytesIn
  simp only [h]

private theorem createOld_spec {oe : OldExtent β} (h : createOld blobs e = some (oe, blobs')) :
    oe.e = e ∧ ∀ b, Lowered blobs blobs' [e] b := by
  obtain ⟨blob, hput, heq⟩ := map_eq_some_iff.1 h
  cases heq
  obtain ⟨⟨t, r⟩, ht, rfl⟩ := map_eq_some_iff.1 hput
  obtain ⟨hau, hunit, huse⟩ := put_spec ht
  refine ⟨rfl, fun b => ?_⟩
  by_cases hb : e.blob = b
  · subst hb
    refine ⟨?_, ?_, ?_, fun x => ?_, fun i => ?_⟩
    all_goals simp only [update_self, useOf_cons]
    · exact hau
    · exact hunit x
    · exact huse i
  · have hsame : update blobs e.blob { blobs e.blob with used_in_blob := t } b = blobs b :=
      update_of_ne (Ne.symm hb) _ _
    refine ⟨?_, ?_, ?_, fun x => ?_, fun i => ?_⟩
    all_goals simp only [hsame, useOf_cons, useOf_nil, if_neg hb, Nat.add_zero]

theorem createAll_spec {old : List (OldExtent β)} (h : createAll blobs es = some (old, blobs')) :
    old.map OldExtent.e = es ∧ ∀ b, Lowered blobs blobs' es b := by
  induction es generalizing blobs old with
  | nil =>
    cases h
    exact ⟨rfl, fun b => ⟨rfl, rfl, rfl, fun _ => rfl, fun _ => rfl⟩⟩
  | cons e es ih =>
    obtain ⟨⟨oe, blobs1⟩, hone, h⟩ := bind_eq_some_iff.1 h
    obtain ⟨⟨old', blobs2⟩, hall, heq⟩ := bind_eq_some_iff.1 h
    cases heq
    obtain ⟨hoe, hlow1⟩ := createOld_spec hone
    obtain ⟨hold, hlow2⟩ := ih hall
    refine ⟨by rw [map_cons, hoe, hold], fun b => ?_⟩
    obtain ⟨hl1, hr1, ha1, hu1, h1⟩ := hlow1 b
    obtain ⟨hl2, hr2, ha2, hu2, h2⟩ := hlow2 b
    refine ⟨hl2.trans hl1, hr2.trans hr1, ha2.trans ha1, fun x => (hu2 x).trans (hu1 x), fun i => ?_⟩
    have h1' := h1 i
    have h2' := h2 i
    rw [useOf_congr blobs hu1] at h2'
    simp only [useOf_cons, useOf_nil] at h1' ⊢
    omega

private theorem createAll_total (hau : ∀ e ∈ es, (blobs e.blob).used_in_blob.au_size ≠ 0)
    (h : ∀ b i, useOf blobs es b i ≤ (blobs b).used_in_blob.usedIn i) : ∃ r, createAll blobs es = some r := by
  induction es generalizing blobs with
  | nil => exact ⟨_, rfl⟩
  | cons e es ih =>
    obtain ⟨⟨t, r⟩, ht⟩ := put_total (hau e (by simp)) fun i => by
      have := h e.blob i
      rw [useOf_cons, if_pos rfl] at this
      exact (Nat.le_add_right _ _).trans this
    obtain ⟨⟨oe, blobs1⟩, hone⟩ : ∃ r, createOld blobs e = some r := by
      unfold createOld Blob.putRef
      rw [ht]
      exact ⟨_, rfl⟩
    obtain ⟨-, hlow⟩ := createOld_spec hone
    have hau' : ∀ a ∈ es, (blobs1 a.blob).used_in_blob.au_size ≠ 0 := fun a ha => by
      rw [(hlow a.blob).au_size]
      exact hau a (mem_cons_of_mem _ ha)
    obtain ⟨⟨old, blobs2⟩, hall⟩ := ih hau' fun b i => by
        have hb := h b i
        have hl := (hlow b).use i
        rw [useOf_congr blobs (hlow b).unitOf]
        simp only [useOf_cons, useOf_nil] at hb hl
        omega
    exact ⟨(oe :: old, blobs2), by simp [createAll, hone, hall]⟩

/-- A blob has at least in use what the extents of the map use of it. -/
structure Tracked (blobs : β → Blob) (m : List (Extent β)) : Prop where
  au_size : ∀ e ∈ m, (blobs e.blob).used_in_blob.au_size ≠ 0
  use : ∀ b i, useOf blobs m b i ≤ (blobs b).used_in_blob.usedIn i

private theorem useOf_clips_le :
    useOf blobs ((m.filter (·.touched offset length)).map (·.clip offset length)) b i ≤ useOf blobs m b i := by
  induction m with
  | nil => exact le_refl _
  | cons e m ih =>
    by_cases ht : e.touched offset length
    · have ht' := touched_iff.1 ht
      rw [filter_cons_of_pos ht, map_cons, useOf_cons, useOf_cons]
      refine Nat.add_le_add ?_ ih
      show (if e.blob = b then _ else 0) ≤ _
      split
      · refine bytesIn_le ?_
        unfold clip logicalEnd
        dsimp only
        omega
      · exact le_refl 0
    · rw [filter_cons_of_neg ht, useOf_cons]
      exact ih.trans (Nat.le_add_left _ _)

theorem Tracked.createAll (h : Tracked blobs m) (offset length : ℕ) : ∃ r, ExtentMap.createAll blobs
    ((m.filter (·.touched offset length)).map (·.clip offset length)) = some r := by
  refine createAll_total (fun p hp => ?_) fun b i => useOf_clips_le.trans (h.use b i)
  obtain ⟨e, he, rfl⟩ := mem_map.1 hp
  exact h.au_size e (mem_filter.1 he).1

private theorem getRef_spec {blob blob' : Blob} (h : blob.getRef offset length = some blob')
    (hfits : ∀ i, blob.used_in_blob.usedIn i + length < 2 ^ 32) :
    blob'.used_in_blob.au_size ≠ 0 ∧ (∀ i, blob.used_in_blob.usedIn i ≤ blob'.used_in_blob.usedIn i) ∧
      ((∀ x, blob'.used_in_blob.unitOf x = blob.used_in_blob.unitOf x) ∨ ∀ i, blob.used_in_blob.usedIn i = 0) := by
  obtain ⟨-, h⟩ := ite_none_left_eq_some.1 h
  obtain ⟨t', htrack, rfl⟩ := map_eq_some_iff.1 h
  obtain ⟨t, ht, hget⟩ := bind_eq_some_iff.1 htrack
  split at ht
  · cases ht
    obtain ⟨hau, hne, hunit, huse⟩ := get_spec hget hfits
    refine ⟨by rw [hau]; exact hne, fun i => ?_, .inl hunit⟩
    rw [huse i]
    exact Nat.le_add_right _ _
  · rename_i hempty
    have hzero := usedIn_of_empty (Bool.not_eq_true _ ▸ hempty)
    obtain ⟨hau, hne, -, -⟩ := get_spec hget fun i => by
      rw [init_spec ht i, ← hzero i]
      exact hfits i
    refine ⟨by rw [hau]; exact hne, fun i => ?_, .inr hzero⟩
    rw [hzero i]
    exact Nat.zero_le _

theorem Tracked.getRef {blob : Blob} (h : Tracked blobs m) (hm : Disjoint m)
    (hget : (blobs b).getRef offset length = some blob)
    (hfits : ∀ i, (blobs b).used_in_blob.usedIn i + length < 2 ^ 32) : Tracked (update blobs b blob) m := by
  obtain ⟨hau, hmore, hunit⟩ := getRef_spec hget hfits
  refine ⟨fun e he => ?_, fun c i => ?_⟩
  · by_cases hb : e.blob = b
    · rw [hb, update_self]
      exact hau
    · rw [update_of_ne hb]
      exact h.au_size e he
  · by_cases hc : c = b
    · subst hc
      rcases hunit with hunit | hzero
      · rw [useOf_congr blobs (by rw [update_self]; exact hunit), update_self]
        exact (h.use c i).trans (hmore i)
      -- no extent uses a blob that has nothing in use
      have hno : ∀ e ∈ m, e.blob ≠ c := by
        rintro e he rfl
        have hlen : 0 < e.length := by
          have := hm.pos e he
          unfold logicalEnd at this
          omega
        obtain ⟨j, hj⟩ : ∃ j, j = (blobs e.blob).used_in_blob.unitOf e.blob_offset := ⟨_, rfl⟩
        have huse := h.use e.blob j
        have hpos := bytesIn_pos (blobs e.blob).used_in_blob e.blob_offset hlen
        have hle : (blobs e.blob).used_in_blob.bytesIn j e.blob_offset e.length ≤ useOf blobs m e.blob j := by
          refine single_le_sum (fun _ _ => Nat.zero_le _) _ (mem_map.2 ⟨e, he, if_pos rfl⟩)
        rw [hzero j] at huse
        rw [← hj] at hpos
        omega
      have hsum : useOf (update blobs c blob) m c i = 0 := by
        refine sum_eq_zero fun x hx => ?_
        obtain ⟨e, he, rfl⟩ := mem_map.1 hx
        exact if_neg (hno e he)
      rw [hsum]
      exact Nat.zero_le _
    · have hsame : update blobs b blob c = blobs c := update_of_ne hc _ _
      rw [useOf_congr blobs (by rw [hsame]; exact fun _ => rfl), hsame]
      exact h.use c i

end
end ExtentMap
end Lunule.Bluestore
