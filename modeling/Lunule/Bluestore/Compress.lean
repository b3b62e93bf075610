import Lunule.Bluestore.PunchHole

/-!
# Setting and merging extents

`set_lextent` inserts its extent where the hole was punched. `compress_extent_map` walks along the map and lets each extent
take in the next one while it continues it in the same blob and the same shard. Of the shards, those before the walk's next
one start at or before the extent it is at, so an extent that is taken in starts before every shard that starts after the
extent that takes it in.
-/

namespace Lunule.Bluestore
open RangeMap List Option

namespace ExtentMap
variable {β : Type} {m rest : List (Extent β)} {e p n le : Extent β} {offset length b : ℕ} {shards : List ℕ}

/-! ### Inserting an extent -/

private theorem apart_of_free (h : Disjoint m)
    (hfree : ∀ b, le.logical_offset ≤ b → b < le.logicalEnd → find m b = none)
    (hlen : 0 < le.length) (he : e ∈ m) : e.logicalEnd ≤ le.logical_offset ∨ le.logicalEnd ≤ e.logical_offset := by
  by_contra hno
  have hpos := h.pos e he
  have hend : le.logicalEnd = le.logical_offset + le.length := rfl
  refine lookup_eq_none.1 (hfree (max e.logical_offset le.logical_offset) ?_ ?_) e he ?_ <;> omega

private theorem insert_spec (le : Extent β) (h : Disjoint m) (hlen : 0 < le.length)
    (hfree : ∀ b, le.logical_offset ≤ b → b < le.logicalEnd → find m b = none) :
    Disjoint (insert m le) ∧ (∀ e, e ∈ insert m le ↔ e = le ∨ e ∈ m) ∧
      ∀ b, find (insert m le) b =
        if le.logical_offset ≤ b ∧ b < le.logicalEnd then some (le.target b) else find m b := by
  have hend : le.logicalEnd = le.logical_offset + le.length := rfl
  induction m with
  | nil =>
    refine ⟨sep_cons.2 ⟨by omega, by simp, sep_nil⟩, fun e => by simp [insert], fun b => rfl⟩
  | cons p m ih =>
    obtain ⟨hpos, hfirst, hm⟩ := sep_cons.1 h
    have hp := apart_of_free h hfree hlen (e := p) (by simp)
    have hfree' : ∀ b, le.logical_offset ≤ b → b < le.logicalEnd → find m b = none := by
      intro b hlo hhi
      refine lookup_eq_none.2 fun e he => lookup_eq_none.1 (hfree b hlo hhi) e (mem_cons_of_mem _ he)
    rw [insert]
    split
    · rename_i hlt
      refine ⟨sep_cons.2 ⟨by omega, fun e he => ?_, h⟩, fun e => by simp, fun b => rfl⟩
      rcases mem_cons.1 he with rfl | he
      · omega
      · have := hfirst e he
        omega
    rw [if_neg (by omega)]
    obtain ⟨hsep, hmem, hfind⟩ := ih hm hfree'
    refine ⟨sep_cons.2 ⟨hpos, fun e he => ?_, hsep⟩, fun e => ?_, fun b => ?_⟩
    · rcases (hmem e).1 he with rfl | he
      · omega
      · exact hfirst e he
    · rw [mem_cons, hmem, mem_cons]
      tauto
    · rw [find_cons, hfind, find_cons]
      split_ifs <;> first | rfl | omega

/-! ### Shards -/

private theorem seekShardLoop_total {fuel left right : ℕ} (hlr : left < right) (hlen : right ≤ shards.length)
    (hfuel : right - left < fuel) (hleft : shards.getD left 0 ≤ offset)
    (hright : right = shards.length ∨ offset < shards.getD right 0) :
    ∃ s, seekShardLoop shards offset fuel left right = some s := by
  induction fuel generalizing left right with
  | zero => omega
  | succ fuel ih =>
    obtain ⟨mid, hmid⟩ : ∃ mid, left + (right - left) / 2 = mid := ⟨_, rfl⟩
    rw [seekShardLoop, if_pos hlr]
    dsimp only
    rw [hmid]
    split
    · rename_i hle
      split
      · exact ⟨mid, rfl⟩
      have hne : mid + 1 ≠ right := by
        rintro rfl
        omega
      exact ih (by omega) hlen (by omega) (by omega) hright
    · rename_i hgt
      have hne : left ≠ mid := by
        rintro heq
        rw [heq] at hleft
        omega
      exact ih (by omega) (by omega) (by omega) hleft (.inr (by omega))

private theorem spansShard_total (h : ∀ s ∈ shards.head?, s ≤ offset) :
    ∃ spans, spansShard shards offset length = some spans := by
  unfold spansShard
  cases shards with
  | nil => exact ⟨false, rfl⟩
  | cons s shards =>
    obtain ⟨i, hi⟩ : ∃ i, seekShard (s :: shards) offset = some i :=
      seekShardLoop_total (by simp) (le_refl _) (by omega) (h s rfl) (.inl rfl)
    rw [if_neg (by simp), hi]
    exact ⟨_, rfl⟩

/-! ### Merging extents -/

/-- No extent of `m'` has come to include an extent of `m` that starts in a later shard. -/
def WithinShards (shards : List ℕ) (m m' : List (Extent β)) : Prop :=
  ∀ r ∈ m', ∀ e ∈ m, r.logical_offset ≤ e.logical_offset → e.logical_offset < r.logicalEnd →
    ∀ s ∈ shards, r.logical_offset < s → e.logical_offset < s

private theorem withinShards_refl (h : Disjoint m) : WithinShards shards m m := by
  intro r hr e he hlo hhi s _ hs
  have heq : r = e := h.eq_of_mem hr he ⟨hlo, hhi⟩ ⟨le_refl _, h.pos e he⟩
  rwa [← heq]

/-- `m'` is `m` with `k` extents taken in by the one before them, none of them in a later shard. -/
structure Merged (shards : List ℕ) (m m' : List (Extent β)) (k : ℕ) : Prop where
  disjoint : Disjoint m'
  find_eq : ∀ b, find m' b = find m b
  length_add : m'.length + k = m.length
  within : WithinShards shards m m'

namespace Merged
variable {before tail m' : List (Extent β)} {first q : Extent β} {k stop : ℕ}

private theorem refl (h : Disjoint m) : Merged shards m m 0 := ⟨h, fun _ => rfl, rfl, withinShards_refl h⟩

private theorem start_le (h : Merged shards m (first :: tail) k) {r : Extent β} (hr : r ∈ first :: tail) :
    first.logical_offset ≤ r.logical_offset := by
  rcases mem_cons.1 hr with rfl | hr
  · exact le_refl _
  · exact (h.disjoint.start_lt hr).le

private theorem append (h : Merged shards m m' k) (hd : Disjoint (before ++ m))
    (hlow : ∀ q ∈ before, ∀ r ∈ m', q.logicalEnd ≤ r.logical_offset) :
    Merged shards (before ++ m) (before ++ m') k where
  disjoint := sep_append.2 ⟨(sep_append.1 hd).1, h.disjoint, hlow⟩
  find_eq b := by
    have hfind := h.find_eq b
    unfold find at hfind ⊢
    rw [lookup_append, lookup_append, hfind]
  length_add := by
    have := h.length_add
    simp only [length_append]
    omega
  within := by
    intro r hr e he hre her s hs hrs
    rcases mem_append.1 hr with hr | hr
    · have heq : r = e := hd.eq_of_mem (mem_append_left _ hr) he ⟨hre, her⟩ ⟨le_refl _, hd.pos e he⟩
      rwa [← heq]
    rcases mem_append.1 he with he | he
    · have hpos := hd.pos e (mem_append_left _ he)
      have hend := hlow e he r hr
      omega
    · exact h.within r hr e he hre her s hs hrs

private theorem join [DecidableEq β] (h : Merged shards (q :: rest) (first :: tail) k) (hd : Disjoint (p :: n :: rest))
    (hm : mergeable p n stop = true) (hq : { p with length := p.length + n.length } = q)
    (hlo : first.logical_offset = q.logical_offset) (hend : q.logicalEnd ≤ first.logicalEnd)
    (hshards : ∀ s ∈ shards, s ≤ p.logical_offset ∨ stop ≤ s) :
    Merged shards (p :: n :: rest) (first :: tail) (k + 1) := by
  obtain ⟨htouch, hblob, hcont, hbefore⟩ := of_decide_eq_true hm
  have hpend : p.logicalEnd = p.logical_offset + p.length := rfl
  have hnend : n.logicalEnd = n.logical_offset + n.length := rfl
  have hqlo : q.logical_offset = p.logical_offset := by rw [← hq]
  have hqend : q.logicalEnd = p.logical_offset + (p.length + n.length) := by rw [← hq]; rfl
  refine ⟨h.disjoint, fun b => ?_, ?_, ?_⟩
  · rw [h.find_eq, find_cons, find_cons, find_cons, hqend, hqlo, ← hq]
    unfold Extent.target
    dsimp only
    split_ifs <;> first | rfl | omega | skip
    rw [some.injEq, Prod.mk.injEq]
    exact ⟨hblob, by omega⟩
  · have hlen := h.length_add
    simp only [length_cons] at hlen ⊢
    omega
  · -- what is taken in starts before the next shard
    intro r hr e he hre her s hs hrs
    have hone : p.logical_offset ≤ e.logical_offset → e.logical_offset ≤ n.logical_offset →
        e.logical_offset < n.logicalEnd → e.logical_offset < s := by
      intro hpe hen hlt
      have hrfirst : first = r :=
        h.disjoint.eq_of_mem (k := e.logical_offset) (by simp) hr ⟨by omega, by omega⟩ ⟨hre, her⟩
      subst hrfirst
      have := hshards s hs
      omega
    have hnpos := hd.pos n (by simp)
    rcases mem_cons.1 he with rfl | he
    · exact hone (le_refl _) (by omega) (by omega)
    · rcases mem_cons.1 he with rfl | he
      · exact hone (by omega) (le_refl _) (by omega)
      · exact h.within r hr e (mem_cons_of_mem _ he) hre her s hs hrs

end Merged

variable [DecidableEq β] {em em' : ExtentMap β}

private theorem compressLoop_spec (stop : ℕ) {pshard passed : List ℕ} (inner : Bool) (h : Disjoint (p :: rest))
    (hmax : ∀ e ∈ rest, e.logical_offset < OBJECT_MAX_SIZE) (hshards : (passed ++ pshard).Pairwise (· < ·))
    (hpassed : ∀ s ∈ passed, s ≤ p.logical_offset) :
    ∃ first tail k, compressLoop stop rest p pshard inner = some (first :: tail, k) ∧
      first.logical_offset = p.logical_offset ∧ p.logicalEnd ≤ first.logicalEnd ∧
      Merged (passed ++ pshard) (p :: rest) (first :: tail) k := by
  induction rest generalizing p pshard passed inner with
  | nil => exact ⟨p, [], 0, rfl, rfl, le_refl _, .refl h⟩
  | cons n rest ih =>
    obtain ⟨hpos, hfirst, hrest⟩ := sep_cons.1 h
    have hpn := hfirst n (by simp)
    have hmax' := (forall_mem_cons.1 hmax).2
    rw [compressLoop.eq_def]
    dsimp only
    split
    · exact ⟨p, n :: rest, 0, rfl, rfl, le_refl _, .refl h⟩
    by_cases hm : mergeable p n (shardEnd pshard)
    · rw [if_pos hm]
      obtain ⟨hnpos, hnfirst, hrest'⟩ := sep_cons.1 hrest
      obtain ⟨q, hq⟩ : ∃ q : Extent β, { p with length := p.length + n.length } = q := ⟨_, rfl⟩
      have hqlo : q.logical_offset = p.logical_offset := by rw [← hq]
      have hqend : q.logicalEnd = n.logicalEnd := by
        have htouch := (of_decide_eq_true hm).1
        rw [← hq]
        unfold Extent.logicalEnd at *
        dsimp only
        omega
      have hqsep : Disjoint (q :: rest) := sep_cons.2 ⟨by omega, by rw [hqend]; exact hnfirst, hrest'⟩
      obtain ⟨first, tail, k, hrun, hlo, hend, hmerged⟩ := ih true hqsep hmax' hshards (by rw [hqlo]; exact hpassed)
      rw [hq, hrun]
      refine ⟨first, tail, k + 1, rfl, by omega, by omega, hmerged.join h hm hq hlo hend fun s hs => ?_⟩
      refine (mem_append.1 hs).imp (hpassed s) fun hs => ?_
      cases pshard with
      | nil => cases hs
      | cons s0 pshard =>
        rcases mem_cons.1 hs with rfl | hs
        · exact le_refl _
        · exact ((pairwise_cons.1 (pairwise_append.1 hshards).2.1).1 s hs).le
    · rw [if_neg hm]
      -- the walk goes on with `n`, maybe in the next shard
      have hgo : ∀ pshard' passed', passed' ++ pshard' = passed ++ pshard → (∀ s ∈ passed', s ≤ n.logical_offset) →
          ∃ first tail k, (compressLoop stop rest n pshard' false).map (fun r => (p :: r.1, r.2)) = some (first :: tail, k) ∧
            first.logical_offset = p.logical_offset ∧ p.logicalEnd ≤ first.logicalEnd ∧
            Merged (passed ++ pshard) (p :: n :: rest) (first :: tail) k := by
        intro pshard' passed' heq hpast
        obtain ⟨first, tail, k, hrun, hlo, -, hmerged⟩ := ih false hrest hmax' (heq ▸ hshards) hpast
        rw [hrun, ← heq]
        refine ⟨p, first :: tail, k, rfl, rfl, le_refl _, Merged.append hmerged h (fun q hq r hr => ?_ : ∀ q ∈ [p], _)⟩
        have hlater := hmerged.start_le hr
        rw [mem_singleton.1 hq]
        omega
      split
      · rename_i hpast
        cases pshard with
        | nil =>
          have := hmax n (by simp)
          exact absurd hpast (not_le.2 this)
        | cons s pshard =>
          refine hgo pshard (passed ++ [s]) (by simp) (forall_mem_append.2 ⟨fun s' hs' => ?_, forall_mem_singleton.2 hpast⟩)
          have := hpassed s' hs'
          omega
      · exact hgo pshard passed rfl fun s hs => by
          have := hpassed s hs
          omega

omit [DecidableEq β] in
private theorem seekLeft_spec (offset : ℕ) (h : Disjoint m) (hnil : m ≠ []) :
    ∃ before p rest, seekLeft m offset = (before, p :: rest) ∧ m = before.reverse ++ p :: rest := by
  unfold seekLeft seekLextent
  rcases hs : seek Extent.logical_offset Extent.logicalEnd m offset with ⟨before, rest⟩
  obtain ⟨heq, -, -⟩ := seek_spec h hs
  cases before with
  | cons q before => exact ⟨before, q, rest, rfl, by rw [heq, reverse_cons_append]⟩
  | nil =>
    cases rest with
    | nil => exact absurd heq hnil
    | cons p rest => exact ⟨[], p, rest, rfl, heq⟩

private theorem compressExtentMap_spec (em : ExtentMap β) (h : Disjoint em.extent_map)
    (hmax : ∀ e ∈ em.extent_map, e.logicalEnd ≤ OBJECT_MAX_SIZE) :
    ∃ m k, em.compressExtentMap offset length = some ({ em with extent_map := m }, k) ∧
      Merged em.shards em.extent_map m k := by
  unfold compressExtentMap
  by_cases hnil : em.extent_map = []
  · rw [if_pos hnil]
    exact ⟨em.extent_map, 0, rfl, .refl h⟩
  rw [if_neg hnil]
  obtain ⟨before, p, rest, hfound, hmap⟩ := seekLeft_spec offset h hnil
  rw [hfound]
  dsimp only
  have hsep := h
  rw [hmap] at hsep hmax
  obtain ⟨-, hpr, hcross⟩ := sep_append.1 hsep
  have hpassed : ∀ s ∈ em.shards.takeWhile (· ≤ p.logical_offset), s ≤ p.logical_offset := fun s hs' => by
    simpa using mem_takeWhile_imp hs'
  have hsplit : em.shards.takeWhile (· ≤ p.logical_offset) ++ em.shards.dropWhile (· ≤ p.logical_offset) = em.shards :=
    takeWhile_append_dropWhile
  have hlow : ∀ e ∈ rest, e.logical_offset < OBJECT_MAX_SIZE := fun e he =>
    (hpr.pos e (by simp [he])).trans_le (hmax e (by simp [he]))
  obtain ⟨first, tail, k, hrun, hlo, -, hmerged⟩ := compressLoop_spec (offset + length) false
    hpr hlow (by rw [hsplit]; exact em.shards_sorted) hpassed
  rw [hsplit] at hmerged
  refine ⟨before.reverse ++ first :: tail, k, by rw [hrun]; rfl, ?_⟩
  rw [hmap]
  refine hmerged.append hsep fun q hq r hr => (hcross q hq p (by simp)).trans ?_
  rw [← hlo]
  exact hmerged.start_le hr

/-- What `punch_hole` leaves and takes out. -/
structure Punched (em em' : ExtentMap β) (offset length : ℕ) (pieces : List (Extent β)) : Prop where
  disjoint : Disjoint em'.extent_map
  outside : ∀ b, find em'.extent_map b = if offset ≤ b ∧ b < offset + length then none else find em.extent_map b
  pieces_find : ∀ b, find pieces b = if offset ≤ b ∧ b < offset + length then find em.extent_map b else none
  pieces_ordered : pieces.Pairwise fun a b => a.logicalEnd ≤ b.logical_offset
  pieces_pos : 0 < length → ∀ p ∈ pieces, 0 < p.length
  use : ∀ b, Lowered em.blobs em'.blobs pieces b

private theorem punchHole_spec (h : Disjoint em.extent_map) {old old' : List (OldExtent β)}
    (hrun : em.punchHole offset length old = some (em', old')) :
    ∃ new, old' = old ++ new ∧ Punched em em' offset length (new.map OldExtent.e) ∧ em'.shards = em.shards := by
  rw [punchHole_eq em offset length h] at hrun
  obtain ⟨⟨new, blobs⟩, hall, heq⟩ := map_eq_some_iff.1 hrun
  cases heq
  obtain ⟨hnew, hlow⟩ := createAll_spec hall
  obtain ⟨hord, hin⟩ := clips_ordered offset length h
  rw [← hnew] at hord hin hlow
  refine ⟨new, rfl, ⟨disjoint_flatMap_cut h, fun b => find_flatMap_cut, fun b => ?_, hord, fun hlen p hp => ?_, hlow⟩, rfl⟩
  · rw [hnew]
    exact find_clips
  · exact (hin p hp).2.2 hlen

omit [DecidableEq β] in
private theorem addLextent_spec (hrun : em.addLextent le = some em') :
    em'.extent_map = insert em.extent_map le ∧ em'.blobs = em.blobs := by
  obtain ⟨spans, -, rfl⟩ := map_eq_some_iff.1 hrun
  split <;> exact ⟨rfl, rfl⟩

variable {logical_offset blob_offset : ℕ}

private theorem setLextent_spec {blob : β} {old old' : Option (List (OldExtent β))}
    (h : Disjoint em.extent_map) (hlen : 0 < length)
    (hfree : old = none → ∀ b, logical_offset ≤ b → b < logical_offset + length → find em.extent_map b = none)
    (hrun : em.setLextent logical_offset blob_offset length blob old = some (em', old')) :
    Disjoint em'.extent_map ∧ ⟨logical_offset, blob_offset, length, blob⟩ ∈ em'.extent_map ∧
      ∀ b, find em'.extent_map b =
        if logical_offset ≤ b ∧ b < logical_offset + length then some (blob, blob_offset + (b - logical_offset))
        else find em.extent_map b := by
  obtain ⟨-, hrun⟩ := ite_none_left_eq_some.1 hrun
  obtain ⟨blob', -, hrun⟩ := bind_eq_some_iff.1 hrun
  -- the map before the extent is inserted
  obtain ⟨em1, hadd, hsep, hfind⟩ : ∃ em1 : ExtentMap β,
      em1.addLextent ⟨logical_offset, blob_offset, length, blob⟩ = some em' ∧ Disjoint em1.extent_map ∧
      ∀ b, find em1.extent_map b =
        if logical_offset ≤ b ∧ b < logical_offset + length then none else find em.extent_map b := by
    cases old with
    | none =>
      obtain ⟨em1, hadd, heq⟩ := map_eq_some_iff.1 hrun
      cases heq
      refine ⟨_, hadd, h, fun b => ?_⟩
      split
      · rename_i hb
        exact hfree rfl b hb.1 hb.2
      · rfl
    | some old =>
      obtain ⟨⟨em1, old1⟩, hpunch, hrun⟩ := bind_eq_some_iff.1 hrun
      obtain ⟨em2, hadd, heq⟩ := map_eq_some_iff.1 hrun
      cases heq
      have h' : Disjoint ({ em with blobs := Function.update em.blobs blob blob' } : ExtentMap β).extent_map := h
      obtain ⟨new, -, hp, -⟩ := punchHole_spec h' hpunch
      exact ⟨em1, hadd, hp.disjoint, hp.outside⟩
  obtain ⟨hmap, -⟩ := addLextent_spec hadd
  obtain ⟨hsep', hmem, hfind'⟩ := insert_spec ⟨logical_offset, blob_offset, length, blob⟩ hsep hlen
    fun b hlo hhi => by
      rw [hfind b, if_pos ⟨hlo, hhi⟩]
  rw [hmap]
  refine ⟨hsep', (hmem _).2 (.inl rfl), fun b => ?_⟩
  rw [hfind' b, hfind b]
  show (if logical_offset ≤ b ∧ b < logical_offset + length then _ else _) = _
  split_ifs <;> rfl

private theorem setLextent_total {em : ExtentMap β} {blob : β} {blob' : Blob}
    (old : Option (List (OldExtent β))) (h : Disjoint em.extent_map) (ht : Tracked em.blobs em.extent_map)
    (hget : (em.blobs blob).getRef blob_offset length = some blob')
    (hfits : ∀ i, (em.blobs blob).used_in_blob.usedIn i + length < 2 ^ 32)
    (hshards : ∀ s ∈ em.shards.head?, s ≤ logical_offset) :
    ∃ r, em.setLextent logical_offset blob_offset length blob old = some r := by
  have hlen : (em.blobs blob).logical_length ≠ 0 := by
    intro hzero
    rw [Blob.getRef, if_pos hzero] at hget
    cases hget
  have hadd : ∀ em1 : ExtentMap β, em1.shards = em.shards →
      ∃ em2, em1.addLextent ⟨logical_offset, blob_offset, length, blob⟩ = some em2 := by
    intro em1 heq
    obtain ⟨spans, hspans⟩ : ∃ spans, spansShard em1.shards logical_offset length = some spans :=
      spansShard_total (by rw [heq]; exact hshards)
    unfold addLextent
    dsimp only
    rw [hspans]
    exact ⟨_, rfl⟩
  unfold setLextent
  rw [if_neg hlen, hget]
  cases old with
  | none =>
    obtain ⟨em2, h2⟩ := hadd { em with blobs := Function.update em.blobs blob blob' } rfl
    exact ⟨(em2, none), by simp [h2]⟩
  | some old =>
    have ht' := ht.getRef h hget hfits
    obtain ⟨r, hall⟩ := ht'.createAll logical_offset length
    have hpunch := punchHole_eq { em with blobs := Function.update em.blobs blob blob' } logical_offset length h old
    rw [hall] at hpunch
    obtain ⟨em2, h2⟩ := hadd
      { em with extent_map := em.extent_map.flatMap (·.cut logical_offset length), blobs := r.2 } rfl
    exact ⟨(em2, some (old ++ r.1)), by simp [hpunch, h2]⟩

/-- Edits of an extent map with disjoint extents that are not empty change the range they are for and nothing else. -/
theorem edits_exact (em : ExtentMap β) (h : Disjoint em.extent_map)
    (hmax : ∀ e ∈ em.extent_map, e.logicalEnd ≤ OBJECT_MAX_SIZE) :
    (∀ offset length old em' old', em.punchHole offset length old = some (em', old') →
      ∃ new, old' = old ++ new ∧ Punched em em' offset length (new.map OldExtent.e)) ∧
    (Tracked em.blobs em.extent_map → ∀ offset length old, ∃ r, em.punchHole offset length old = some r) ∧
    (∀ lo bo length blob old em' old', 0 < length →
      (old = none → ∀ b, lo ≤ b → b < lo + length → find em.extent_map b = none) →
      em.setLextent lo bo length blob old = some (em', old') →
      Disjoint em'.extent_map ∧ ⟨lo, bo, length, blob⟩ ∈ em'.extent_map ∧
        ∀ b, find em'.extent_map b =
          if lo ≤ b ∧ b < lo + length then some (blob, bo + (b - lo)) else find em.extent_map b) ∧
    (Tracked em.blobs em.extent_map → ∀ lo bo length blob old blob', (em.blobs blob).getRef bo length = some blob' →
      (∀ i, (em.blobs blob).used_in_blob.usedIn i + length < 2 ^ 32) → (∀ s ∈ em.shards.head?, s ≤ lo) →
      ∃ r, em.setLextent lo bo length blob old = some r) ∧
    ∀ offset length, ∃ m k, em.compressExtentMap offset length = some ({ em with extent_map := m }, k) ∧ Disjoint m ∧
      (∀ b, find m b = find em.extent_map b) ∧ m.length + k = em.extent_map.length ∧
      WithinShards em.shards em.extent_map m := by
  refine ⟨?_, ?_, ?_, ?_, ?_⟩
  · intro offset length old em' old' hrun
    obtain ⟨new, hold, hp, -⟩ := punchHole_spec h hrun
    exact ⟨new, hold, hp⟩
  · intro ht offset length old
    obtain ⟨r, hall⟩ := ht.createAll offset length
    exact ⟨_, by rw [punchHole_eq em offset length h, hall]; rfl⟩
  · intro lo bo length blob old em' old' hlen hfree hrun
    exact setLextent_spec h hlen hfree hrun
  · intro ht lo bo length blob old blob' hget hfits hshards
    exact setLextent_total old h ht hget hfits hshards
  · intro offset length
    obtain ⟨m, k, hrun, hmerged⟩ := compressExtentMap_spec em h hmax
    exact ⟨m, k, hrun, hmerged.disjoint, hmerged.find_eq, hmerged.length_add, hmerged.within⟩

/-- Two extents of one blob, in a shard each. -/
private def twoShards : ExtentMap Unit where
  extent_map := [⟨0, 0, 6, ()⟩, ⟨8, 8, 8, ()⟩]
  blobs := fun _ => ⟨16, 4, ⟨4, .perAu [4, 2, 4, 4]⟩⟩
  shards := [0, 8]
  needs_reshard_begin := 0
  needs_reshard_end := 0
  shards_sorted := by decide

theorem edits_exact_twoShards :
    (∃ em' new, twoShards.punchHole 2 8 [] = some (em', new) ∧ Punched twoShards em' 2 8 (new.map OldExtent.e)) ∧
      ∃ em' old', twoShards.setLextent 4 4 6 () (some []) = some (em', old') ∧
        find em'.extent_map 9 = some ((), 9) ∧ find em'.extent_map 10 = some ((), 10) ∧
          find em'.extent_map 3 = some ((), 3) ∧ find em'.extent_map 16 = none := by
  have h := edits_exact twoShards ⟨by decide, by decide⟩ (by decide)
  obtain ⟨⟨em1, old1⟩, h1⟩ := isSome_iff_exists.1 (show (twoShards.punchHole 2 8 []).isSome by decide +kernel)
  obtain ⟨⟨em2, old2⟩, h2⟩ := isSome_iff_exists.1
    (show (twoShards.setLextent 4 4 6 () (some [])).isSome by decide +kernel)
  refine ⟨?_, em2, old2, h2, ?_⟩
  · obtain ⟨new, hnew, hp⟩ := h.1 2 8 [] em1 old1 h1
    rw [nil_append] at hnew
    exact ⟨em1, new, by rw [h1, hnew], hp⟩
  · obtain ⟨-, -, hfind⟩ := h.2.2.1 4 4 6 () (some []) em2 old2 (by decide) nofun h2
    refine ⟨?_, ?_, ?_, ?_⟩ <;> rw [hfind] <;> decide

end ExtentMap
end Lunule.Bluestore
