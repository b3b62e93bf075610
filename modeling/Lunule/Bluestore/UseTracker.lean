import Lunule.Bluestore.RefMap

/-!
# How much of a blob is in use

`bluestore_blob_use_tracker_t` counts the bytes of a blob that extents refer to, for the whole blob or for each of its
allocation units. `put` takes a range of bytes away again, and tells which units are not used any more and whether the blob
is. `count_unit` splits a range of bytes at the end of a unit; with it one turn of the loop of `put` takes away what the range
has in its first unit, and the loop what it has in every unit (`put_spec`, `put_total`).
-/

namespace Lunule.Bluestore
open List Option

/-- The union of `total_bytes`, for which `num_au` is 0, and `bytes_per_au`. -/
inductive Uses
  | total (bytes : ℕ)
  | perAu (bytes : List ℕ)
deriving DecidableEq

/-- `bluestore_blob_use_tracker_t`; `au_size` is 0 before `init`. -/
structure UseTracker where
  au_size : ℕ := 0
  uses : Uses := .total 0
deriving DecidableEq

namespace UseTracker

def getReferencedBytes (t : UseTracker) : ℕ :=
  match t.uses with
  | .total bytes => bytes
  | .perAu bytes => bytes.foldl (fun total used => wrap32 (total + used)) 0

def isNotEmpty (t : UseTracker) : Bool :=
  match t.uses with
  | .total bytes => bytes ≠ 0
  | .perAu bytes => bytes.any (· ≠ 0)

def init (t : UseTracker) (full_length au_size : ℕ) : Option UseTracker :=
  if (t.au_size = 0 ∨ !t.isNotEmpty) ∧ 0 < au_size ∧ 0 < full_length then
    let num_au := (full_length + au_size - 1) / au_size
    some ⟨au_size, if 1 < num_au then .perAu (replicate num_au 0) else .total 0⟩
  else none

def nextUnit (au_size offset : ℕ) : ℕ :=
  let phase := offset % au_size
  offset + if phase = 0 then au_size else au_size - phase

def inUnit (au_size offset stop : ℕ) : ℕ := min (au_size - offset % au_size) (stop - offset)

/-- The loop of `get`, which makes a turn for each unit, so at most one for each byte. -/
def getLoop (au_size stop : ℕ) : ℕ → ℕ → List ℕ → Option (List ℕ)
  | 0, _, bytes => some bytes
  | n + 1, offset, bytes =>
    if offset < stop then
      let pos := offset / au_size
      match bytes[pos]? with
      | none => none
      | some used =>
        getLoop au_size stop n (nextUnit au_size offset) (bytes.set pos (wrap32 (used + inUnit au_size offset stop)))
    else some bytes

def get (t : UseTracker) (offset length : ℕ) : Option UseTracker :=
  if t.au_size = 0 then none
  else
    match t.uses with
    | .total bytes => some { t with uses := .total (wrap32 (bytes + length)) }
    | .perAu bytes => (getLoop t.au_size (offset + length) length offset bytes).map fun bytes => { t with uses := .perAu bytes }

/-- What the loop of `put` keeps: `bytes_per_au`, `release_units`, `next_offs` and `maybe_empty`. -/
structure PutState where
  bytes : List ℕ
  release_units : List PExtent
  next_offs : ℕ
  maybe_empty : Bool

/-- A unit is not used any more. -/
def releaseUnit (au_size pos : ℕ) (s : PutState) : PutState :=
  let release_units :=
    match s.release_units.getLast? with
    | none => [(pos * au_size, au_size)]
    | some back =>
      if s.next_offs ≠ pos * au_size then s.release_units ++ [(pos * au_size, au_size)]
      else s.release_units.dropLast ++ [(back.1, back.2 + au_size)]
  { s with release_units, next_offs := s.next_offs + au_size }

def putLoop (au_size stop : ℕ) : ℕ → ℕ → PutState → Option PutState
  | 0, _, s => some s
  | n + 1, offset, s =>
    if offset < stop then
      let pos := offset / au_size
      let diff := inUnit au_size offset stop
      match s.bytes[pos]? with
      | none => none
      | some used =>
        if used < diff then none
        else
          let s := { s with bytes := s.bytes.set pos (used - diff) }
          let s := if used - diff = 0 then releaseUnit au_size pos s else { s with maybe_empty := false }
          putLoop au_size stop n (nextUnit au_size offset) s
    else some s

/-- `put`: the tracker, `release_units` and whether the blob is empty. -/
def put (t : UseTracker) (offset length : ℕ) : Option (UseTracker × List PExtent × Bool) :=
  if t.au_size = 0 then none
  else
    let r : Option (UseTracker × List PExtent × Bool) :=
      match t.uses with
      | .total bytes => if bytes < length then none else some ({ t with uses := .total (bytes - length) }, [], true)
      | .perAu bytes =>
        (putLoop t.au_size (offset + length) length offset ⟨bytes, [], 0, true⟩).map fun s =>
          ({ t with uses := .perAu s.bytes }, s.release_units, s.maybe_empty)
    r.map fun (t, release_units, maybe_empty) =>
      let empty := maybe_empty && !t.isNotEmpty
      (t, if empty then [] else release_units, empty)

/-! ### Units -/

def unitOf (t : UseTracker) (b : ℕ) : ℕ :=
  match t.uses with
  | .total _ => 0
  | .perAu _ => b / t.au_size

def usedIn (t : UseTracker) (i : ℕ) : ℕ :=
  match t.uses with
  | .total bytes => if i = 0 then bytes else 0
  | .perAu bytes => bytes.getD i 0

def bytesIn (t : UseTracker) (i offset length : ℕ) : ℕ := (range' offset length).countP fun b => t.unitOf b = i

variable {au_size offset stop : ℕ}

private theorem nextUnit_le (offset : ℕ) (hau : 0 < au_size) : offset < nextUnit au_size offset := by
  have := Nat.mod_lt offset hau
  unfold nextUnit
  dsimp only
  split <;> omega

private theorem nextUnit_eq : nextUnit au_size offset = offset + (au_size - offset % au_size) := by
  unfold nextUnit
  dsimp only
  split
  · rename_i h
    rw [h, Nat.sub_zero]
  · rfl

private theorem div_of_lt_nextUnit (hau : 0 < au_size) {b : ℕ} (hlo : offset ≤ b) (hhi : b < nextUnit au_size offset) :
    b / au_size = offset / au_size := by
  have hdiv := Nat.div_add_mod offset au_size
  rw [nextUnit_eq] at hhi
  rw [Nat.div_eq_iff hau]
  have hcomm : offset / au_size * au_size = au_size * (offset / au_size) := mul_comm _ _
  omega

private theorem count_unit (hau : 0 < au_size) (i : ℕ) (hlt : offset < stop) :
    (range' offset (stop - offset)).countP (fun b => b / au_size = i) =
      (if offset / au_size = i then inUnit au_size offset stop else 0) +
        (range' (nextUnit au_size offset) (stop - nextUnit au_size offset)).countP fun b => b / au_size = i := by
  have hlen : stop - offset = inUnit au_size offset stop + (stop - nextUnit au_size offset) := by
    rw [nextUnit_eq, inUnit]
    omega
  have hsplit : range' offset (stop - offset) = range' offset (inUnit au_size offset stop) ++
      range' (nextUnit au_size offset) (stop - nextUnit au_size offset) := by
    rcases Nat.eq_zero_or_pos (stop - nextUnit au_size offset) with hzero | hpos
    · rw [hlen, hzero, Nat.add_zero, range'_zero, append_nil]
    have hunit : inUnit au_size offset stop = au_size - offset % au_size := by
      rw [nextUnit_eq] at hpos
      unfold inUnit
      omega
    rw [hlen, ← range'_append_1, hunit, nextUnit_eq]
  rw [hsplit, countP_append]
  congr 1
  have hin : ∀ b ∈ range' offset (inUnit au_size offset stop), b / au_size = offset / au_size := by
    intro b hb
    rw [mem_range'_1] at hb
    refine div_of_lt_nextUnit hau hb.1 ?_
    have : inUnit au_size offset stop ≤ au_size - offset % au_size := min_le_left _ _
    omega
  split
  · rename_i heq
    rw [countP_eq_length.2 fun b hb => by simpa [hin b hb] using heq, length_range']
  · rename_i hne
    rw [countP_eq_zero]
    intro b hb
    simpa [hin b hb] using hne

/-! ### `put` -/

private theorem putLoop_succ (au_size n : ℕ) (s : PutState) (hlt : offset < stop) :
    ∃ next : PutState, next.bytes = s.bytes.set (offset / au_size)
        (s.bytes.getD (offset / au_size) 0 - inUnit au_size offset stop) ∧
      putLoop au_size stop (n + 1) offset s =
        if offset / au_size < s.bytes.length ∧ inUnit au_size offset stop ≤ s.bytes.getD (offset / au_size) 0 then
          putLoop au_size stop n (nextUnit au_size offset) next
        else none := by
  rw [putLoop, if_pos hlt]
  dsimp only
  cases hget : s.bytes[offset / au_size]? with
  | none =>
    rw [getElem?_eq_none_iff] at hget
    exact ⟨{ s with bytes := _ }, rfl, by rw [if_neg (by omega)]⟩
  | some used =>
    obtain ⟨hlen, -⟩ := List.getElem?_eq_some_iff.1 hget
    have hused : s.bytes.getD (offset / au_size) 0 = used := by rw [getD_eq_getElem?_getD, hget, getD_some]
    rw [hused]
    dsimp only
    split
    · rename_i hno
      exact ⟨{ s with bytes := _ }, rfl, by rw [if_neg (by omega)]⟩
    · rename_i hok
      have hcond : offset / au_size < s.bytes.length ∧ inUnit au_size offset stop ≤ used := ⟨hlen, by omega⟩
      refine ⟨_, ?_, (if_pos hcond).symm⟩
      split <;> rfl

private theorem getD_set {bytes : List ℕ} {pos v : ℕ} (hlen : pos < bytes.length) (i : ℕ) :
    (bytes.set pos v).getD i 0 = if pos = i then v else bytes.getD i 0 := by
  rw [getD_eq_getElem?_getD, getD_eq_getElem?_getD, getElem?_set]
  split <;> rfl

/-- If the loop of `put` ends, it has taken from each unit what the range has there. -/
theorem putLoop_spec (hau : 0 < au_size) {n : ℕ} {s s' : PutState} (hn : stop - offset ≤ n)
    (h : putLoop au_size stop n offset s = some s') (i : ℕ) :
    s'.bytes.getD i 0 + (range' offset (stop - offset)).countP (fun b => b / au_size = i) = s.bytes.getD i 0 := by
  induction n generalizing offset s with
  | zero =>
    cases h
    rw [Nat.le_zero.1 hn]
    simp
  | succ n ih =>
    by_cases hlt : offset < stop
    · obtain ⟨next, hnext, heq⟩ := putLoop_succ au_size n s hlt
      have hmore := nextUnit_le offset hau
      rw [heq] at h
      obtain ⟨hok, h⟩ := ite_none_right_eq_some.1 h
      have := ih (by omega) h
      rw [hnext, getD_set hok.1] at this
      rw [count_unit hau i hlt]
      split at this
      · rename_i hi
        rw [if_pos hi]
        rw [hi] at hok this
        omega
      · rename_i hi
        rw [if_neg hi]
        omega
    · rw [putLoop, if_neg hlt] at h
      cases h
      rw [Nat.sub_eq_zero_of_le (not_lt.1 hlt)]
      simp

/-- The loop of `put` ends if each unit has what the range takes. -/
theorem putLoop_total (hau : 0 < au_size) (n : ℕ) (s : PutState)
    (h : ∀ i, (range' offset (stop - offset)).countP (fun b => b / au_size = i) ≤ s.bytes.getD i 0) :
    ∃ s', putLoop au_size stop n offset s = some s' := by
  induction n generalizing offset s with
  | zero => exact ⟨s, rfl⟩
  | succ n ih =>
    by_cases hlt : offset < stop
    · obtain ⟨next, hnext, heq⟩ := putLoop_succ au_size n s hlt
      have hmod := Nat.mod_lt offset hau
      have hpos : 0 < inUnit au_size offset stop := by
        unfold inUnit
        omega
      have hhere := h (offset / au_size)
      rw [count_unit hau _ hlt, if_pos rfl] at hhere
      have hlen : offset / au_size < s.bytes.length := by
        by_contra hno
        rw [getD_eq_getElem?_getD, getElem?_eq_none (not_lt.1 hno), getD_none] at hhere
        omega
      rw [heq, if_pos ⟨hlen, by omega⟩]
      refine ih next fun i => ?_
      have := h i
      rw [count_unit hau _ hlt] at this
      rw [hnext, getD_set hlen]
      split
      · rename_i hi
        rw [if_pos hi] at this
        rw [hi]
        omega
      · rename_i hi
        omega
    · exact ⟨s, by rw [putLoop, if_neg hlt]⟩

variable {t t' : UseTracker} {length : ℕ}

private theorem bytesIn_total {bytes : ℕ} (h : t.uses = .total bytes) (i : ℕ) :
    t.bytesIn i offset length = if i = 0 then length else 0 := by
  have hunit : ∀ b, t.unitOf b = 0 := fun b => by simp [unitOf, h]
  unfold bytesIn
  simp only [hunit]
  by_cases hi : i = 0
  · simp [hi]
  · simp [hi, Ne.symm hi]

private theorem bytesIn_perAu {bytes : List ℕ} (h : t.uses = .perAu bytes) (i : ℕ) :
    t.bytesIn i offset length = (range' offset length).countP fun b => b / t.au_size = i := by
  unfold bytesIn unitOf
  rw [h]

theorem put_spec {r : List PExtent × Bool} (h : t.put offset length = some (t', r)) :
    t'.au_size = t.au_size ∧ (∀ b, t'.unitOf b = t.unitOf b) ∧
      ∀ i, t'.usedIn i + t.bytesIn i offset length = t.usedIn i := by
  obtain ⟨hau, h⟩ := ite_none_left_eq_some.1 h
  obtain ⟨⟨t1, units, maybe⟩, hr, heq⟩ := map_eq_some_iff.1 h
  cases heq
  cases huses : t.uses with
  | total bytes =>
    rw [huses] at hr
    obtain ⟨hle, hr⟩ := ite_none_left_eq_some.1 hr
    cases hr
    refine ⟨rfl, fun b => by simp [unitOf, huses], fun i => ?_⟩
    rw [bytesIn_total huses]
    unfold usedIn
    rw [huses]
    dsimp only
    split_ifs <;> omega
  | perAu bytes =>
    rw [huses] at hr
    obtain ⟨s, hs, heq⟩ := map_eq_some_iff.1 hr
    cases heq
    refine ⟨rfl, fun b => by simp [unitOf, huses], fun i => ?_⟩
    have := putLoop_spec (pos_of_ne_zero hau) (by omega) hs i
    rw [Nat.add_sub_cancel_left] at this
    rw [bytesIn_perAu huses]
    unfold usedIn
    rw [huses]
    exact this

theorem put_total (hau : t.au_size ≠ 0) (h : ∀ i, t.bytesIn i offset length ≤ t.usedIn i) :
    ∃ r, t.put offset length = some r := by
  unfold put
  rw [if_neg hau]
  cases huses : t.uses with
  | total bytes =>
    have hle := h 0
    rw [bytesIn_total huses, if_pos rfl] at hle
    unfold usedIn at hle
    rw [huses] at hle
    dsimp only at hle ⊢
    rw [if_neg (by simp at hle; omega)]
    exact ⟨_, rfl⟩
  | perAu bytes =>
    have hfits : ∀ i, (range' offset (offset + length - offset)).countP (fun b => b / t.au_size = i) ≤ bytes.getD i 0 := by
      intro i
      have hle := h i
      rw [bytesIn_perAu huses] at hle
      unfold usedIn at hle
      rw [huses] at hle
      rw [Nat.add_sub_cancel_left]
      exact hle
    obtain ⟨s, hs⟩ := putLoop_total (pos_of_ne_zero hau) length ⟨bytes, [], 0, true⟩ hfits
    dsimp only
    rw [hs]
    exact ⟨_, rfl⟩

theorem bytesIn_le {i d n : ℕ} (h : d + n ≤ length) : t.bytesIn i (offset + d) n ≤ t.bytesIn i offset length := by
  have hsub : (range' (offset + d) n).Sublist (range' offset length) := by
    have hsplit : range' offset length =
        range' offset d ++ (range' (offset + d) n ++ range' (offset + d + n) (length - (d + n))) := by
      rw [range'_append_1, range'_append_1]
      congr 1
      omega
    rw [hsplit]
    exact (sublist_append_left _ _).trans (sublist_append_right _ _)
  exact hsub.countP_le

theorem bytesIn_pos (t : UseTracker) (offset : ℕ) (hlen : 0 < length) : 0 < t.bytesIn (t.unitOf offset) offset length := by
  rw [bytesIn, countP_pos_iff]
  exact ⟨offset, by rw [mem_range'_1]; omega, by simp⟩

private theorem bytesIn_le_length (t : UseTracker) (i offset length : ℕ) : t.bytesIn i offset length ≤ length := by
  have := countP_le_length (p := fun b => decide (t.unitOf b = i)) (l := range' offset length)
  rwa [length_range'] at this

/-! ### `get` -/

/-- If the loop of `get` ends and nothing wraps, it has added to each unit what the range has there. -/
theorem getLoop_spec (hau : 0 < au_size) {n : ℕ} {bytes bytes' : List ℕ} (hn : stop - offset ≤ n)
    (h : getLoop au_size stop n offset bytes = some bytes')
    (hfits : ∀ i, bytes.getD i 0 + (range' offset (stop - offset)).countP (fun b => b / au_size = i) < 2 ^ 32) (i : ℕ) :
    bytes'.getD i 0 = bytes.getD i 0 + (range' offset (stop - offset)).countP (fun b => b / au_size = i) := by
  induction n generalizing offset bytes with
  | zero =>
    cases h
    rw [Nat.le_zero.1 hn]
    simp
  | succ n ih =>
    by_cases hlt : offset < stop
    · rw [getLoop, if_pos hlt] at h
      dsimp only at h
      cases hget : bytes[offset / au_size]? with
      | none =>
        rw [hget] at h
        cases h
      | some used =>
        obtain ⟨hlen, -⟩ := List.getElem?_eq_some_iff.1 hget
        have hused : bytes.getD (offset / au_size) 0 = used := by
          rw [getD_eq_getElem?_getD, hget, getD_some]
        rw [hget] at h
        have hmore := nextUnit_le offset hau
        have hhere : wrap32 (used + inUnit au_size offset stop) = used + inUnit au_size offset stop := by
          refine Nat.mod_eq_of_lt ?_
          have := hfits (offset / au_size)
          rw [count_unit hau _ hlt, if_pos rfl, hused] at this
          omega
        have hset : ∀ j, (bytes.set (offset / au_size) (wrap32 (used + inUnit au_size offset stop))).getD j 0 =
            bytes.getD j 0 + if offset / au_size = j then inUnit au_size offset stop else 0 := by
          intro j
          rw [getD_set hlen, hhere]
          split
          · rename_i hj
            rw [← hj, hused]
          · rfl
        rw [ih (by omega) h fun j => ?_, hset, count_unit hau i hlt, add_assoc]
        have := hfits j
        rw [count_unit hau j hlt] at this
        rw [hset]
        omega
    · rw [getLoop, if_neg hlt] at h
      cases h
      rw [Nat.sub_eq_zero_of_le (not_lt.1 hlt)]
      simp

theorem get_spec (h : t.get offset length = some t') (hfits : ∀ i, t.usedIn i + length < 2 ^ 32) :
    t'.au_size = t.au_size ∧ t.au_size ≠ 0 ∧ (∀ b, t'.unitOf b = t.unitOf b) ∧
      ∀ i, t'.usedIn i = t.usedIn i + t.bytesIn i offset length := by
  obtain ⟨hau, h⟩ := ite_none_left_eq_some.1 h
  cases huses : t.uses with
  | total bytes =>
    rw [huses] at h
    cases h
    refine ⟨rfl, hau, fun b => by simp [unitOf, huses], fun i => ?_⟩
    have hhere := hfits 0
    rw [bytesIn_total huses]
    unfold usedIn at hhere ⊢
    rw [huses] at hhere ⊢
    split_ifs
    · exact Nat.mod_eq_of_lt hhere
    · rfl
  | perAu bytes =>
    rw [huses] at h
    obtain ⟨bytes', hs, heq⟩ := map_eq_some_iff.1 h
    cases heq
    refine ⟨rfl, hau, fun b => by simp [unitOf, huses], fun i => ?_⟩
    have hfits' : ∀ i, bytes.getD i 0 +
        (range' offset (offset + length - offset)).countP (fun b => b / t.au_size = i) < 2 ^ 32 := by
      intro i
      have hhere := hfits i
      have hle := bytesIn_le_length t i offset length
      rw [bytesIn_perAu huses] at hle
      unfold usedIn at hhere
      rw [huses] at hhere
      rw [Nat.add_sub_cancel_left]
      exact lt_of_le_of_lt (Nat.add_le_add_left hle _) hhere
    have := getLoop_spec (pos_of_ne_zero hau) (by omega) hs hfits' i
    rw [Nat.add_sub_cancel_left] at this
    rw [bytesIn_perAu huses]
    unfold usedIn
    rw [huses]
    exact this

theorem usedIn_of_empty (h : t.isNotEmpty = false) (i : ℕ) : t.usedIn i = 0 := by
  unfold isNotEmpty at h
  unfold usedIn
  cases huses : t.uses with
  | total bytes =>
    simp_all
  | perAu bytes =>
    rw [huses] at h
    dsimp only at h ⊢
    rw [getD_eq_getElem?_getD]
    cases hget : bytes[i]? with
    | none => rfl
    | some used =>
      rw [List.any_eq_false] at h
      simpa using h used (mem_of_getElem? hget)

theorem init_spec {full_length : ℕ} (h : t.init full_length au_size = some t') (i : ℕ) : t'.usedIn i = 0 := by
  obtain ⟨-, h⟩ := ite_none_right_eq_some.1 h
  cases h
  refine usedIn_of_empty ?_ i
  unfold isNotEmpty
  split
  · rename_i bytes heq
    split at heq
    · cases heq
    · cases heq
      rfl
  rename_i bytes heq
  split at heq
  · cases heq
    simp
  · cases heq

end UseTracker
end Lunule.Bluestore
