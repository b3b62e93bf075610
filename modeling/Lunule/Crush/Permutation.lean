import Lunule.Crush.Bucket
import Lunule.Lib.Exec

/-!
# The permutation of a uniform bucket

`bucket_perm_choose` keeps the permutation of its last input in the working space and extends it on demand. What a call
finds there is the beginning of the permutation of its own input, or a first entry to be repaired (`Cached`), so its choice
depends on the input and the position alone (`permItem`).
-/

namespace Lunule.Crush
open Exec List

/-- The values of an `int`. -/
def IsInt (x : ℤ) : Prop := -2 ^ 31 ≤ x ∧ x < 2 ^ 31

variable (hash : Hash) (bucket : Bucket)

def permAfter (x : ℤ) (n : ℕ) : WorkBucket := permLoop hash bucket x n ⟨x % 2 ^ 32, 0, range bucket.size⟩

def permItem (x : ℤ) (r : ℕ) : Option ℤ :=
  bucket.items[(permAfter hash bucket x (r % bucket.size + 1)).perm.getD (r % bucket.size) 0]?

def permCall (work : WorkBucket) (call : ℤ × ℕ) : Option WorkBucket :=
  (bucketPermChoose hash bucket work call.1 call.2).map Prod.snd

/-- A working space that calls for the bucket leave. -/
structure Cached (work : WorkBucket) : Prop where
  length : work.perm.length = bucket.size
  entries : work.perm_n ≠ 0 → ∃ x, IsInt x ∧ work.perm_x = x % 2 ^ 32 ∧
    (work.perm_n = 0xffff ∧ work.perm.getD 0 0 = hash.hash3 bucket.hash x bucket.id 0 % bucket.size ∨
      ∃ n ≤ bucket.size, work = permAfter hash bucket x n)

/-! ### Rounds -/

variable {hash bucket} {x : ℤ} {i m n : ℕ} {work : WorkBucket}

private theorem permLoop_fields (n : ℕ) (work : WorkBucket) : (permLoop hash bucket x n work).perm_n = work.perm_n + n ∧
    (permLoop hash bucket x n work).perm_x = work.perm_x := by
  induction n generalizing work with
  | zero => exact ⟨rfl, rfl⟩
  | succ n ih =>
    obtain ⟨hn, hx⟩ := ih (permStep hash bucket x work)
    exact ⟨hn.trans (Nat.add_right_comm ..), hx⟩

private theorem permLoop_add (m n : ℕ) (work : WorkBucket) :
    permLoop hash bucket x (m + n) work = permLoop hash bucket x n (permLoop hash bucket x m work) := by
  induction m generalizing work with
  | zero => rw [Nat.zero_add, permLoop]
  | succ m ih => rw [Nat.succ_add, permLoop, ih, permLoop]

private theorem getD_permLoop (hi : i < work.perm_n) (n : ℕ) :
    (permLoop hash bucket x n work).perm.getD i 0 = work.perm.getD i 0 := by
  induction n generalizing work with
  | zero => rfl
  | succ n ih =>
    rw [permLoop, ih (Nat.lt_succ_of_lt hi), permStep]
    dsimp only
    split_ifs <;> simp (disch := omega) [getElem?_set_ne]

private theorem getD_permAfter (hi : i < m) (hm : m ≤ n) :
    (permAfter hash bucket x n).perm.getD i 0 = (permAfter hash bucket x m).perm.getD i 0 := by
  obtain ⟨k, rfl⟩ := Nat.exists_eq_add_of_le hm
  rw [permAfter, permLoop_add]
  exact getD_permLoop (by rw [(permLoop_fields m _).1]; omega) k

private theorem permAfter_perm (hash : Hash) (bucket : Bucket) (x : ℤ) (n : ℕ) :
    (permAfter hash bucket x n).perm ~ range bucket.size :=
  permLoop_perm hash bucket x n length_range

/-- The first round swaps the first entry with the one that the shortcut for position 0 chooses. -/
theorem permAfter_one (hne : bucket.size ≠ 0) {s : ℕ} (hs : hash.hash3 bucket.hash x bucket.id 0 % bucket.size = s) :
    (permAfter hash bucket x 1).perm = ((range bucket.size).set 0 s).set s 0 := by
  have hlt : s < bucket.size := hs ▸ Nat.mod_lt _ (Nat.pos_of_ne_zero hne)
  simp only [permAfter, permLoop, permStep, Nat.zero_add, Nat.sub_zero, Nat.cast_zero, hs]
  split_ifs with h1 h0
  · rw [set_comm _ _ h0, getD_eq_getElem _ _ (by simpa using hlt), getD_eq_getElem _ _ (by simp; omega)]
    simp
  all_goals
    obtain rfl : s = 0 := by omega
    refine ext_getElem (by simp) fun i _ _ => ?_
    simp [getElem_set, eq_comm]

/-! ### Calls -/

private theorem permItem_eq (hash : Hash) (hne : bucket.size ≠ 0) (x : ℤ) (r : ℕ) :
    ∃ item ∈ bucket.items, permItem hash bucket x r = some item := by
  have hperm := permAfter_perm hash bucket x (r % bucket.size + 1)
  refine exists_item (getD_lt (fun s hs => mem_range.1 (hperm.mem_iff.1 hs)) ?_)
  rw [hperm.length_eq, length_range]
  exact Nat.mod_lt _ (Nat.pos_of_ne_zero hne)

private theorem cached_permAfter (hx : IsInt x) (hn : n ≤ bucket.size) :
    Cached hash bucket (permAfter hash bucket x n) :=
  ⟨(permAfter_perm _ _ x n).length_eq.trans length_range, fun _ => ⟨x, hx, (permLoop_fields n _).2, .inr ⟨n, hn, rfl⟩⟩⟩

/-- A call chooses the item of the permutation, whatever is cached. -/
theorem Cached.choose (h : Cached hash bucket work) (hne : bucket.size ≠ 0) (hlt : bucket.size < 0xffff) (hx : IsInt x) (r : ℕ) :
    ∃ work', bucketPermChoose hash bucket work x r = (permItem hash bucket x r).map (·, work') ∧
      Cached hash bucket work' := by
  have hpos := Nat.pos_of_ne_zero hne
  have hpr := Nat.mod_lt r hpos
  obtain ⟨s, hs⟩ : ∃ s, hash.hash3 bucket.hash x bucket.id 0 % bucket.size = s := ⟨_, rfl⟩
  have hfirst := permAfter_one hne hs
  have hextend : ∀ w n, w = permAfter hash bucket x n → n ≤ bucket.size → ∃ work',
      (bucket.items[(permLoop hash bucket x (r % bucket.size + 1 - w.perm_n) w).perm.getD (r % bucket.size) 0]?).map
        (·, permLoop hash bucket x (r % bucket.size + 1 - w.perm_n) w) = (permItem hash bucket x r).map (·, work') ∧
      Cached hash bucket work' := by
    rintro w n rfl hn
    have hloop : permLoop hash bucket x (r % bucket.size + 1 - (permAfter hash bucket x n).perm_n)
        (permAfter hash bucket x n) = permAfter hash bucket x (n + (r % bucket.size + 1 - n)) := by
      rw [permAfter, permAfter, permLoop_add, (permLoop_fields n _).1, Nat.zero_add]
    refine ⟨_, ?_, cached_permAfter (n := n + (r % bucket.size + 1 - n)) hx (by omega)⟩
    rw [hloop, getD_permAfter (Nat.lt_succ_self _) (by omega)]
    rfl
  unfold bucketPermChoose
  dsimp only
  split
  · split
    · rename_i h0
      have hget : (((range bucket.size).set 0 s).set s 0).getD 0 0 = s := by
        by_cases hs0 : s = 0 <;> simp [hs0, hpos]
      refine ⟨⟨x % 2 ^ 32, 0xffff, work.perm.set 0 s⟩, ?_, ⟨(length_set ..).trans h.length, fun _ => ?_⟩⟩
      · rw [permItem, h0, hfirst, hget, hs]
      · exact ⟨x, hx, rfl, .inl ⟨rfl, by simp [h.length, hpos, hs]⟩⟩
    · exact hextend _ 0 rfl (Nat.zero_le _)
  rename_i hsame
  obtain ⟨hpx, hn0⟩ := not_or.1 hsame
  obtain ⟨y, hy, hpy, hcase⟩ := h.entries hn0
  obtain rfl : y = x := by
    unfold IsInt at hx hy
    omega
  rcases hcase with ⟨hmagic, hzero⟩ | ⟨n, hn, rfl⟩
  · rw [if_pos hmagic, hzero, hs]
    refine hextend ⟨work.perm_x, 1, _⟩ 1 ?_ hpos
    rw [← hfirst, hpy]
    rfl
  · rw [if_neg]
    · exact hextend _ n rfl hn
    · rw [permAfter, (permLoop_fields n _).1]
      dsimp only
      omega

private theorem map_permItem (hash : Hash) (bucket : Bucket) (x : ℤ) :
    (range bucket.size).map (permItem hash bucket x) ~ bucket.items.map some := by
  obtain ⟨perm, hperm⟩ : ∃ perm, (permAfter hash bucket x bucket.size).perm = perm := ⟨_, rfl⟩
  have hrange := hperm ▸ permAfter_perm hash bucket x bucket.size
  have hlen := hrange.length_eq.trans length_range
  have hmap : (range bucket.size).map (permItem hash bucket x) = perm.map (bucket.items[·]?) := by
    refine ext_getElem (by simp [hlen]) fun r hr _ => ?_
    replace hr : r < bucket.size := by simpa using hr
    rw [getElem_map, getElem_range, permItem, Nat.mod_eq_of_lt hr, ← getD_permAfter (Nat.lt_succ_self r) hr, hperm]
    simp [hlen, hr]
  have hitems : (range bucket.size).map (bucket.items[·]?) = bucket.items.map some :=
    ext_getElem (by simp [Bucket.size]) fun i _ hi => by simp_all
  rw [hmap, ← hitems]
  exact hrange.map _

/-- After any calls, for whatever inputs and positions, a choice is what a fresh working space gives, and the positions
below the size give a permutation of the items. -/
theorem bucketPermChoose_history (hash : Hash) (bucket : Bucket) (hne : bucket.size ≠ 0) (hlt : bucket.size < 65535)
    (perm : List ℕ) (hlen : perm.length = bucket.size) (calls : List (ℤ × ℕ)) (hcalls : ∀ c ∈ calls, IsInt c.1) :
    ∃ work, exec (permCall hash bucket) ⟨0, 0, perm⟩ calls = some work ∧ ∀ x, IsInt x →
      (∀ r, ∃ item ∈ bucket.items, (bucketPermChoose hash bucket work x r).map Prod.fst = some item ∧
        (bucketPermChoose hash bucket ⟨0, 0, perm⟩ x r).map Prod.fst = some item) ∧
      (range bucket.size).map (fun r => (bucketPermChoose hash bucket work x r).map Prod.fst) ~ bucket.items.map some := by
  have hchoose : ∀ work x r, Cached hash bucket work → IsInt x →
      (bucketPermChoose hash bucket work x r).map Prod.fst = permItem hash bucket x r := by
    intro work x r h hx
    obtain ⟨work', heq, -⟩ := h.choose hne hlt hx r
    rw [heq, Option.map_map]
    exact Option.map_id'
  have hstep : ∀ w c, Cached hash bucket w → IsInt c.1 →
      ∃ w', permCall hash bucket w c = some w' ∧ Cached hash bucket w' := by
    intro w c hw hc
    obtain ⟨work', heq, h'⟩ := hw.choose hne hlt hc c.2
    obtain ⟨item, -, hitem⟩ := permItem_eq hash hne c.1 c.2
    exact ⟨work', by rw [permCall, heq, hitem]; rfl, h'⟩
  have hfresh : Cached hash bucket ⟨0, 0, perm⟩ := ⟨hlen, fun h => absurd rfl h⟩
  obtain ⟨work, hwork, h⟩ := exec_total hstep hfresh (allSteps_of_mem _ hcalls)
  refine ⟨work, hwork, fun x hx => ⟨fun r => ?_, ?_⟩⟩
  · obtain ⟨item, hmem, hitem⟩ := permItem_eq hash hne x r
    exact ⟨item, hmem, by rw [hchoose _ x r h hx, hitem], by rw [hchoose _ x r hfresh hx, hitem]⟩
  · simp only [hchoose _ x _ h hx]
    exact map_permItem hash bucket x

theorem bucketPermChoose_history_three :
    let hash : Hash := ⟨fun _ _ => 0, fun _ _ _ p => (p + 1).toNat, fun _ _ _ _ _ => 0, by simp⟩
    let bucket : Bucket := ⟨-1, 1, 0, [4, 7, 9], .uniform⟩
    ∃ work, exec (permCall hash bucket) ⟨0, 0, [0, 0, 0]⟩ [(5, 0), (-6, 3), (5, 0), (5, 2)] = some work ∧
      (range bucket.size).map (fun r => (bucketPermChoose hash bucket work 5 r).map Prod.fst) ~ [4, 7, 9].map some := by
  intro hash bucket
  obtain ⟨work, hwork, h⟩ := bucketPermChoose_history hash bucket (by decide) (by decide) [0, 0, 0] rfl
    [(5, 0), (-6, 3), (5, 0), (5, 2)] (by simp [IsInt])
  exact ⟨work, hwork, (h 5 (by simp [IsInt])).2⟩

end Lunule.Crush
