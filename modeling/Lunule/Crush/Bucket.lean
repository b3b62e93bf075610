import Lunule.Crush.Straw2

/-!
# Choosing an item of a bucket

`crush_bucket_choose` with the five bucket algorithms. Each of them returns an item of the bucket
(`crushBucketChoose_spec`). For the permutation of a uniform bucket this needs the invariant of the working space that
all entries in use are indices of the bucket (`WorkBucketOk`). For a tree bucket it needs that the weight of a node is
the sum of its children and that the root has weight (`BucketAlg.Sound`). Items without weight are not chosen in a
list, tree or straw2 bucket that has weight (`choice_has_weight`).

The hash functions are arbitrary functions to 32-bit numbers.
-/

namespace Lunule.Crush
open FirstMax List

/-- `crush_hash32_2`, `crush_hash32_3` and `crush_hash32_4`, by hash type except for the first, which is used with one type. -/
structure Hash where
  hash2 : ℤ → ℤ → ℕ
  hash3 : ℕ → ℤ → ℤ → ℤ → ℕ
  hash4 : ℕ → ℤ → ℤ → ℤ → ℤ → ℕ
  hash4_lt : ∀ t a b c d, hash4 t a b c d < 2 ^ 32

/-- The part of a bucket of the given size that depends on its algorithm. The number of nodes of a tree is a `__u8`: in
the source there are trees of up to 64 items only. -/
inductive BucketAlg (size : ℕ) where
  | uniform
  | list (item_weights sum_weights : List ℕ) (weights_length : item_weights.length = size)
      (sums_length : sum_weights.length = size)
  | tree (depth : ℕ) (node_weights : List ℕ) (nodes_length : node_weights.length = 2 ^ depth)
      (size_le : 2 * size ≤ 2 ^ depth)
  | straw (straws : List ℕ) (straws_length : straws.length = size)
  | straw2 (item_weights : List ℕ) (weight : ℕ) (weights_length : item_weights.length = size)
  | unknown

/-- `crush_bucket`. -/
structure Bucket where
  id : ℤ
  type : ℕ
  hash : ℕ
  items : List ℤ
  alg : BucketAlg items.length

def Bucket.size (b : Bucket) : ℕ := b.items.length

/-- `crush_work_bucket`. -/
structure WorkBucket where
  perm_x : ℤ
  perm_n : ℕ
  perm : List ℕ

/-!
### Uniform buckets
-/

/-- One round of the loop that extends the permutation. -/
def permStep (hash : Hash) (bucket : Bucket) (x : ℤ) (work : WorkBucket) : WorkBucket :=
  let p := work.perm_n
  let perm :=
    if p < bucket.size - 1 then
      let i := hash.hash3 bucket.hash x bucket.id p % (bucket.size - p)
      if i ≠ 0 then
        let t := work.perm.getD (p + i) 0
        (work.perm.set (p + i) (work.perm.getD p 0)).set p t
      else work.perm
    else work.perm
  { work with perm_n := work.perm_n + 1, perm }

/-- The loop that extends the permutation, for the given number of rounds. -/
def permLoop (hash : Hash) (bucket : Bucket) (x : ℤ) : ℕ → WorkBucket → WorkBucket
  | 0, work => work
  | n + 1, work => permLoop hash bucket x n (permStep hash bucket x work)

/-- `bucket_perm_choose`. The number 0xffff in `perm_n` says that only the first entry of the permutation is set. -/
def bucketPermChoose (hash : Hash) (bucket : Bucket) (work : WorkBucket) (x : ℤ) (r : ℕ) : Option (ℤ × WorkBucket) :=
  let pr := r % bucket.size
  let extend (work : WorkBucket) :=
    let work := permLoop hash bucket x (pr + 1 - work.perm_n) work
    (bucket.items[work.perm.getD pr 0]?).map (·, work)
  if work.perm_x ≠ x % 2 ^ 32 ∨ work.perm_n = 0 then
    if pr = 0 then
      let s := hash.hash3 bucket.hash x bucket.id 0 % bucket.size
      (bucket.items[s]?).map (·, ⟨x % 2 ^ 32, 0xffff, work.perm.set 0 s⟩)
    else extend ⟨x % 2 ^ 32, 0, range bucket.size⟩
  else if work.perm_n = 0xffff then
    let s := work.perm.getD 0 0
    extend { work with perm_n := 1, perm := ((range bucket.size).set 0 s).set s 0 }
  else extend work

/-- The working space of a bucket of the given size: what is in use of the permutation are indices. -/
def WorkBucketOk (size : ℕ) (work : WorkBucket) : Prop :=
  work.perm.length = size ∧ (work.perm_n ≠ 0 → work.perm.getD 0 0 < size) ∧
    (work.perm_n ≠ 0 → work.perm_n ≠ 0xffff → ∀ s ∈ work.perm, s < size)

/-!
### Other buckets
-/

/-- The loop of `bucket_list_choose`, before the index `i`. -/
def bucketListLoop (hash : Hash) (bucket : Bucket) (item_weights sum_weights : List ℕ) (x : ℤ) (r : ℕ) : ℕ → Option ℤ
  | 0 => bucket.items[0]?
  | i + 1 =>
    let w := hash.hash4 bucket.hash x (bucket.items.getD i 0) r bucket.id &&& 0xffff
    if (w * sum_weights.getD i 0) >>> 16 < item_weights.getD i 0 then bucket.items[i]?
    else bucketListLoop hash bucket item_weights sum_weights x r i

def bucketListChoose (hash : Hash) (bucket : Bucket) (item_weights sum_weights : List ℕ) (x : ℤ) (r : ℕ) : Option ℤ :=
  bucketListLoop hash bucket item_weights sum_weights x r bucket.size

def heightLoop : ℕ → ℕ → ℕ → ℕ
  | 0, _, h => h
  | fuel + 1, n, h => if n % 2 = 0 then heightLoop fuel (n / 2) (h + 1) else h

/-- The height of a node in a tree bucket: how often its number can be halved. -/
def height (n : ℕ) : ℕ := heightLoop n n 0

def left (n : ℕ) : ℕ := n - 2 ^ (height n - 1)

def right (n : ℕ) : ℕ := n + 2 ^ (height n - 1)

/-- The walk of `bucket_tree_choose` from the node `n` down. -/
def bucketTreeLoop (hash : Hash) (bucket : Bucket) (node_weights : List ℕ) (x : ℤ) (r : ℕ) : ℕ → ℕ → Option ℕ
  | 0, _ => none
  | fuel + 1, n =>
    if n % 2 = 1 then some n
    else
      let t := (hash.hash4 bucket.hash x n r bucket.id * node_weights.getD n 0) >>> 32
      if t < node_weights.getD (left n) 0 then bucketTreeLoop hash bucket node_weights x r fuel (left n)
      else bucketTreeLoop hash bucket node_weights x r fuel (right n)

/-- `bucket_tree_choose`; there is no result where it reads past the items. -/
def bucketTreeChoose (hash : Hash) (bucket : Bucket) (node_weights : List ℕ) (x : ℤ) (r : ℕ) : Option ℤ := do
  let n ← bucketTreeLoop hash bucket node_weights x r node_weights.length (node_weights.length / 2)
  bucket.items[n / 2]?

def bucketStrawChoose (hash : Hash) (bucket : Bucket) (straws : List ℕ) (x : ℤ) (r : ℕ) : Option ℤ :=
  bucket.items[scan (zipWith (fun item straw => (hash.hash3 bucket.hash x item r &&& 0xffff) * straw)
    bucket.items straws) 0 0 0]?

/-- `crush_bucket_choose`, for a bucket that has items. -/
def crushBucketChoose (hash : Hash) (bucket : Bucket) (work : WorkBucket) (x : ℤ) (r : ℕ) (arg : Option ChooseArg)
    (position : ℕ) : Option (ℤ × WorkBucket) :=
  match bucket.alg with
  | .uniform => bucketPermChoose hash bucket work x r
  | .list item_weights sum_weights _ _ => (bucketListChoose hash bucket item_weights sum_weights x r).map (·, work)
  | .tree _ node_weights _ _ => (bucketTreeChoose hash bucket node_weights x r).map (·, work)
  | .straw straws _ => (bucketStrawChoose hash bucket straws x r).map (·, work)
  | .straw2 item_weights weight h =>
    (bucketStraw2Choose (hash.hash3 bucket.hash) ⟨bucket.items, item_weights, weight, h⟩ x r arg position).map (·, work)
  | .unknown => (bucket.items[0]?).map (·, work)

/-- The weights of a tree bucket are sums, and there is some weight. -/
def BucketAlg.Sound {size : ℕ} : BucketAlg size → Prop
  | .tree _ node_weights _ _ =>
    0 < node_weights.getD (node_weights.length / 2) 0 ∧
    (∀ n < node_weights.length, n ≠ 0 → n % 2 = 0 →
      node_weights.getD n 0 = node_weights.getD (left n) 0 + node_weights.getD (right n) 0) ∧
    ∀ n < node_weights.length, n % 2 = 1 → size ≤ n / 2 → node_weights.getD n 0 = 0
  | _ => True

def Bucket.ArgFits (b : Bucket) (arg : Option ChooseArg) : Prop :=
  match b.alg with
  | .straw2 item_weights weight h => ∀ position, ChooseArgFits ⟨b.items, item_weights, weight, h⟩ arg position
  | _ => True

/-!
### The permutation
-/

variable (hash : Hash) (bucket : Bucket) (x : ℤ) {work : WorkBucket}

theorem getD_lt {l : List ℕ} {n i : ℕ} (hall : ∀ s ∈ l, s < n) (hi : i < l.length) : l.getD i 0 < n := by
  rw [← getElem_eq_getD (h := hi)]
  exact hall _ (getElem_mem _)

private theorem permStep_perm (hlen : work.perm.length = bucket.size) :
    (permStep hash bucket x work).perm ~ work.perm := by
  unfold permStep
  dsimp only
  split
  · rename_i hp
    split
    · have hi := Nat.mod_lt (hash.hash3 bucket.hash x bucket.id work.perm_n) (show 0 < bucket.size - work.perm_n by omega)
      rw [getD_eq_getElem _ _ (show work.perm_n < work.perm.length by omega), getD_eq_getElem _ _ (by omega)]
      exact set_set_perm _ _
    · exact .refl _
  · exact .refl _

theorem permLoop_perm (n : ℕ) (hlen : work.perm.length = bucket.size) :
    (permLoop hash bucket x n work).perm ~ work.perm := by
  induction n generalizing work with
  | zero => exact .refl _
  | succ n ih =>
    have hstep := permStep_perm hash bucket x hlen
    exact (ih (hstep.length_eq.trans hlen)).trans hstep

variable {bucket} {node_weights : List ℕ} {arg : Option ChooseArg}

theorem exists_item {s : ℕ} (h : s < bucket.size) : ∃ item ∈ bucket.items, bucket.items[s]? = some item :=
  ⟨_, getElem_mem h, getElem?_eq_getElem h⟩

private theorem bucketPermChoose_spec (hsize : bucket.size ≠ 0) (hok : WorkBucketOk bucket.size work) (r : ℕ) :
    ∃ item ∈ bucket.items, ∃ work', bucketPermChoose hash bucket work x r = some (item, work') ∧
      WorkBucketOk bucket.size work' := by
  have hpos : 0 < bucket.size := pos_of_ne_zero hsize
  have hpr := Nat.mod_lt r hpos
  -- the permutation is extended from entries that are all indices
  have hextend : ∀ work, work.perm.length = bucket.size → (∀ s ∈ work.perm, s < bucket.size) →
      ∃ item ∈ bucket.items, ∃ work',
        (bucket.items[(permLoop hash bucket x (r % bucket.size + 1 - work.perm_n) work).perm.getD (r % bucket.size) 0]?).map
          (·, permLoop hash bucket x (r % bucket.size + 1 - work.perm_n) work) = some (item, work') ∧
        WorkBucketOk bucket.size work' := by
    intro work hlen hall
    have hperm := permLoop_perm hash bucket x (r % bucket.size + 1 - work.perm_n) hlen
    have hlen' := hperm.length_eq.trans hlen
    have hall' := fun s hs => hall s (hperm.mem_iff.1 hs)
    obtain ⟨item, hmem, hitem⟩ := exists_item (getD_lt hall' (hpr.trans_eq hlen'.symm))
    exact ⟨item, hmem, _, by rw [hitem]; rfl, hlen', fun _ => getD_lt hall' (hpos.trans_eq hlen'.symm), fun _ _ => hall'⟩
  obtain ⟨hlen, hfirst, hall⟩ := hok
  have hrange : ∀ s ∈ range bucket.size, s < bucket.size := fun s hs => mem_range.1 hs
  unfold bucketPermChoose
  dsimp only
  split
  · split
    · have hs := Nat.mod_lt (hash.hash3 bucket.hash x bucket.id 0) hpos
      obtain ⟨item, hmem, hitem⟩ := exists_item hs
      refine ⟨item, hmem, _, by rw [hitem]; rfl, by simpa using hlen, fun _ => ?_, fun _ h => absurd rfl h⟩
      rw [getD_eq_getElem?_getD, getElem?_set_self (by omega)]
      exact hs
    · exact hextend ⟨x % 2 ^ 32, 0, range bucket.size⟩ length_range hrange
  · rename_i hused
    obtain ⟨-, hn⟩ := not_or.1 hused
    split
    · refine hextend { work with
        perm_n := 1, perm := ((range bucket.size).set 0 (work.perm.getD 0 0)).set (work.perm.getD 0 0) 0 }
        (by simp) fun s hs => ?_
      rcases mem_or_eq_of_mem_set hs with hs | rfl
      · rcases mem_or_eq_of_mem_set hs with hs | rfl
        · exact hrange s hs
        · exact hfirst hn
      · exact hpos
    · rename_i hmagic
      exact hextend work hlen (hall hn hmagic)

/-!
### Lists, straws and unknown buckets
-/

private theorem scaled_lt {k u w : ℕ} (hu : u < 2 ^ k) (hw : 0 < w) : (u * w) >>> k < w := by
  rw [Nat.shiftRight_eq_div_pow, Nat.div_lt_iff_lt_mul (Nat.two_pow_pos k), mul_comm]
  exact mul_lt_mul_of_pos_left hu hw

private theorem bucketListLoop_spec (item_weights sum_weights : List ℕ) (r : ℕ) (hsize : bucket.size ≠ 0) {i : ℕ}
    (hi : i ≤ bucket.size) :
    ∃ item ∈ bucket.items, bucketListLoop hash bucket item_weights sum_weights x r i = some item := by
  induction i with
  | zero => exact exists_item (by omega)
  | succ i ih =>
    unfold bucketListLoop
    dsimp only
    split
    · exact exists_item (by omega)
    · exact ih (by omega)

private theorem bucketStrawChoose_spec {straws : List ℕ} (hlen : straws.length = bucket.items.length) (r : ℕ)
    (hsize : bucket.size ≠ 0) : ∃ item ∈ bucket.items, bucketStrawChoose hash bucket straws x r = some item := by
  refine exists_item ?_
  have hne : zipWith (fun item straw => (hash.hash3 bucket.hash x item r &&& 0xffff) * straw) bucket.items straws ≠ [] := by
    rw [← length_pos_iff, length_zipWith, hlen, min_self]
    exact pos_of_ne_zero hsize
  obtain ⟨m, hm⟩ := scan_isFirstMax hne 0 0
  have hlt := hm.lt_length
  rwa [length_zipWith, hlen, min_self] at hlt

private theorem bucketStraw2Choose_spec (hash3 : ℤ → ℤ → ℤ → ℕ) {b : Straw2Bucket} {position : ℕ}
    (hne : b.items ≠ []) (hfits : ChooseArgFits b arg position) (r : ℕ) :
    ∃ item ∈ b.items, bucketStraw2Choose hash3 b x r arg position = some item := by
  have hlt := hfits.high_lt hash3 x r hne
  exact ⟨_, getElem_mem hlt, getElem?_eq_getElem hlt⟩

/-!
### Trees
-/

private theorem heightLoop_eq (h k : ℕ) {fuel : ℕ} (hfuel : h ≤ fuel) (a : ℕ) :
    heightLoop fuel ((2 * k + 1) * 2 ^ h) a = a + h := by
  induction h generalizing fuel a with
  | zero =>
    cases fuel with
    | zero => rfl
    | succ fuel => exact if_neg (by omega)
  | succ h ih =>
    obtain ⟨fuel, rfl⟩ : ∃ n, fuel = n + 1 := ⟨fuel - 1, by omega⟩
    have hhalf : (2 * k + 1) * 2 ^ (h + 1) = 2 * ((2 * k + 1) * 2 ^ h) := by ring
    unfold heightLoop
    rw [hhalf, if_pos (Nat.mul_mod_right 2 _), Nat.mul_div_cancel_left _ (by decide), ih (by omega)]
    omega

private theorem height_eq (h k : ℕ) : height ((2 * k + 1) * 2 ^ h) = h := by
  have hle : h ≤ (2 * k + 1) * 2 ^ h := by
    calc h ≤ 2 ^ h := Nat.lt_two_pow_self.le
      _ ≤ (2 * k + 1) * 2 ^ h := Nat.le_mul_of_pos_left _ (by omega)
  unfold height
  rw [heightLoop_eq h k hle, zero_add]

private theorem left_eq (h k : ℕ) : left ((2 * k + 1) * 2 ^ (h + 1)) = (2 * (2 * k) + 1) * 2 ^ h := by
  unfold left
  rw [height_eq, Nat.add_sub_cancel, show (2 * k + 1) * 2 ^ (h + 1) = (2 * (2 * k) + 1) * 2 ^ h + 2 ^ h by ring,
    Nat.add_sub_cancel]

private theorem right_eq (h k : ℕ) : right ((2 * k + 1) * 2 ^ (h + 1)) = (2 * (2 * k + 1) + 1) * 2 ^ h := by
  unfold right
  rw [height_eq, Nat.add_sub_cancel]
  ring

private theorem node_even (h k : ℕ) : (2 * k + 1) * 2 ^ (h + 1) % 2 = 0 := by
  rw [pow_succ, ← mul_assoc]
  exact Nat.mul_mod_left _ 2

private theorem root_eq {d : ℕ} (hlen : node_weights.length = 2 ^ (d + 1)) :
    node_weights.length / 2 = (2 * 0 + 1) * 2 ^ d ∧ d < node_weights.length := by
  have hlt := Nat.lt_two_pow_self (n := d)
  rw [hlen, pow_succ]
  omega

private theorem child_lt {d h k : ℕ} (hlt : (2 * k + 1) * 2 ^ (h + 1) < 2 ^ d) :
    (2 * (2 * k + 1) + 1) * 2 ^ h < 2 ^ d := by
  have hd : h + 1 < d := by
    by_contra hle
    have hpow : 2 ^ d ≤ 2 ^ (h + 1) := Nat.pow_le_pow_right (by decide) (by omega)
    have := Nat.le_mul_of_pos_left (2 ^ (h + 1)) (show 0 < 2 * k + 1 by omega)
    omega
  -- both sides are multiples of `2 ^ h`, the right one by an even factor
  obtain ⟨e, rfl⟩ : ∃ e, d = h + (e + 1) := ⟨d - h - 1, by omega⟩
  have hfull : 2 ^ (h + (e + 1)) = 2 ^ (e + 1) * 2 ^ h := by ring
  rw [hfull]
  rw [hfull, show (2 * k + 1) * 2 ^ (h + 1) = (2 * k + 1) * 2 * 2 ^ h by ring] at hlt
  have hk := Nat.lt_of_mul_lt_mul_right hlt
  refine mul_lt_mul_of_pos_right ?_ (Nat.two_pow_pos h)
  rw [pow_succ] at hk ⊢
  omega

private theorem bucketTreeLoop_spec (bucket : Bucket) {d : ℕ} (hlen : node_weights.length = 2 ^ d) (r : ℕ)
    (hsum : ∀ n < node_weights.length, n ≠ 0 → n % 2 = 0 →
      node_weights.getD n 0 = node_weights.getD (left n) 0 + node_weights.getD (right n) 0) {h : ℕ} (k : ℕ) {fuel : ℕ}
    (hfuel : h < fuel) (hlt : (2 * k + 1) * 2 ^ h < 2 ^ d) (hpos : 0 < node_weights.getD ((2 * k + 1) * 2 ^ h) 0) :
    ∃ n < node_weights.length, n % 2 = 1 ∧ 0 < node_weights.getD n 0 ∧
      bucketTreeLoop hash bucket node_weights x r fuel ((2 * k + 1) * 2 ^ h) = some n := by
  obtain ⟨fuel, rfl⟩ : ∃ n, fuel = n + 1 := ⟨fuel - 1, by omega⟩
  induction h generalizing k fuel with
  | zero =>
    refine ⟨(2 * k + 1) * 2 ^ 0, by omega, by omega, hpos, ?_⟩
    unfold bucketTreeLoop
    rw [if_pos (by omega)]
  | succ h ih =>
    obtain ⟨fuel, rfl⟩ : ∃ n, fuel = n + 1 := ⟨fuel - 1, by omega⟩
    have heven := node_even h k
    have hne : (2 * k + 1) * 2 ^ (h + 1) ≠ 0 := mul_ne_zero (by omega) (Nat.two_pow_pos _).ne'
    have hw := hsum _ (by omega) hne heven
    have hright := child_lt hlt
    unfold bucketTreeLoop
    rw [if_neg (by omega)]
    rw [left_eq, right_eq] at hw ⊢
    dsimp only
    split
    · rename_i ht
      refine ih (2 * k) ?_ (by omega) fuel (by omega)
      exact lt_of_le_of_lt (Nat.mul_le_mul_right _ (by omega)) hright
    rename_i ht
    refine ih (2 * k + 1) hright ?_ fuel (by omega)
    -- the point picked is below the weight of the node
    have hpoint := scaled_lt (hash.hash4_lt bucket.hash x ((2 * k + 1) * 2 ^ (h + 1) : ℕ) r bucket.id) hpos
    omega

/-- The walk ends at a node with weight, and a node without an item has none. -/
theorem bucketTreeLoop_root {depth : ℕ} (hlen : node_weights.length = 2 ^ depth)
    (hsize : 2 * bucket.items.length ≤ 2 ^ depth) (hne : bucket.size ≠ 0) (r : ℕ)
    (hsound : (BucketAlg.tree depth node_weights hlen hsize).Sound) : ∃ i < bucket.size,
      0 < node_weights.getD (2 * i + 1) 0 ∧
      bucketTreeLoop hash bucket node_weights x r node_weights.length (node_weights.length / 2) = some (2 * i + 1) := by
  obtain ⟨hroot, hsum, hpad⟩ := hsound
  have hpos : 0 < bucket.items.length := pos_of_ne_zero hne
  obtain ⟨d, rfl⟩ : ∃ d, depth = d + 1 := by
    cases depth with
    | zero => omega
    | succ d => exact ⟨d, rfl⟩
  obtain ⟨hstart, hfuel⟩ := root_eq hlen
  rw [hstart] at hroot
  obtain ⟨n, hn, hodd, hweight, hloop⟩ := bucketTreeLoop_spec hash x bucket hlen r hsum 0 hfuel
    (by rw [pow_succ]; have := Nat.two_pow_pos d; omega) hroot
  obtain ⟨i, rfl⟩ : ∃ i, n = 2 * i + 1 := ⟨n / 2, by omega⟩
  refine ⟨i, ?_, hweight, hstart ▸ hloop⟩
  by_contra hge
  have := hpad _ hn hodd (by rw [Bucket.size] at hge; omega)
  omega

private theorem bucketTreeChoose_eq {i r : ℕ}
    (h : bucketTreeLoop hash bucket node_weights x r node_weights.length (node_weights.length / 2) = some (2 * i + 1)) :
    bucketTreeChoose hash bucket node_weights x r = bucket.items[i]? := by
  have hi : (2 * i + 1) / 2 = i := by omega
  rw [bucketTreeChoose, h, Option.bind_eq_bind, Option.bind_some, hi]

/-!
### All algorithms
-/

theorem crushBucketChoose_spec (hne : bucket.size ≠ 0) (hsound : bucket.alg.Sound)
    (hok : WorkBucketOk bucket.size work) (hfits : bucket.ArgFits arg) (r position : ℕ) :
    ∃ item ∈ bucket.items, ∃ work', crushBucketChoose hash bucket work x r arg position = some (item, work') ∧
      WorkBucketOk bucket.size work' := by
  have hitems : bucket.items ≠ [] := ne_nil_of_length_pos (pos_of_ne_zero hne)
  have hkeep : ∀ choice, (∃ item ∈ bucket.items, choice = some item) →
      ∃ item ∈ bucket.items, ∃ work', choice.map (·, work) = some (item, work') ∧ WorkBucketOk bucket.size work' := by
    rintro _ ⟨item, hmem, rfl⟩
    exact ⟨item, hmem, work, rfl, hok⟩
  unfold Bucket.ArgFits at hfits
  unfold crushBucketChoose
  split
  · exact bucketPermChoose_spec hash x hne hok r
  · exact hkeep _ (bucketListLoop_spec hash x _ _ r hne le_rfl)
  · rename_i depth node_weights hlen hsize halg
    rw [halg] at hsound
    obtain ⟨i, hi, -, hloop⟩ := bucketTreeLoop_root hash x hlen hsize hne r hsound
    exact hkeep _ (bucketTreeChoose_eq hash x hloop ▸ exists_item hi)
  · rename_i straws hlen halg
    exact hkeep _ (bucketStrawChoose_spec hash x hlen r hne)
  · rename_i item_weights weight hlen halg
    rw [halg] at hfits
    exact hkeep _ (bucketStraw2Choose_spec x _ hitems (hfits position) r)
  · exact hkeep _ (exists_item (pos_of_ne_zero hne))

/-!
### Items with weight
-/

private theorem bucketListLoop_pos {item_weights sum_weights : List ℕ} (r : ℕ) {i : ℕ}
    (hsums : ∀ j < i, sum_weights.getD j 0 = (item_weights.take (j + 1)).sum) (hpos : 0 < (item_weights.take i).sum) :
    ∃ j < i, 0 < item_weights.getD j 0 ∧ bucketListLoop hash bucket item_weights sum_weights x r i = bucket.items[j]? := by
  induction i with
  | zero => simp at hpos
  | succ i ih =>
    unfold bucketListLoop
    dsimp only
    split
    · rename_i hlt
      exact ⟨i, Nat.lt_succ_self i, Nat.zero_lt_of_lt hlt, rfl⟩
    rename_i hge
    -- an item that all the weight up to it belongs to is chosen
    have hrest : 0 < (item_weights.take i).sum := by
      by_contra hzero
      have hsum : (item_weights.take (i + 1)).sum = item_weights.getD i 0 := by
        rw [take_add_one, sum_append]
        cases h : item_weights[i]? <;> simp_all
      rw [hsums i (Nat.lt_succ_self i), hsum] at hge
      exact hge (scaled_lt (Nat.lt_succ_of_le Nat.and_le_right) (hsum ▸ hpos))
    obtain ⟨j, hj, hw, heq⟩ := ih (fun j hj => hsums j (by omega)) hrest
    exact ⟨j, by omega, hw, heq⟩

/-- List, tree and straw2 buckets with weight choose an item with weight, if the sums of a list are those of its first
weights and the nodes of a tree are sums. -/
theorem choice_has_weight (hash : Hash) (bucket : Bucket) (x : ℤ) (r : ℕ) :
    (∀ item_weights sum_weights : List ℕ, item_weights.length = bucket.size →
      (∀ i < bucket.size, sum_weights.getD i 0 = (item_weights.take (i + 1)).sum) → 0 < item_weights.sum →
      ∃ i < bucket.size, 0 < item_weights.getD i 0 ∧
        bucketListChoose hash bucket item_weights sum_weights x r = bucket.items[i]?) ∧
    (∀ (depth : ℕ) (node_weights : List ℕ) (hlen : node_weights.length = 2 ^ depth)
      (hsize : 2 * bucket.items.length ≤ 2 ^ depth), bucket.size ≠ 0 →
      (BucketAlg.tree depth node_weights hlen hsize).Sound →
      ∃ i < bucket.size, 0 < node_weights.getD (2 * i + 1) 0 ∧
        bucketTreeLoop hash bucket node_weights x r node_weights.length (node_weights.length / 2) = some (2 * i + 1) ∧
        bucketTreeChoose hash bucket node_weights x r = bucket.items[i]?) ∧
    ∀ (b : Straw2Bucket) (arg : Option ChooseArg) (position : ℕ), ChooseArgFits b arg position →
      0 < (getChooseArgWeights b.item_weights arg position).sum →
      ∃ i < b.items.length, 0 < (getChooseArgWeights b.item_weights arg position).getD i 0 ∧
        bucketStraw2Choose (hash.hash3 bucket.hash) b x r arg position = b.items[i]? := by
  refine ⟨fun item_weights sum_weights hlen hsums hpos => ?_, fun depth node_weights hlen hsize hne hsound => ?_,
    fun b arg position hfits hpos => ?_⟩
  · exact bucketListLoop_pos hash x r hsums (by rwa [take_of_length_le hlen.le])
  · obtain ⟨i, hi, hw, hloop⟩ := bucketTreeLoop_root hash x hlen hsize hne r hsound
    exact ⟨i, hi, hw, hloop, bucketTreeChoose_eq hash x hloop⟩
  · obtain ⟨w, hw, hwpos⟩ := List.sum_pos_iff_exists_pos_nat.1 hpos
    have hne : b.items ≠ [] := ne_nil_of_length_pos (hfits.2 ▸ length_pos_of_mem hw)
    exact ⟨_, hfits.high_lt _ x r hne, straw2High_pos _ x r (hfits.2.trans hfits.1.symm) ⟨w, hw, hwpos⟩, rfl⟩

theorem choice_has_weight_second : let hash : Hash := ⟨fun _ _ => 0, fun _ _ _ _ => 0, fun _ _ _ _ _ => 5, by simp⟩
    let bucket : Bucket := ⟨-1, 1, 0, [4, 7, 9], .unknown⟩
    (∃ i < 3, 0 < [0, 2, 0].getD i 0 ∧ bucketListChoose hash bucket [0, 2, 0] [0, 2, 2] 3 1 = bucket.items[i]?) ∧
    (∃ i < 3, 0 < [0, 0, 2, 2, 2, 0, 0, 0].getD (2 * i + 1) 0 ∧
      bucketTreeLoop hash bucket [0, 0, 2, 2, 2, 0, 0, 0] 3 1 8 4 = some (2 * i + 1) ∧
      bucketTreeChoose hash bucket [0, 0, 2, 2, 2, 0, 0, 0] 3 1 = bucket.items[i]?) ∧
    ∃ i < 3, 0 < [0, 2, 0].getD i 0 ∧
      bucketStraw2Choose (hash.hash3 0) ⟨[4, 7, 9], [0, 2, 0], 2, rfl⟩ 3 (1 : ℕ) none 0 = [4, 7, 9][i]? := by
  intro hash bucket
  obtain ⟨hlist, htree, hstraw2⟩ := choice_has_weight hash bucket 3 1
  exact ⟨hlist [0, 2, 0] [0, 2, 2] rfl (by decide) (by decide),
    htree 3 [0, 0, 2, 2, 2, 0, 0, 0] rfl (by decide) (by decide) ⟨by decide, by decide, by decide⟩,
    hstraw2 ⟨[4, 7, 9], [0, 2, 0], 2, rfl⟩ none 0 ⟨rfl, rfl⟩ (by decide)⟩

end Lunule.Crush
