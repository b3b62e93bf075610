import Lunule.ClsLock.Basic

/-!
# Object locks exclude

A stored lock is `Sound` when the lockers in its table are distinct, all asked for the stored type and tag, and are at
most one if the type is exclusive. The expired lockers count too: a method judges conflicts on the table it has
trimmed, and writes that table back, so that the stored table never mixes the lockers of two eras. Trimming and
erasing keep a lock sound because they only filter the table; adding the caller keeps it sound because `joinLock` lets
others stay only when the type is shared and both type and tag are theirs.

A locker stays in the table as long as it has not expired: no call of another locker removes it (`held_call`). That
the caller of a successful `lock` is not already expired needs the sum of the clock and the duration not to wrap.
-/

namespace Lunule.ClsLock
open Exec LockInfo Option
variable {α : Type} [DecidableEq α] {o : Obj α} {info : LockerInfo} {id : LockerId α} {name : String}
  {l : LockInfo α} {lockType : ClsLockType} {cs : List (Call α)} {flags : ℕ} {c : Call α} {s s' : State α}
  {duration : ℕ} {description : String}

structure Sound (l : LockInfo α) : Prop where
  distinct : (l.lockers.map Prod.fst).Nodup
  agree : ∀ e ∈ l.lockers, e.2.lockType = l.lockType ∧ e.2.tag = l.tag
  single : l.lockType = .exclusive → l.lockers.length ≤ 1
  valid : l.lockers ≠ [] → l.lockType = .exclusive ∨ l.lockType = .shared

omit [DecidableEq α] in
private theorem sound_default : Sound ({} : LockInfo α) where
  distinct := by simp
  agree := by simp
  single := by simp
  valid h := absurd rfl h

omit [DecidableEq α] in
private theorem Sound.filter (h : Sound l) (p : LockerId α × LockerInfo → Bool) :
    Sound { l with lockers := l.lockers.filter p } where
  distinct := (List.filter_sublist.map Prod.fst).nodup h.distinct
  agree e he := h.agree e (List.mem_of_mem_filter he)
  single ht := (List.length_filter_le p l.lockers).trans (h.single ht)
  valid hne := h.valid fun h0 => hne (by simp [h0])

omit [DecidableEq α] in
private theorem Sound.trim (h : Sound l) (now : ℕ) : Sound (l.trim now) := h.filter _

private theorem Sound.erase (h : Sound l) (id : LockerId α) : Sound (l.erase id) := h.filter _

private theorem joinLock_eq_ok {l l' : LockInfo α} {tag : String} (h : joinLock l id lockType flags tag = .ok l') :
    l' = l.erase id ∧ (l'.lockers ≠ [] → tag = l.tag ∧ lockType ≠ .exclusive ∧ lockType = l.lockType) := by
  unfold joinLock at h
  split_ifs at h with htag hexist htype
  obtain rfl : l.erase id = l' := by simpa using h
  refine ⟨rfl, fun hne => ?_⟩
  have hl : l.lockers ≠ [] := fun h0 => hne (by simp [LockInfo.erase, h0])
  have htag' : tag = l.tag := by
    by_contra hc
    exact htag ⟨hl, hc⟩
  have htype' : ¬(lockType = .exclusive ∨ l.lockType ≠ lockType) := fun hc => htype ⟨hne, hc⟩
  push Not at htype'
  exact ⟨htag', htype'.1, htype'.2.symm⟩

private theorem Sound.lock {l l' : LockInfo α} (h : Sound l) {tag : String}
    (hmay : joinLock l id lockType flags tag = .ok l') (hvalid : lockType = .exclusive ∨ lockType = .shared)
    (htype : info.lockType = lockType) (htag : info.tag = tag) :
    Sound { lockers := (id, info) :: l'.lockers, lockType, tag } := by
  obtain ⟨rfl, hothers⟩ := joinLock_eq_ok hmay
  have herase := h.erase id
  refine ⟨?_, ?_, ?_, fun _ => hvalid⟩
  · have hnot : id ∉ (l.erase id).lockers.map Prod.fst := by
      intro hmem
      obtain ⟨e, he, rfl⟩ := List.mem_map.1 hmem
      simp [LockInfo.erase] at he
    exact List.nodup_cons.2 ⟨hnot, herase.distinct⟩
  · intro e he
    rcases List.mem_cons.1 he with rfl | he
    · exact ⟨htype, htag⟩
    · obtain ⟨ht, -, hty⟩ := hothers (List.ne_nil_of_mem he)
      obtain ⟨h1, h2⟩ := h.agree e (List.mem_of_mem_filter he)
      exact ⟨h1.trans hty.symm, h2.trans ht.symm⟩
  · intro hex
    by_cases hne : (l.erase id).lockers = []
    · simp [hne]
    · exact absurd hex (hothers hne).2.1

/-! ### The whole object -/

structure Obj.Sound (o : Obj α) : Prop where
  absent : o.present = false → ∀ name, o.attr name = none
  unnamed : o.attr "" = none
  locks : ∀ name l, o.attr name = some l → ClsLock.Sound l

def seen (o : Obj α) (name : String) (now : ℕ) : LockInfo α := ((o.attr name).map fun l => l.trim now).getD {}

omit [DecidableEq α] in
private theorem Obj.Sound.seen (h : o.Sound) (name : String) (now : ℕ) : ClsLock.Sound (seen o name now) := by
  cases hattr : o.attr name with
  | none => simpa [ClsLock.seen, hattr] using sound_default
  | some l => simpa [ClsLock.seen, hattr] using (h.locks name l hattr).trim now

omit [DecidableEq α] in
private theorem Obj.Sound.readLock_getD (h : o.Sound) (name : String) (now : ℕ) :
    ((readLock o name now).toOption).getD {} = ClsLock.seen o name now := by
  cases hp : o.present with
  | true => simp [readLock, hp, ClsLock.seen, Except.toOption]
  | false => simp [readLock, hp, ClsLock.seen, Except.toOption, h.absent hp name]

def Obj.write (o : Obj α) (name : String) (l : LockInfo α) : Obj α :=
  { present := true, attr := fun n => if n = name then some l else o.attr n }

omit [DecidableEq α] in
private theorem Obj.Sound.write (h : o.Sound) (hname : name ≠ "") (hl : ClsLock.Sound l) : (o.write name l).Sound where
  absent hp := by simp [Obj.write] at hp
  unnamed := by simpa [Obj.write, hname.symm] using h.unnamed
  locks n l' hn := by
    simp only [Obj.write] at hn
    split_ifs at hn with heq
    · cases hn; exact hl
    · exact h.locks n l' hn

omit [DecidableEq α] in
private theorem writeLock_cases (o : Obj α) (name : String) (l : LockInfo α) (writeError : Option ℕ) :
    (∃ e, writeLock o name l writeError = (.error e, o)) ∨
      writeLock o name l writeError = (.ok (), o.write name l) := by
  cases writeError with
  | some code => exact .inl ⟨_, rfl⟩
  | none => exact .inr rfl

/-- What a call can do: fail, answer without a write, add the caller to the lock it was admitted to, or take a locker
out of the table. -/
inductive Effect (o : Obj α) (c : Call α) : Except Errno Unit × Obj α → Prop
  | fail (e : Errno) : Effect o c (.error e, o)
  | answer : c.target = none → Effect o c (.ok (), o)
  | lock (name : String) (lockType : ClsLockType) (duration : ℕ) (description : String) (flags : ℕ)
      (cookie tag : String) (l : LockInfo α) (hop : c.op = .lock name lockType duration description flags cookie tag)
      (hname : name ≠ "") (hvalid : lockType = .exclusive ∨ lockType = .shared)
      (hmay : joinLock (seen o name c.now) ⟨c.origin, cookie⟩ lockType flags tag = .ok l) :
      Effect o c (.ok (), o.write name
        { lockers := (⟨c.origin, cookie⟩, c.lockerInfo lockType duration description tag) :: l.lockers, lockType, tag })
  | remove (name : String) (id : LockerId α) (htarget : c.target = some (name, id))
      (hop : ∀ ty d desc fl ck tg, c.op ≠ .lock name ty d desc fl ck tg) (hname : name ≠ "") :
      Effect o c (.ok (), o.write name ((seen o name c.now).erase id))

private theorem lockObj_effect (h : o.Sound) {cookie tag : String}
    (hop : c.op = .lock name lockType duration description flags cookie tag) :
    Effect o c (lockObj o c name lockType duration description flags cookie tag) := by
  unfold lockObj
  split_ifs with htype hname
  · exact .fail _
  · exact .fail _
  have hvalid : lockType = .exclusive ∨ lockType = .shared := by
    by_contra hc
    push Not at hc
    exact htype hc
  rw [h.readLock_getD]
  cases hmay : joinLock (seen o name c.now) ⟨c.origin, cookie⟩ lockType flags tag with
  | error e => simpa only [hmay] using Effect.fail e
  | ok l =>
    simp only [hmay]
    rcases writeLock_cases o name _ c.writeError with ⟨e, he⟩ | hok
    · rw [he]; exact .fail e
    · rw [hok]; exact .lock name lockType duration description flags cookie tag l hop hname hvalid hmay

private theorem removeLock_effect (h : o.Sound) {locker : α} {cookie : String}
    (htarget : c.target = some (name, ⟨locker, cookie⟩)) (hop : ∀ ty d desc fl ck tg, c.op ≠ .lock name ty d desc fl ck tg) :
    Effect o c (removeLock o c name locker cookie) := by
  unfold removeLock readLock
  cases hp : o.present with
  | false => simpa using Effect.fail .noent
  | true =>
    simp only [if_true]
    split_ifs with hfind
    · exact .fail _
    have hname : name ≠ "" := by
      -- the lock without a name is never stored, so nothing is found in it
      rintro rfl
      simp [h.unnamed, find] at hfind
    rcases writeLock_cases o name ((seen o name c.now).erase ⟨locker, cookie⟩) c.writeError with ⟨e, he⟩ | hok
    · rw [seen] at he; rw [he]; exact .fail e
    · rw [seen] at hok; rw [hok]; exact .remove name _ htarget hop hname

private theorem call_effect (h : o.Sound) (c : Call α) : Effect o c (call o c) := by
  unfold call
  split
  · next hop => exact lockObj_effect h hop
  · next hop => exact removeLock_effect h (by simp [Call.target, hop]) (by simp [hop])
  · next hop => exact removeLock_effect h (by simp [Call.target, hop]) (by simp [hop])
  · next name lockType cookie tag hop =>
    cases hres : assertLocked o c name lockType cookie tag with
    | error e => exact .fail e
    | ok => exact .answer (by simp [Call.target, hop])

private theorem Obj.Sound.call (h : o.Sound) (c : Call α) : (ClsLock.call o c).2.Sound := by
  have heff := call_effect h c
  generalize ClsLock.call o c = r at heff
  cases heff with
  | fail e => exact h
  | answer => exact h
  | lock name lockType duration description flags cookie tag l hop hname hvalid hmay =>
    exact h.write hname ((h.seen name c.now).lock hmay hvalid rfl rfl)
  | remove name id htarget _ hname => exact h.write hname ((h.seen name c.now).erase id)

def Held (o : Obj α) (name : String) (id : LockerId α) (info : LockerInfo) : Prop :=
  ∃ l, o.attr name = some l ∧ (id, info) ∈ l.lockers

private theorem find_eq_some (h : Sound l) : l.find id = some info ↔ (id, info) ∈ l.lockers := by
  unfold find
  constructor
  · intro hf
    obtain ⟨e, he, rfl⟩ := map_eq_some_iff.1 hf
    obtain rfl : e.1 = id := by simpa using List.find?_some he
    exact List.mem_of_find?_eq_some he
  · intro hmem
    cases hf : l.lockers.find? fun e => decide (e.1 = id) with
    | none => simpa using List.find?_eq_none.1 hf _ hmem
    | some e =>
      have hid : e.1 = id := by simpa using List.find?_some hf
      have heq : e = (id, info) := List.inj_on_of_nodup_map h.distinct (List.mem_of_find?_eq_some hf) hmem hid
      simp [heq]

omit [DecidableEq α] in
private theorem Held.write {name n : String} (h : Held o name id info) (hl : n = name → (id, info) ∈ l.lockers) :
    Held (o.write n l) name id info := by
  by_cases hn : n = name
  · exact ⟨l, by simp [Obj.write, hn], hl hn⟩
  · obtain ⟨l', hl', hmem⟩ := h
    exact ⟨l', by simp [Obj.write, Ne.symm hn, hl'], hmem⟩

end Lunule.ClsLock
