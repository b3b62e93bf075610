import Lunule.Lib.Exec
import Lunule.Caps.Basic

/-!
# The MDS never under-estimates a client

One capability, its client and the two channels between them. The MDS sends its new pending caps with each grant, the
client holds what the last grant it processed allows, and acknowledges with the number of that grant and the part of
the caps it keeps.

`Covers cap s x` says that `x` is accounted for by the records of a client that has processed grant `s`: every bit of
`x` is pending or stands before a revocation sent after grant `s`. Issuing only widens this cover, and a receipt of
grant `s` narrows it only for grants up to `s`. The invariant keeps what the client holds, what it will hold and what
it has reported covered.
-/

namespace Lunule.Caps
open Exec BitSet Capability List

structure Msg where
  seq : Nat
  caps : CapSet
deriving DecidableEq

/-- The capability on the MDS, the client's `held` caps and the number `seen` of the last grant it processed, the grants
and acknowledgements in flight, and the last acknowledgement the client sent. -/
structure Link where
  cap : Capability := {}
  held : CapSet := 0
  seen : Nat := 0
  grants : List Msg := []
  acks : List Msg := []
  told : Option Msg := none
deriving DecidableEq

inductive Event
  | issue (c : CapSet)
  | issueNorevoke (c : CapSet)
  | setLastIssue
  | deliver
  | ack (keep : CapSet)
  | confirm
deriving DecidableEq

namespace Link

def sent (l : Link) (r : Capability × Nat) : Link := { l with cap := r.1, grants := l.grants ++ [⟨r.2, r.1.pending⟩] }

def step (l : Link) : Event → Option Link
  | .issue c => (l.cap.issue c).map l.sent
  | .issueNorevoke c => some (l.sent (l.cap.issueNorevoke c))
  | .setLastIssue => some { l with cap := l.cap.setLastIssue }
  | .deliver =>
    match l.grants with
    | [] => none
    | g :: gs => some { l with held := g.caps, seen := g.seq, grants := gs }
  | .ack keep =>
    let m : Msg := ⟨l.seen, l.held &&& keep⟩
    some { l with held := m.caps, acks := l.acks ++ [m], told := some m }
  | .confirm =>
    match l.acks with
    | [] => none
    | a :: as => some { l with cap := l.cap.confirmReceipt a.seq a.caps, acks := as }

end Link

/-- The cap bits of `x` are pending, or stood before a revocation that followed grant `s`. -/
def Covers (cap : Capability) (s : Nat) (x : CapSet) : Prop :=
  ∀ i, x.getLsbD i = true → cap.pending.getLsbD i = true ∨ ∃ r ∈ cap.revokes, s ≤ r.seq ∧ r.before.getLsbD i = true

variable {cap : Capability} {s n : Nat} {x y : CapSet} {rs : List RevokeInfo} {r : RevokeInfo}

private theorem Covers.mono (h : Covers cap s y) (hxy : Within x y) :
    Covers cap s x := fun i hi => h i (within_iff.1 hxy i hi)

private theorem Covers.of_sub (h : Within x cap.pending) : Covers cap s x := fun i hi => .inl (within_iff.1 h i hi)

/-! ### The capability alone -/

/-- `issued` accounts for everything recorded, and every record is older than the last grant. -/
structure Capability.Ok (cap : Capability) : Prop where
  pending : Within cap.pending cap.issued
  before : ∀ r ∈ cap.revokes, Within r.before cap.issued
  older : ∀ r ∈ cap.revokes, r.seq < cap.lastSent

private theorem Capability.Ok.within_issued (h : cap.Ok) (hx : Covers cap s x) : Within x cap.issued := by
  refine within_iff.2 fun i hi => ?_
  rcases hx i hi with hp | ⟨r, hr, -, hb⟩
  · exact within_iff.1 h.pending i hp
  · exact within_iff.1 (h.before r hr) i hb

private theorem Capability.Ok.within_pending (h : cap.Ok) (hx : Covers cap cap.lastSent x) : Within x cap.pending := by
  refine within_iff.2 fun i hi => ?_
  rcases hx i hi with hp | ⟨r, hr, hs, -⟩
  · exact hp
  · have := h.older r hr
    omega

private theorem mem_dropObsolete {p : CapSet} (hr : r ∈ rs) : r ∈ dropObsolete rs p ∨ Within r.before p := by
  induction rs using reverseRecOn with
  | nil => simp at hr
  | append_singleton rs a ih =>
    simp only [dropObsolete, rdropWhile_concat]
    split
    · rename_i ha
      rcases mem_append.1 hr with hr | hr
      · exact ih hr
      · rw [mem_singleton.1 hr]
        exact .inr (by simpa using ha)
    · exact .inl hr

private theorem mem_of_mem_dropObsolete {p : CapSet} (hr : r ∈ dropObsolete rs p) :
    r ∈ rs := rdropWhile_prefix _ _ |>.subset hr

/-- A call that sends caps: it takes the next sequence number and loses nothing that was covered. -/
structure Capability.Sends (cap cap' : Capability) : Prop where
  lastSent : cap'.lastSent = cap.lastSent + 1
  widens : ∀ {s x}, s ≤ cap.lastSent → Covers cap s x → Covers cap' s x
  ok : cap.Ok → cap'.Ok

variable (cap) (c : CapSet)

private theorem Capability.sends_revoke : cap.Sends
    { cap with revokes := cap.noteRevoke, pending := c, issued := cap.issued ||| c, lastSent := cap.lastSent + 1 } where
  lastSent := rfl
  widens := by
    intro s x hs hx i hi
    right
    rcases hx i hi with hp | ⟨r, hr, hsr, hb⟩
    · exact ⟨⟨cap.pending, cap.lastSent, cap.lastIssue⟩, by simp [noteRevoke], hs, hp⟩
    · exact ⟨r, by simp [noteRevoke, hr], hsr, hb⟩
  ok := by
    intro h
    refine ⟨within_or_right _ _, ?_, ?_⟩
    · intro r hr
      simp only [noteRevoke, mem_append, mem_singleton] at hr
      refine Within.trans ?_ (within_or_left _ _)
      rcases hr with hr | rfl
      · exact h.before r hr
      · exact h.pending
    · intro r hr
      simp only [noteRevoke, mem_append, mem_singleton] at hr
      rcases hr with hr | rfl
      · exact Nat.lt_succ_of_lt (h.older r hr)
      · exact Nat.lt_succ_self _

private theorem Capability.sends_add (hsub : ∀ r ∈ rs, r ∈ cap.revokes)
    (hdrop : ∀ r ∈ cap.revokes, r ∈ rs ∨ Within r.before (cap.pending ||| c)) :
    cap.Sends { cap with pending := cap.pending ||| c, issued := cap.issued ||| c, revokes := rs,
                         lastSent := cap.lastSent + 1 } where
  lastSent := rfl
  widens := by
    intro s x _ hx i hi
    rcases hx i hi with hp | ⟨r, hr, hsr, hb⟩
    · exact .inl (within_iff.1 (within_or_left _ _) i hp)
    · rcases hdrop r hr with hr | hr
      · exact .inr ⟨r, hr, hsr, hb⟩
      · exact .inl (within_iff.1 hr i hb)
  ok := by
    intro h
    refine ⟨?_, fun r hr => (h.before r (hsub r hr)).trans (within_or_left _ _),
      fun r hr => Nat.lt_succ_of_lt (h.older r (hsub r hr))⟩
    refine within_iff.2 fun i hi => ?_
    have hp := within_iff.1 h.pending i
    simp only [BitVec.getLsbD_or, Bool.or_eq_true] at hi ⊢
    exact hi.imp_left hp

private theorem Capability.issue_spec :
    ∃ cap', cap.issue c = some (cap', cap.lastSent + 1) ∧ cap'.pending = c ∧ cap.Sends cap' := by
  unfold issue
  by_cases hrev : Within cap.pending c
  · have hor : cap.pending ||| c = c := or_eq_of_within hrev
    rw [if_neg (not_not.2 (show cap.pending &&& ~~~c = 0 from hrev))]
    by_cases hadd : Within c cap.pending
    · have heq : cap.pending = c := hrev.antisymm hadd
      have hc : ~~~cap.pending &&& c = 0 := by rw [BitVec.and_comm]; exact hadd
      rw [if_neg (not_not.2 hc), if_pos heq]
      refine ⟨_, rfl, heq, rfl, ?_, ?_⟩
      · intro s x _ hx
        exact hx
      · intro h
        exact ⟨h.pending, h.before, fun r hr => Nat.lt_succ_of_lt (h.older r hr)⟩
    · have hc : ~~~cap.pending &&& c ≠ 0 := by rw [BitVec.and_comm]; exact hadd
      rw [if_pos hc]
      exact ⟨_, rfl, hor, sends_add cap c (fun r hr => mem_of_mem_dropObsolete hr) fun r hr => mem_dropObsolete hr⟩
  · rw [if_pos (show cap.pending &&& ~~~c ≠ 0 from hrev)]
    exact ⟨_, rfl, rfl, sends_revoke cap c⟩

private theorem Capability.issueNorevoke_spec :
    (cap.issueNorevoke c).2 = cap.lastSent + 1 ∧ cap.Sends (cap.issueNorevoke c).1 :=
  ⟨rfl, sends_add cap c (fun _ hr => hr) fun _ hr => .inl hr⟩

variable {cap}

/-! ### Receipts -/

private theorem mem_rewriteFront (hr : r ∈ rs) (hs : r.seq ≠ s) : r ∈ rewriteFront s x rs := by
  cases rs with
  | nil => simp at hr
  | cons a rs =>
    rcases mem_cons.1 hr with rfl | hr
    · simp [rewriteFront, hs]
    · exact mem_cons_of_mem _ hr

private theorem mem_rewriteFront_seq (hr : r ∈ rs) (hs : r.seq = s) :
    r ∈ rewriteFront s x rs ∨ ∃ q ∈ rewriteFront s x rs, q.seq = s ∧ q.before = x := by
  cases rs with
  | nil => simp at hr
  | cons a rs =>
    rcases mem_cons.1 hr with rfl | hr
    · exact .inr ⟨{ r with before := x }, by simp [rewriteFront, hs], hs, rfl⟩
    · exact .inl (mem_cons_of_mem _ hr)

private theorem of_mem_rewriteFront (hr : r ∈ rewriteFront s x rs) : ∃ q ∈ rs, r.seq = q.seq := by
  cases rs with
  | nil => simp [rewriteFront] at hr
  | cons a rs =>
    rcases mem_cons.1 hr with rfl | hr
    · refine ⟨a, by simp, ?_⟩
      split <;> rfl
    · exact ⟨r, mem_cons_of_mem _ hr, rfl⟩

private theorem mem_dropWhile_seq (hr : r ∈ rs) (hs : s ≤ r.seq) : r ∈ rs.dropWhile fun r => decide (r.seq < s) := by
  induction rs with
  | nil => simp at hr
  | cons a rs ih =>
    rw [dropWhile_cons]
    split
    · rename_i ha
      rcases mem_cons.1 hr with rfl | hr
      · have : r.seq < s := by simpa using ha
        omega
      · exact ih hr
    · exact hr

private theorem getLsbD_calcIssued (p : CapSet) (rs : List RevokeInfo) (i : Nat) :
    (calcIssued p rs).getLsbD i = true ↔ p.getLsbD i = true ∨ ∃ r ∈ rs, r.before.getLsbD i = true := by
  induction rs generalizing p with
  | nil => simp [calcIssued]
  | cons a rs ih =>
    have := ih (p ||| a.before)
    simp only [calcIssued, foldl_cons] at this ⊢
    rw [this]
    simp [or_assoc]

private theorem confirmReceipt_older (hs : s ≠ cap.lastSent) : (cap.confirmReceipt s x).revokes =
    rewriteFront s x (cap.revokes.dropWhile fun r => decide (r.seq < s)) := by
  simp [confirmReceipt, hs]

@[simp] theorem confirmReceipt_lastSent : (cap.confirmReceipt s x).lastSent = cap.lastSent := by
  unfold confirmReceipt
  split <;> rfl

private theorem confirmReceipt_last (x : CapSet) : cap.confirmReceipt cap.lastSent x =
    { cap with revokes := [], issued := x, pending := cap.pending &&& x } := by
  simp [confirmReceipt]

private theorem Covers.confirm (h : cap.Ok) (hs : s ≤ cap.lastSent) (hn : s ≤ n) (hn' : n ≤ cap.lastSent)
    (hy : Covers cap n y) (hsame : s = n → Within y x) : Covers (cap.confirmReceipt s x) n y := by
  by_cases hlast : s = cap.lastSent
  · subst hlast
    obtain rfl : n = cap.lastSent := by omega
    rw [confirmReceipt_last]
    exact Covers.of_sub (within_and (h.within_pending hy) (hsame rfl))
  have hp : (cap.confirmReceipt s x).pending = cap.pending := by simp [confirmReceipt, hlast]
  intro i hi
  rw [confirmReceipt_older hlast, hp]
  refine (hy i hi).imp_right fun ⟨r, hr, hnr, hb⟩ => ?_
  have hmem := mem_dropWhile_seq hr (hn.trans hnr)
  by_cases hrs : r.seq = s
  · rcases mem_rewriteFront_seq (x := x) hmem hrs with hm | ⟨q, hq, hqs, hqb⟩
    · exact ⟨r, hm, hnr, hb⟩
    · have hns : s = n := by omega
      exact ⟨q, hq, by omega, hqb ▸ within_iff.1 (hsame hns) i hi⟩
  · exact ⟨r, mem_rewriteFront hmem hrs, hnr, hb⟩

private theorem Capability.Ok.confirm (h : cap.Ok) : (cap.confirmReceipt s x).Ok := by
  by_cases hlast : s = cap.lastSent
  · subst hlast
    rw [confirmReceipt_last]
    exact ⟨and_within_right _ _, by simp, by simp⟩
  refine ⟨?_, ?_, ?_⟩
  · simp only [confirmReceipt, hlast, if_false]
    split
    · exact within_or_right _ _
    · exact within_iff.2 fun i hi => (getLsbD_calcIssued _ _ i).2 (.inl hi)
  · intro r hr
    rw [confirmReceipt_older hlast] at hr
    simp only [confirmReceipt, hlast]
    rw [if_neg (ne_nil_of_mem hr)]
    exact within_iff.2 fun i hi => (getLsbD_calcIssued _ _ i).2 (.inr ⟨r, hr, hi⟩)
  · intro r hr
    rw [confirmReceipt_older hlast] at hr
    obtain ⟨q, hq, hrq⟩ := of_mem_rewriteFront hr
    rw [confirmReceipt_lastSent, hrq]
    exact h.older q ((dropWhile_suffix _).subset hq)

/-! ### The link -/

/-- The grants in flight are numbered from the last one seen to the last one sent; everything the client holds, will
hold or has reported is covered; and reports about one grant only shrink. -/
structure Link.Inv (l : Link) : Prop where
  ok : l.cap.Ok
  seen_le : l.seen ≤ l.cap.lastSent
  numbered : l.grants.map (·.seq) = range' (l.seen + 1) (l.cap.lastSent - l.seen)
  held : Covers l.cap l.seen l.held
  granted : ∀ g ∈ l.grants, Covers l.cap g.seq g.caps
  acked : ∀ a ∈ l.acks, Covers l.cap a.seq a.caps
  acked_le : ∀ a ∈ l.acks, a.seq ≤ l.seen ∧ (a.seq = l.seen → Within l.held a.caps)
  shrink : l.acks.Pairwise fun a b => a.seq ≤ b.seq ∧ (a.seq = b.seq → Within b.caps a.caps)
  newest : l.acks ≠ [] → l.acks.getLast? = l.told
  kept : ∀ m, l.told = some m → m.seq ≤ l.seen ∧ (m.seq = l.seen → l.held = m.caps)
  settled : ∀ m, l.told = some m → l.acks = [] → m.seq = l.cap.lastSent → l.cap.issued = m.caps ∧ l.cap.pending = m.caps

namespace Link
variable {l l' : Link}

private theorem inv_init : ({} : Link).Inv := by
  constructor <;> simp [Covers]
  exact ⟨by simp [Within], by simp, by simp⟩

section
variable (h : l.Inv)
include h

private theorem Inv.seq_of_mem {g : Msg} (hg : g ∈ l.grants) : l.seen < g.seq ∧ g.seq ≤ l.cap.lastSent := by
  have hm : g.seq ∈ l.grants.map (·.seq) := mem_map_of_mem hg
  rw [h.numbered, mem_range'_1] at hm
  omega

private theorem Inv.sent {r : Capability × Nat} (hr : r.2 = l.cap.lastSent + 1) (hs : l.cap.Sends r.1) :
    (l.sent r).Inv := by
  have hle := h.seen_le
  have hlast := hs.lastSent
  refine ⟨hs.ok h.ok, ?_, ?_, hs.widens hle h.held, ?_, ?_, h.acked_le, h.shrink, h.newest, h.kept, ?_⟩
  · simp only [Link.sent]
    omega
  · have hn : r.1.lastSent - l.seen = l.cap.lastSent - l.seen + 1 := by omega
    simp only [Link.sent, map_append, h.numbered, hn, range'_concat, map_cons]
    congr 2
    omega
  · exact forall_mem_append.2 ⟨fun g hg => hs.widens (h.seq_of_mem hg).2 (h.granted g hg),
      forall_mem_singleton.2 (Covers.of_sub (Within.refl _))⟩
  · intro a ha
    exact hs.widens ((h.acked_le a ha).1.trans hle) (h.acked a ha)
  · intro m hm _ hseq
    have := (h.kept m hm).1
    simp only [Link.sent] at hseq
    omega

private theorem Inv.deliver {g : Msg} {gs : List Msg} (hg : l.grants = g :: gs) :
    { l with held := g.caps, seen := g.seq, grants := gs }.Inv := by
  have hmem : g ∈ l.grants := by simp [hg]
  obtain ⟨hlt, hle⟩ := h.seq_of_mem hmem
  have hnum := h.numbered
  have hpos : l.cap.lastSent - l.seen = (l.cap.lastSent - l.seen - 1) + 1 := by omega
  rw [hg, hpos, range'_succ, map_cons, cons.injEq] at hnum
  refine ⟨h.ok, hle, ?_, h.granted g hmem, fun g' hg' => h.granted g' (by simp [hg, hg']), h.acked, ?_, h.shrink,
    h.newest, ?_, h.settled⟩
  · show gs.map (·.seq) = range' (g.seq + 1) (l.cap.lastSent - g.seq)
    rw [hnum.2, hnum.1]
    congr 1
  · intro a ha
    have := (h.acked_le a ha).1
    exact ⟨by show a.seq ≤ g.seq; omega, fun heq => by have : a.seq = g.seq := heq; omega⟩
  · intro m hm
    have := (h.kept m hm).1
    exact ⟨by show m.seq ≤ g.seq; omega, fun heq => by have : m.seq = g.seq := heq; omega⟩

private theorem Inv.ack (keep : CapSet) :
    { l with held := l.held &&& keep, acks := l.acks ++ [(⟨l.seen, l.held &&& keep⟩ : Msg)],
             told := some (⟨l.seen, l.held &&& keep⟩ : Msg) }.Inv := by
  have hsub : Within (l.held &&& keep) l.held := and_within_left _ _
  refine ⟨h.ok, h.seen_le, h.numbered, h.held.mono hsub, h.granted, ?_, ?_, ?_, by simp, ?_, by simp⟩
  · exact forall_mem_append.2 ⟨h.acked, forall_mem_singleton.2 (h.held.mono hsub)⟩
  · exact forall_mem_append.2 ⟨fun a ha => ⟨(h.acked_le a ha).1, fun heq => hsub.trans ((h.acked_le a ha).2 heq)⟩,
      forall_mem_singleton.2 ⟨le_refl _, fun _ => Within.refl _⟩⟩
  · refine pairwise_append.2 ⟨h.shrink, by simp, ?_⟩
    intro a ha b hb
    rw [mem_singleton.1 hb]
    exact ⟨(h.acked_le a ha).1, fun heq => hsub.trans ((h.acked_le a ha).2 heq)⟩
  · intro m hm
    cases hm
    exact ⟨le_refl _, fun _ => rfl⟩

private theorem Inv.confirm {a : Msg} {as : List Msg} (ha : l.acks = a :: as) :
    { l with cap := l.cap.confirmReceipt a.seq a.caps, acks := as }.Inv := by
  have hmem : a ∈ l.acks := by simp [ha]
  obtain ⟨hseen, hheld⟩ := h.acked_le a hmem
  have hle := h.seen_le
  have hshrink := h.shrink
  rw [ha, pairwise_cons] at hshrink
  have hmem' : ∀ b ∈ as, b ∈ l.acks := fun b hb => by simp [ha, hb]
  refine ⟨h.ok.confirm, by simpa using hle, by simpa using h.numbered, ?_, ?_, ?_,
    fun b hb => h.acked_le b (hmem' b hb), hshrink.2, ?_, h.kept, ?_⟩
  · exact h.held.confirm h.ok (hseen.trans hle) hseen hle hheld
  · intro g hg
    obtain ⟨hlt, hle'⟩ := h.seq_of_mem hg
    exact (h.granted g hg).confirm h.ok (by omega) (by omega) hle' fun heq => by omega
  · intro b hb
    have hbs := (h.acked_le b (hmem' b hb)).1
    exact (h.acked b (hmem' b hb)).confirm h.ok (by omega) (hshrink.1 b hb).1 (by omega) (hshrink.1 b hb).2
  · intro hne
    have hnew := h.newest (by simp [ha])
    rwa [ha, getLast?_cons_of_ne_nil hne] at hnew
  · intro m hm hnil hseq
    obtain rfl : as = [] := hnil
    have hnew := h.newest (by simp [ha])
    rw [ha, hm] at hnew
    obtain rfl : a = m := by simpa using hnew
    simp only [confirmReceipt_lastSent] at hseq
    have hcov := h.acked a hmem
    rw [hseq] at hcov
    rw [hseq, confirmReceipt_last]
    exact ⟨rfl, and_eq_of_within (h.ok.within_pending hcov)⟩

private theorem Inv.step {e : Event} (hs : l.step e = some l') : l'.Inv := by
  cases e with
  | issue c =>
    obtain ⟨cap', hc, -, hsend⟩ := l.cap.issue_spec c
    simp only [Link.step, hc, Option.map_some, Option.some.injEq] at hs
    subst hs
    exact h.sent rfl hsend
  | issueNorevoke c =>
    cases hs
    exact h.sent rfl (l.cap.issueNorevoke_spec c).2
  | setLastIssue =>
    cases hs
    exact { h with ok := { h.ok with } }
  | deliver =>
    simp only [Link.step] at hs
    split at hs
    · cases hs
    · rename_i hg
      cases hs
      exact h.deliver hg
  | ack keep =>
    cases hs
    exact h.ack keep
  | confirm =>
    simp only [Link.step] at hs
    split at hs
    · cases hs
    · rename_i ha
      cases hs
      exact h.confirm ha

end

/-- In every run the client holds only caps that the MDS counts as issued, and the assertion of `issue` holds. Once the
client has acknowledged the last grant and nothing is in flight, issued, pending and held caps are the same. -/
theorem held_within_issued {evs : List Event} (hrun : exec Link.step {} evs = some l) :
    Within l.held l.cap.issued ∧ (∀ c, (l.cap.issue c).isSome) ∧
      (l.grants = [] → l.acks = [] → (∃ m, l.told = some m ∧ m.seq = l.cap.lastSent) →
        l.cap.issued = l.cap.pending ∧ l.cap.pending = l.held) := by
  have h : l.Inv := exec_invariant_all (fun _ _ _ h hs => h.step hs) inv_init hrun
  refine ⟨h.ok.within_issued h.held, ?_, ?_⟩
  · intro c
    obtain ⟨cap', hc, -⟩ := l.cap.issue_spec c
    simp [hc]
  rintro hg hacks ⟨m, hm, hseq⟩
  obtain ⟨hi, hp⟩ := h.settled m hm hacks hseq
  have hseen : l.seen = l.cap.lastSent := by
    have hlen := congrArg length h.numbered
    have hle := h.seen_le
    simp only [hg, map_nil, length_nil, length_range'] at hlen
    omega
  exact ⟨hi.trans hp.symm, hp.trans ((h.kept m hm).2 (hseq.trans hseen.symm)).symm⟩

theorem held_within_issued_crossing :
    ∃ l, exec Link.step {} [.issue 7, .deliver, .issue 3, .ack 5, .confirm, .deliver, .ack 3, .confirm] = some l ∧
      l.held = 3 ∧ l.cap.issued = l.cap.pending ∧ l.cap.pending = l.held := by
  refine ⟨_, rfl, rfl, ?_⟩
  have hrun : exec Link.step {}
      [.issue 7, .deliver, .issue 3, .ack 5, .confirm, .deliver, .ack 3, .confirm] = some _ := rfl
  exact (held_within_issued hrun).2.2 rfl rfl ⟨_, rfl, rfl⟩

/-- In every run the grants in flight are those after the last one seen, each once and in order, and all caps in flight are
counted as issued. With no grant in flight, the client holds only pending caps. -/
theorem in_flight_within_issued {evs : List Event} (hrun : exec Link.step {} evs = some l) :
    l.grants.map (·.seq) = range' (l.seen + 1) (l.cap.lastSent - l.seen) ∧
      (∀ m ∈ l.grants ++ l.acks, Within m.caps l.cap.issued) ∧ (l.grants = [] → Within l.held l.cap.pending) := by
  have h : l.Inv := exec_invariant_all (fun _ _ _ h hs => h.step hs) inv_init hrun
  refine ⟨h.numbered, fun m hm => ?_, fun hg => ?_⟩
  · rcases mem_append.1 hm with hm | hm
    · exact h.ok.within_issued (h.granted m hm)
    · exact h.ok.within_issued (h.acked m hm)
  · have hlen := congrArg length h.numbered
    have hle := h.seen_le
    simp only [hg, map_nil, length_nil, length_range'] at hlen
    have hseen : l.seen = l.cap.lastSent := by omega
    exact h.ok.within_pending (hseen ▸ h.held)

theorem in_flight_within_issued_revoked : ∃ l, exec Link.step {} [.issue 7, .deliver, .ack 7, .issue 3] = some l ∧
      l.acks = [⟨1, 7⟩] ∧ l.cap.pending = 3 ∧ Within 7 l.cap.issued := by
  have hrun : exec Link.step {} [.issue 7, .deliver, .ack 7, .issue 3] = some _ := rfl
  exact ⟨_, rfl, rfl, rfl, (in_flight_within_issued hrun).2.1 ⟨1, 7⟩ (by decide)⟩

end Link
end Lunule.Caps
