import Lunule.Table.Ledger

/-!
# The invariant of one session

What the journals and the messages of one client have to do with the journal of the server. An agree is sent for a
durable prepare only, an acknowledgement for a durable commit only, and a client that has journaled an update keeps its
tid until the acknowledgement is journaled too. A transaction is *doomed* once the client has asked to roll it back;
`PeerInv.doomed` says that the client of a doomed transaction has not journaled it and never will. The agrees that a
client may still take up are its *live* ones: those it gets once it can number its prepares. None of them is doomed.
-/

namespace Lunule.Table
open Exec List ClientEvent
variable {M R : Type}

def agreesOf : List (Reply R) → List Nat
  | [] => []
  | .agree _ t _ :: l => t :: agreesOf l
  | .ack _ :: l => agreesOf l
  | .serverReady _ :: l => agreesOf l

/-- The tids of the agrees that come after the server is ready. -/
def agreesWhenReady : List (Reply R) → List Nat
  | [] => []
  | .serverReady _ :: l => agreesOf l
  | .agree _ _ _ :: l => agreesWhenReady l
  | .ack _ :: l => agreesWhenReady l

/-- The tids of the agrees that come before the server is ready. -/
def agreesBeforeReady : List (Reply R) → List Nat
  | [] => []
  | .serverReady _ :: _ => []
  | .agree _ t _ :: l => t :: agreesBeforeReady l
  | .ack _ :: l => agreesBeforeReady l

/-- A client without a request id has no prepare that an agree could match before the server is ready. -/
def matchable : Option Nat → List (Reply R) → List Nat
  | none, l => agreesWhenReady l
  | some _, l => agreesOf l

def LogEntry.agreeFor (c : Rank) (e : LogEntry M R) : Option Nat :=
  match e.onSafe with
  | some (d, .agree _ t _) => if d = c then some t else none
  | _ => none

def agreesFor (c : Rank) (l : List (LogEntry M R)) : List Nat := l.filterMap (LogEntry.agreeFor c)

section
variable {l l' : List (Reply R)} {last : Option Nat} {r t : Nat} {b : Option R}

@[simp] theorem agreesOf_append : agreesOf (l ++ l') = agreesOf l ++ agreesOf l' := by
  induction l with
  | nil => rfl
  | cons m l ih => cases m <;> simp [agreesOf, ih]

theorem mem_agreesOf : t ∈ agreesOf l ↔ ∃ r b, .agree r t b ∈ l := by
  induction l with
  | nil => simp [agreesOf]
  | cons m l ih =>
    cases m with
    | agree r' t' b' =>
      simp only [agreesOf, mem_cons, ih, Reply.agree.injEq]
      constructor
      · rintro (rfl | ⟨r, b, h⟩)
        · exact ⟨r', b', .inl ⟨rfl, rfl, rfl⟩⟩
        · exact ⟨r, b, .inr h⟩
      · rintro ⟨r, b, ⟨-, rfl, -⟩ | h⟩
        · exact .inl rfl
        · exact .inr ⟨r, b, h⟩
    | ack t' => simp [agreesOf, ih]
    | serverReady q => simp [agreesOf, ih]

variable (l)

theorem agreesOf_eq : agreesOf l = agreesBeforeReady l ++ agreesWhenReady l := by
  induction l with
  | nil => rfl
  | cons m l ih =>
    cases m with
    | agree r t b => exact congrArg (t :: ·) ih
    | ack t => exact ih
    | serverReady q => rfl

private theorem agreesWhenReady_sublist : (agreesWhenReady l).Sublist (agreesOf l) := by
  rw [agreesOf_eq]
  exact sublist_append_right _ _

theorem agreesBeforeReady_sublist : (agreesBeforeReady l).Sublist (agreesOf l) := by
  rw [agreesOf_eq]
  exact sublist_append_left _ _

variable {l}

theorem matchable_sublist (last : Option Nat) (l : List (Reply R)) : (matchable last l).Sublist (agreesOf l) := by
  cases last with
  | none => exact agreesWhenReady_sublist l
  | some n => exact List.Sublist.refl _

theorem agreesBeforeReady_append (l l' : List (Reply R)) :
    (agreesBeforeReady (l ++ l') = agreesBeforeReady l ∧ agreesWhenReady (l ++ l') = agreesWhenReady l ++ agreesOf l') ∨
      (agreesBeforeReady (l ++ l') = agreesBeforeReady l ++ agreesBeforeReady l' ∧ agreesWhenReady l = [] ∧
        agreesWhenReady (l ++ l') = agreesWhenReady l') := by
  induction l with
  | nil => exact .inr ⟨rfl, rfl, rfl⟩
  | cons m l ih =>
    cases m with
    | serverReady q => exact .inl ⟨rfl, agreesOf_append⟩
    | ack t => exact ih
    | agree r t b =>
      rcases ih with ⟨h1, h2⟩ | ⟨h1, h2⟩
      · exact .inl ⟨congrArg (t :: ·) h1, h2⟩
      · exact .inr ⟨congrArg (t :: ·) h1, h2⟩

theorem matchable_snoc_ack : matchable last (l ++ [.ack t]) = matchable last l := by
  cases last with
  | some n => simp [matchable, agreesOf]
  | none =>
    rcases agreesBeforeReady_append l [.ack t] with ⟨-, h⟩ | ⟨-, hl, h⟩
    · simpa [matchable, agreesOf] using h
    · simpa [matchable, agreesWhenReady, hl] using h

theorem matchable_snoc_agree (last : Option Nat) (l : List (Reply R)) (r t : Nat) (b : Option R) :
    (matchable last (l ++ [.agree r t b]) = matchable last l ++ [t] ∧
        (last = none → agreesBeforeReady (l ++ [.agree r t b]) = agreesBeforeReady l)) ∨
      (matchable last (l ++ [.agree r t b]) = [] ∧ matchable last l = [] ∧
        agreesBeforeReady (l ++ [.agree r t b]) = agreesBeforeReady l ++ [t]) := by
  cases last with
  | some n => exact .inl ⟨by simp [matchable, agreesOf], nofun⟩
  | none =>
    rcases agreesBeforeReady_append l [.agree r t b] with ⟨h1, h2⟩ | ⟨h1, hl, h2⟩
    · exact .inl ⟨h2, fun _ => h1⟩
    · exact .inr ⟨h2, hl, h1⟩

theorem matchable_append_right : (matchable last l').Sublist (matchable last (l ++ l')) := by
  cases last with
  | some n => simp [matchable]
  | none =>
    rcases agreesBeforeReady_append l l' with ⟨-, h⟩ | ⟨-, -, h⟩
    · simp only [matchable, h]
      exact (agreesWhenReady_sublist l').trans (sublist_append_right _ _)
    · simp [matchable, h]

theorem matchable_append_left : (matchable last l).Sublist (matchable last (l ++ l')) := by
  cases last with
  | some n => simp [matchable]
  | none =>
    rcases agreesBeforeReady_append l l' with ⟨-, h⟩ | ⟨-, hl, -⟩
    · simp [matchable, h]
    · simp [matchable, hl]

theorem agreesBeforeReady_append_left : (agreesBeforeReady l).Sublist (agreesBeforeReady (l ++ l')) := by
  rcases agreesBeforeReady_append l l' with ⟨h, -⟩ | ⟨h, -⟩ <;> simp [h]

theorem agreesWhenReady_recovery {q : Nat} (hl : ∀ q, .serverReady q ∉ l) (hl' : ∀ q, .serverReady q ∉ l') :
    agreesWhenReady (l ++ (l' ++ [.serverReady q])) = [] := by
  have key : ∀ k : List (Reply R), (∀ q, .serverReady q ∉ k) → agreesWhenReady (k ++ [.serverReady q]) = [] := by
    intro k hk
    induction k with
    | nil => rfl
    | cons m k ih =>
      cases m with
      | serverReady q' => exact absurd mem_cons_self (hk q')
      | agree r t b => exact ih fun q' h => hk q' (mem_cons_of_mem _ h)
      | ack t => exact ih fun q' h => hk q' (mem_cons_of_mem _ h)
  rw [← append_assoc]
  refine key (l ++ l') fun q' h => ?_
  rcases mem_append.1 h with h | h
  · exact hl q' h
  · exact hl' q' h

end

/-- The tids whose agree the client may still take up: in its channel, or about to be sent by a completion. -/
def Peer.live (p : Peer M R) (wait : List Nat) : List Nat := matchable p.client.lastReqid p.toClient ++ wait

/-- The invariant of the session of `c`, over the durable journal `D` and the whole journal `J` of the server, whose
completions will send the agrees `wait`. -/
structure PeerInv (up : Bool) (D J : List (ETableServer M)) (wait : List Nat) (c : Rank) (p : Peer M R) : Prop where
  down : p.up = false → p.toClient = [] ∧ p.journal.all = p.journal.durable
  serverDown : up = false → p.toServer = []
  agreed : ∀ r t b, .agree r t b ∈ p.toClient → Prepared D ⟨t, c, r⟩
  acked : ∀ t, .ack t ∈ p.toClient → Committed D t ∧ .update t ∈ p.journal.durable
  prepared : ∀ t r, (t, r) ∈ p.client.preparedUpdate → Prepared D ⟨t, c, r⟩
  logged : ∀ t, .update t ∈ p.journal.all → ∃ r, Prepared D ⟨t, c, r⟩
  committing : ∀ t ∈ p.client.pendingCommit, .update t ∈ p.journal.durable
  commits : ∀ t, .commit t ∈ p.toServer → .update t ∈ p.journal.durable
  loggedAck : ∀ t, .ack t ∈ p.journal.all → Committed D t ∧ .update t ∈ p.journal.durable
  /-- a journaled update is remembered until its acknowledgement is journaled -/
  held : p.up = true → ∀ t, .update t ∈ p.journal.all →
    .ack t ∈ p.journal.all ∨ p.client.isPrepared t = true ∨ t ∈ p.client.pendingCommit
  rollbacks : ∀ t, .rollback t ∈ p.toServer → ∃ r, Prepared D ⟨t, c, r⟩
  unnumbered : p.client.lastReqid = none → p.client.pendingPrepare = []
  recovering : p.up = true → p.recovering = true → p.client.lastReqid = none ∧ ∀ q, .serverReady q ∉ p.toClient
  /-- an acknowledgement never overtakes an agree -/
  order : ∀ l₁ r t b l₂, p.toClient = l₁ ++ .agree r t b :: l₂ → .ack t ∉ l₁ ∧ .ack t ∉ p.journal.all
  liveNodup : (p.live wait).Nodup
  /-- what comes before the server is ready is not taken up, nor does it come again later -/
  stale : p.client.lastReqid = none → ∀ t ∈ agreesBeforeReady p.toClient, t ∉ p.live wait
  liveSafe : ∀ t ∈ p.live wait, .rollback t ∉ p.toServer ∧ ¬ RolledBack J t
  waitFresh : ∀ t ∈ wait, .update t ∉ p.journal.all ∧ p.client.isPrepared t = false
  doomed : ∀ t r, Prepared J ⟨t, c, r⟩ → .rollback t ∈ p.toServer ∨ RolledBack J t →
    .update t ∉ p.journal.all ∧ p.client.isPrepared t = false

namespace MDSTableClient
variable {cl : MDSTableClient M} {t : Nat}

theorem isPrepared_iff : cl.isPrepared t = true ↔ ∃ r, (t, r) ∈ cl.preparedUpdate := by
  simp [isPrepared]

theorem isPrepared_eq_false : cl.isPrepared t = false ↔ ∀ r, (t, r) ∉ cl.preparedUpdate := by
  rw [← Bool.not_eq_true, isPrepared_iff, not_exists]

theorem mem_insertTid {u : Nat} {l : List Nat} : u ∈ insertTid t l ↔ u = t ∨ u ∈ l := by
  induction l with
  | nil => simp [insertTid]
  | cons a l ih =>
    unfold insertTid
    split
    · simp
    split
    · rename_i h
      subst h
      simp
    · simp only [mem_cons, ih]
      exact or_left_comm

end MDSTableClient

/-- The replay of a client's journal keeps the tids that were journaled and not acknowledged. -/
theorem mem_pendingCommit_replay (l : List ClientEvent) (cl : MDSTableClient M) (t : Nat) :
    (t ∈ (l.foldl replay cl).pendingCommit → t ∈ cl.pendingCommit ∨ .update t ∈ l) ∧
      (t ∈ cl.pendingCommit ∨ .update t ∈ l → .ack t ∈ l ∨ t ∈ (l.foldl replay cl).pendingCommit) := by
  induction l generalizing cl with
  | nil => simp
  | cons e l ih =>
    obtain ⟨ih1, ih2⟩ := ih (replay cl e)
    rw [foldl_cons]
    cases e with
    | update u =>
      simp only [replay, MDSTableClient.gotJournaledAgree, MDSTableClient.mem_insertTid] at ih1 ih2 ⊢
      simp only [mem_cons, update.injEq, reduceCtorEq, false_or]
      rw [or_assoc, or_left_comm] at ih1 ih2
      exact ⟨ih1, ih2⟩
    | ack u =>
      simp only [replay, MDSTableClient.gotJournaledAck, mem_filter, bne_iff_ne] at ih1 ih2 ⊢
      simp only [mem_cons, ack.injEq, reduceCtorEq, false_or]
      refine ⟨fun h => (ih1 h).imp_left And.left, fun h => ?_⟩
      by_cases htu : t = u
      · exact .inl (.inl htu)
      · exact (ih2 (h.imp_left fun h => ⟨h, htu⟩)).imp_left .inr

theorem replay_client_eq (l : List ClientEvent) (cl : MDSTableClient M) :
    l.foldl replay cl = { cl with pendingCommit := (l.foldl replay cl).pendingCommit } := by
  induction l generalizing cl with
  | nil => rfl
  | cons e l ih =>
    rw [foldl_cons, ih]
    cases e <;> rfl

end Lunule.Table
