import Lunule.Pg.Store

/-!
# Merging an authoritative log

The local log and the authoritative one are two continuations of one history: `pre ++ d` and `pre ++ n`. `merge_log` takes
`d` off, puts `n` on, and brings missing set and store from the first to the second, object by object.
-/

namespace Lunule.Pg
open List Option Function MissingSet LogEntry
open Std (ExtTreeMap)
open Writeback (takeWhile_eq_filter dropWhile_eq_filter rtakeWhile_eq_filter rdropWhile_eq_filter)
variable {ο : Type} [LinearOrder ο]

/-- The entries of an object that count. -/
def hist (o : ο) (l : List (LogEntry ο)) : List (LogEntry ο) := l.filter fun e => e.soid = o ∧ e.objectIsIndexed

section
variable {m : MissingSet ο} {e : LogEntry ο} {S : ο → Option Eversion} {l : PgLog ο}

private theorem hist_append (o : ο) (l l' : List (LogEntry ο)) :
    hist o (l ++ l') = hist o l ++ hist o l' := filter_append ..

private theorem addNextEvent_spec (hb : ¬e.isBacklog) :
    ∃ m', m.addNextEvent e = some m' ∧ m'.may_include_deletes = m.may_include_deletes ∧
      ∀ o, m'.missing[o]? = if e.soid = o then some ⟨e.version,
        if e.prior_version = .zero ∨ e.isClone then .zero else m.missing[o]?.elim e.prior_version MissingItem.have',
        e.isDelete⟩ else m.missing[o]? := by
  unfold addNextEvent
  cases hm : m.missing[e.soid]? with
  | none =>
    refine ⟨m.add e.soid e.version (if e.prior_version = .zero ∨ e.isClone then .zero else e.prior_version) e.isDelete, ?_,
      rfl, fun o => ?_⟩
    · split_ifs <;> rfl
    · rw [missing_add]
      by_cases ho : e.soid = o
      · simp [← ho, hm]
      · simp [ho]
  | some item =>
    refine ⟨m.replace e.soid item ⟨e.version, if e.prior_version = .zero ∨ e.isClone then .zero else item.have', e.isDelete⟩,
      ?_, rfl, fun o => ?_⟩
    · split_ifs <;> rfl
    · rw [missing_replace]
      by_cases ho : e.soid = o
      · simp [← ho, hm]
      · simp [ho]

private theorem updateMissing_spec (hb : ¬e.isBacklog) :
    ∃ m' acts, updateMissing ⊤ false e m = some (m', acts) ∧ m'.may_include_deletes = m.may_include_deletes ∧
      ∀ o, (m'.missing[o]?, runActs S acts o) =
        (hist o [e]).foldl (onAppend m.may_include_deletes) (m.missing[o]?, S o) := by
  unfold updateMissing
  cases herr : e.isError with
  | true =>
    refine ⟨m, [], by simp, rfl, fun o => ?_⟩
    have hnil : hist o [e] = [] := by simp [hist, objectIsIndexed, herr]
    rw [hnil]
    rfl
  | false =>
    have hhist : ∀ o, hist o [e] = if e.soid = o then [e] else [] := by
      intro o
      by_cases ho : e.soid = o <;> simp [hist, objectIsIndexed, herr, ho]
    rw [if_pos (by simp)]
    obtain ⟨m', hm', hmay', hget⟩ := addNextEvent_spec (m := m) hb
    have hkept (hyes : m.may_include_deletes = true ∨ ¬e.isDelete = true) (o : ο) : (m'.missing[o]?, S o) =
        (hist o [e]).foldl (onAppend m.may_include_deletes) (m.missing[o]?, S o) := by
      rw [hget, hhist]
      by_cases ho : e.soid = o
      · rw [if_pos ho, if_pos ho, foldl_cons, foldl_nil, onAppend, if_pos hyes]
      · rw [if_neg ho, if_neg ho]
        rfl
    by_cases hmay : m.may_include_deletes = true
    · rw [if_pos hmay, hm', map_some]
      exact ⟨m', [], rfl, hmay', hkept (.inl hmay)⟩
    rw [if_neg hmay]
    simp only [Bool.false_eq_true, false_and, if_false]
    cases hdel : e.isDelete with
    | true =>
      simp only [if_true]
      refine ⟨_, _, rfl, ?_, fun o => ?_⟩
      · unfold rm
        split
        · rfl
        · split <;> rfl
      · rw [missing_rm, hhist, runActs_remove]
        by_cases ho : e.soid = o
        · rw [if_pos ho, if_pos ho, foldl_cons, foldl_nil, onAppend, if_neg (by simp [hdel, hmay]), ho, update_self]
        · rw [if_neg ho, if_neg ho, update_of_ne (Ne.symm ho)]
          rfl
    | false =>
      simp only [hm']
      exact ⟨m', [], rfl, hmay', hkept (.inr (by simp [hdel]))⟩

/-- Entries that go on top of a log one after the other, by version and by number. -/
def Stacked (head : Eversion) (n : List (LogEntry ο)) : Prop :=
  (∀ e ∈ n, head < e.version ∧ head.version < e.version.version) ∧
    n.Pairwise fun a c => a.version < c.version ∧ a.version.version < c.version.version

theorem appendLogEntries_total {n : List (LogEntry ο)} (hstack : Stacked l.head n) (hb : ∀ e ∈ n, ¬e.isBacklog) :
    ∃ l' m' acts, appendLogEntries ⊤ false n l m = some (l', m', acts) ∧ l'.log = l.log ++ n ∧
      m'.may_include_deletes = m.may_include_deletes ∧
      ∀ o, (m'.missing[o]?, runActs S acts o) =
        (hist o n).foldl (onAppend m.may_include_deletes) (m.missing[o]?, S o) := by
  induction n generalizing l m S with
  | nil => exact ⟨l, m, [], rfl, by simp, rfl, fun o => rfl⟩
  | cons e n ih =>
    obtain ⟨habove, hsorted⟩ := hstack
    obtain ⟨hlt, hnum⟩ := habove e (by simp)
    obtain ⟨hfirst, hrest⟩ := pairwise_cons.1 hsorted
    have hadd : l.add e true = some { l with log := l.log ++ [e], head := e.version } := by
      unfold PgLog.add
      rw [if_pos ⟨.inl rfl, hlt, .inr hnum⟩]
      rfl
    obtain ⟨m1, acts1, hup, hmay1, hget1⟩ := updateMissing_spec (m := m) (S := S) (hb e (by simp))
    obtain ⟨l', m', acts, happ, hlog, hmay', hget'⟩ :=
      ih (l := { l with log := l.log ++ [e], head := e.version }) (m := m1) (S := runActs S acts1) ⟨hfirst, hrest⟩
        (forall_mem_cons.1 hb).2
    refine ⟨l', m', acts1 ++ acts, appendLogEntries_cons.2 ⟨_, m1, acts1, (l', m', acts), hadd, hup, happ, rfl⟩, ?_,
      hmay'.trans hmay1, fun o => ?_⟩
    · rw [hlog, append_assoc, singleton_append]
    · have hsplit : hist o (e :: n) = hist o [e] ++ hist o n := hist_append o [e] n
      rw [hsplit, List.foldl_append, ← hget1 o, ← hmay1, ← hget' o, runActs_append]

end

/-!
### One object
-/

section
variable {m : MissingSet ο} {S : ο → Option Eversion} {log : PgLog ο} {hoid : ο} {crt : Eversion}
  {orig : List (LogEntry ο)} {first : LogEntry ο} {rest : List (LogEntry ο)} {b : Option Eversion}

private theorem stripErrors_total {l : List (LogEntry ο)} {atBegin seen : Bool} {last : Eversion} (isFirst : Bool)
    (hsoid : ∀ e ∈ l, e.soid = hoid) (hsorted : l.Pairwise fun a c => a.version < c.version)
    (hlast : ∀ e ∈ l, last < e.version) (hc : Chained b isFirst (l.filter (!·.isError)))
    (hseen : seen = true → isFirst = false ∧ (b = none ∨ b = some last)) :
    stripErrors hoid l atBegin seen last = some (l.filter (!·.isError)) := by
  induction l generalizing atBegin seen last b isFirst with
  | nil => rfl
  | cons i is ih =>
    obtain ⟨hafter, hsorted'⟩ := pairwise_cons.1 hsorted
    have hsoid' := (forall_mem_cons.1 hsoid).2
    cases herr : i.isError with
    | true =>
      rw [filter_cons_of_neg (by rw [herr]; decide)] at hc ⊢
      rw [stripErrors, if_pos ⟨hsoid i (by simp), fun _ => ⟨hlast i (by simp), .inr herr⟩⟩, if_pos herr]
      exact ih _ hsoid' hsorted' (forall_mem_cons.1 hlast).2 hc hseen
    | false =>
      rw [filter_cons_of_pos (by rw [herr]; rfl)] at hc ⊢
      have hok : (!atBegin && i.prior_version ≠ .zero && !(!seen && !i.isError)) = true →
          last < i.version ∧ (i.prior_version = last ∨ i.isError = true) := by
        intro hchk
        simp only [herr, Bool.and_eq_true, Bool.not_false, Bool.and_true, decide_eq_true_eq, Bool.not_not] at hchk
        obtain ⟨⟨-, hprior⟩, hs⟩ := hchk
        obtain ⟨hfirst, hb⟩ := hseen hs
        refine ⟨hlast i (by simp), .inl ?_⟩
        have hp : i.prior_version = b.getD .zero := by
          rcases hc.1.2 with hp | ⟨-, hf⟩
          · exact hp
          · rw [hfirst] at hf
            cases hf
        rcases hb with hb | hb
        · rw [hb] at hp
          exact absurd hp hprior
        · rw [hp, hb]
          rfl
      have hnext : stripErrors hoid is false true i.version = some (is.filter (!·.isError)) := by
        refine ih _ hsoid' hsorted' hafter hc.2 fun _ => ⟨rfl, ?_⟩
        unfold LogEntry.after
        split
        · exact .inl rfl
        · exact .inr rfl
      rw [stripErrors, if_pos ⟨hsoid i (by simp), hok⟩, if_neg (by rw [herr]; decide), hnext]
      rfl

private theorem runActs_removal (last : LogEntry ο) (es : List (LogEntry ο))
    (hst : m.isMissing hoid = none → last.isDelete → S hoid = none) :
    runActs S ((if (m.isMissing hoid).isNone && last.isDelete then [] else [Act.remove hoid]) ++ es.map Act.trim) =
      Function.update S hoid none := by
  rw [runActs_append, runActs_trims]
  split
  · rename_i h
    rw [Bool.and_eq_true, isNone_iff_eq_none] at h
    funext o
    by_cases ho : o = hoid
    · rw [ho, update_self]
      exact hst h.1 h.2
    · rw [update_of_ne ho]
      rfl
  · rfl

/-- What merging the divergent entries of an object has to achieve. -/
def Merged (m : MissingSet ο) (S : ο → Option Eversion) (hoid : ο) (cur lat : Option Eversion)
    (r : Option (MissingSet ο × List (Act ο))) : Prop :=
  ∃ m' acts, r = some (m', acts) ∧ m'.may_include_deletes = m.may_include_deletes ∧
    (∀ o, o ≠ hoid → m'.missing[o]? = m.missing[o]? ∧ runActs S acts o = S o) ∧
    Matches m.may_include_deletes cur lat m'.missing[hoid]? (runActs S acts hoid)

private theorem merged_of {m' : MissingSet ο} {acts : List (Act ο)} {cur lat v : Option Eversion}
    {item : ο → Option MissingItem} (hmay : m'.may_include_deletes = m.may_include_deletes)
    (hget : ∀ o, m'.missing[o]? = if hoid = o then item o else m.missing[o]?)
    (hacts : runActs S acts = Function.update S hoid v) (hm : Matches m.may_include_deletes cur lat (item hoid) v) :
    Merged m S hoid cur lat (some (m', acts)) := by
  refine ⟨m', acts, rfl, hmay, fun o ho => ?_, ?_⟩
  · rw [hget, if_neg ho.symm, hacts, update_of_ne ho]
    exact ⟨rfl, rfl⟩
  · rwa [hget, if_pos rfl, hacts, update_self]

/-- Case 1: the object has newer entries, the last of which left its need. -/
theorem mergeObject_newer {newer : LogEntry ο} (hne : orig ≠ [])
    (hstrip : stripErrors hoid orig true false .zero = some (first :: rest)) (hobj : log.objects hoid = some newer)
    (hlt : ∀ e ∈ first :: rest, e.version < newer.version) (hop : newer.objectIsIndexed)
    (hneed : m.missing[hoid]?.map MissingItem.need =
      if m.may_include_deletes ∨ ¬newer.isDelete then some newer.version else none)
    (hst : ¬(m.may_include_deletes ∨ ¬newer.isDelete) → S hoid = none) :
    Merged m S hoid newer.after (some newer.version)
      (mergeObjectDivergentEntries log hoid orig ⊤ crt m) := by
  have hfilter : (log.objects hoid).filter (fun newer => first.version ≤ newer.version) = some newer := by
    rw [hobj]
    simp [(hlt first (by simp)).le]
  have hneeded : (newer.isUpdate || (m.may_include_deletes && newer.isDelete)) =
      decide (m.may_include_deletes ∨ ¬newer.isDelete) := by
    rw [isUpdate_eq hop]
    cases newer.isDelete <;> cases m.may_include_deletes <;> rfl
  have hgone : m.isMissing hoid = none → S hoid = none := by
    intro hnone
    refine hst fun hyes => ?_
    rw [if_pos hyes] at hneed
    rw [isMissing] at hnone
    rw [hnone] at hneed
    cases hneed
  have hlast := getLast_mem (l := first :: rest) (by simp)
  unfold mergeObjectDivergentEntries
  rw [if_neg (by simp), if_neg hne, hstrip]
  dsimp only
  rw [hfilter]
  dsimp only
  rw [hneeded, if_pos ⟨hlt _ hlast, by rw [isMissing, hneed]; simp⟩]
  have hacts := runActs_removal (S := S) (m := m) ((first :: rest).getLast (by simp)) (first :: rest)
    fun h _ => hgone h
  refine merged_of ?_ (fun _ => missing_reviseHave) hacts ?_
  · unfold reviseHave
    split <;> rfl
  cases hitem : m.missing[hoid]? with
  | none =>
    rw [hitem] at hneed
    have hdel : ¬(m.may_include_deletes ∨ ¬newer.isDelete) := by
      intro hyes
      rw [if_pos hyes] at hneed
      cases hneed
    rw [not_or, not_not] at hdel
    rw [after_of_delete hdel.2]
    exact rfl
  | some i =>
    rw [hitem, map_some] at hneed
    split at hneed
    · rename_i hyes
      refine ⟨hneed, .inl rfl, fun hmay => ?_⟩
      have hnd : ¬newer.isDelete := hyes.resolve_left (by rw [hmay]; decide)
      rw [after_of_not_delete hnd]
      exact ⟨rfl, by simp, rfl⟩
    · cases hneed

/-- Cases 2 to 5: the object goes back to its version before the oldest divergent entry. -/
theorem mergeObject_back {isFirst : Bool} {cur lat cur' lat' : Option Eversion} (hne : orig ≠ [])
    (hstrip : stripErrors hoid orig true false .zero = some (first :: rest)) (hsoid : ∀ e ∈ first :: rest, e.soid = hoid)
    (hobj : ∀ older ∈ log.objects hoid, older.version < first.version) (hf : first.Follows cur isFirst)
    (hcur : ∀ v ∈ cur, v ≠ .zero) (hlat : ∀ v, cur = some v → lat = some v)
    (hcur' : ((first :: rest).getLast (by simp)).isDelete → cur' = none)
    (hm : Matches m.may_include_deletes cur' lat' m.missing[hoid]? (S hoid)) :
    Merged m S hoid cur lat (mergeObjectDivergentEntries log hoid orig ⊤ crt m) := by
  have hfilter : (log.objects hoid).filter (fun newer => first.version ≤ newer.version) = none := by
    rw [filter_eq_none_iff]
    intro older hold
    simpa using hobj older hold
  have hgone : m.isMissing hoid = none → ((first :: rest).getLast (by simp)).isDelete → S hoid = none := by
    intro hnone hdel
    rw [isMissing] at hnone
    rw [hnone] at hm
    exact hm.trans (hcur' hdel)
  have hacts := runActs_removal (S := S) (m := m) ((first :: rest).getLast (by simp)) (first :: rest) hgone
  unfold mergeObjectDivergentEntries
  rw [if_neg (by simp), if_neg hne, hstrip]
  dsimp only
  rw [hfilter]
  by_cases hcreate : first.prior_version = .zero ∨ first.isClone
  · -- case 2
    rw [if_pos hcreate]
    have hnone := hf.created hcur hcreate
    cases hitem : m.isMissing hoid with
    | none =>
      rw [hitem] at hacts
      refine merged_of rfl (fun _ => (ite_self _).symm) hacts ?_
      rw [isMissing] at hitem
      rw [hitem, hnone]
      exact rfl
    | some item =>
      rw [hitem] at hacts
      exact merged_of rfl (fun _ => missing_rmAt) hacts hnone.symm
  · rw [if_neg hcreate]
    have hprior := hf.modified hcreate
    have hpriorlat := hlat _ hprior
    have hpos : first.prior_version ≠ .zero := fun h0 => hcreate (.inl h0)
    cases hitem : m.isMissing hoid with
    | some item =>
      rw [isMissing] at hitem
      rw [hitem] at hm
      obtain ⟨-, hhave, hmore⟩ := hm
      have htrims : runActs S ((first :: rest).map Act.trim) = Function.update S hoid (S hoid) := by
        rw [runActs_trims, update_eq_self]
      dsimp only
      by_cases heq : item.have' = first.prior_version
      · -- case 3, with the version before in the store
        rw [if_pos heq]
        refine merged_of rfl (fun _ => missing_rmAt) htrims ?_
        rw [hprior, ← heq]
        exact hhave.resolve_left (heq ▸ hpos)
      -- case 3 otherwise
      rw [if_neg heq]
      have hrev : m.reviseNeed hoid first.prior_version false =
          m.replace hoid item ⟨first.prior_version, item.have', false⟩ := by
        unfold reviseNeed
        rw [hitem]
      rw [hrev]
      refine merged_of rfl (fun _ => missing_replace) htrims
        ⟨hpriorlat.symm, hhave, fun hmay => ⟨hprior.trans hpriorlat.symm, ?_, (hmore hmay).2.2⟩⟩
      rw [(hmore hmay).2.2, hprior]
      unfold storeOf
      split
      · simp
      · intro hsome
        exact heq (Option.some.inj hsome)
    | none =>
      rw [hitem] at hacts
      by_cases hroll : ∀ i ∈ first :: rest, i.canRollback ∧ crt < i.version
      · -- case 4
        rw [if_pos hroll]
        have hback := runActs_rollbacks (S := S) hsoid
        rw [if_neg hcreate] at hback
        refine merged_of rfl (fun _ => (ite_self _).symm) hback ?_
        rw [isMissing] at hitem
        rw [hitem]
        exact hprior.symm
      · -- case 5
        rw [if_neg hroll]
        refine merged_of rfl (fun _ => missing_add) hacts
          ⟨hpriorlat.symm, .inl rfl, fun _ => ⟨hprior.trans hpriorlat.symm, ?_, rfl⟩⟩
        rw [hprior]
        simp

end

/-!
### All objects
-/

section
variable {m : MissingSet ο} {S : ο → Option Eversion} {log : PgLog ο} {crt : Eversion}

private theorem foldlM_merged (cur lat : ο → Option Eversion) (log : PgLog ο) (crt : Eversion)
    {l : List (ο × List (LogEntry ο))} (hnd : (l.map Prod.fst).Nodup)
    (hobj : ∀ i ∈ l, ∀ (m1 : MissingSet ο) (S1 : ο → Option Eversion),
      m1.may_include_deletes = m.may_include_deletes → m1.missing[i.1]? = m.missing[i.1]? → S1 i.1 = S i.1 →
      Merged m1 S1 i.1 (cur i.1) (lat i.1) (mergeObjectDivergentEntries log i.1 i.2 ⊤ crt m1))
    (m1 : MissingSet ο) (S1 : ο → Option Eversion) (done : List (Act ο))
    (hmay : m1.may_include_deletes = m.may_include_deletes)
    (hsame : ∀ i ∈ l, m1.missing[i.1]? = m.missing[i.1]? ∧ S1 i.1 = S i.1) :
    ∃ m' acts, l.foldlM (fun (s : MissingSet ο × List (Act ο)) (i : ο × List (LogEntry ο)) =>
        (mergeObjectDivergentEntries log i.1 i.2 ⊤ crt s.1).map fun r => (r.1, s.2 ++ r.2)) (m1, done) =
          some (m', done ++ acts) ∧ m'.may_include_deletes = m.may_include_deletes ∧
      (∀ i ∈ l, Matches m.may_include_deletes (cur i.1) (lat i.1) m'.missing[i.1]? (runActs S1 acts i.1)) ∧
      ∀ o, o ∉ l.map Prod.fst → m'.missing[o]? = m1.missing[o]? ∧ runActs S1 acts o = S1 o := by
  induction l generalizing m1 S1 done with
  | nil => exact ⟨m1, [], by simp, hmay, by simp, fun o _ => ⟨rfl, rfl⟩⟩
  | cons i l ih =>
    obtain ⟨hi, hnd'⟩ := nodup_cons.1 hnd
    obtain ⟨hm1, hS1⟩ := hsame i (by simp)
    obtain ⟨m2, acts2, hrun, hmay2, hother, hmatch⟩ := hobj i (by simp) m1 S1 hmay hm1 hS1
    have hne : ∀ j ∈ l, j.1 ≠ i.1 := fun j hj heq => hi (heq ▸ List.mem_map_of_mem hj)
    obtain ⟨m', acts, hfold, hmay', hall, hrest⟩ := ih hnd' (forall_mem_cons.1 hobj).2 m2
      (runActs S1 acts2) (done ++ acts2) (hmay2.trans hmay) fun j hj => by
        obtain ⟨hmj, hSj⟩ := hsame j (mem_cons_of_mem _ hj)
        obtain ⟨hmo, hSo⟩ := hother j.1 (hne j hj)
        exact ⟨hmo.trans hmj, hSo.trans hSj⟩
    refine ⟨m', acts2 ++ acts, ?_, hmay', ?_, ?_⟩
    · rw [foldlM_cons, hrun, map_some, bind_eq_bind, bind_some, hfold, append_assoc]
    · intro j hj
      rw [runActs_append]
      rcases mem_cons.1 hj with rfl | hj
      · obtain ⟨hmj, hSj⟩ := hrest j.1 hi
        rw [hmj, hSj, ← hmay]
        exact hmatch
      · exact hall j hj
    · intro o ho
      rw [map_cons, mem_cons, not_or] at ho
      obtain ⟨hmo, hSo⟩ := hrest o ho.2
      obtain ⟨hmi, hSi⟩ := hother o ho.1
      rw [runActs_append]
      exact ⟨hmo.trans hmi, hSo.trans hSi⟩

/-- Two continuations of one history, the first of which is the local one. -/
structure Forked (pre d n : List (LogEntry ο)) (base : ο → Option Eversion) (m : MissingSet ο) (S : ο → Option Eversion) :
    Prop where
  chained_d : ∀ o, Chained (base o) true (hist o (pre ++ d))
  chained_n : ∀ o, Chained (base o) true (hist o (pre ++ n))
  sorted_d : (pre ++ d).Pairwise fun a c => a.version < c.version
  sorted_n : (pre ++ n).Pairwise fun a c => a.version < c.version
  newer : ∀ a ∈ d, ∀ e ∈ n, a.version < e.version
  pos : ∀ e ∈ pre ++ (d ++ n), .zero < e.version
  base_lt : ∀ o, ∀ v ∈ base o, v ≠ .zero ∧ ∀ e ∈ n, v < e.version
  stored_lt : ∀ o, ∀ v ∈ S o, ∀ e ∈ n, v < e.version
  consistent : ∀ o, Matches m.may_include_deletes (currentOf (base o) (hist o (pre ++ d)))
    (latestOf (base o) (hist o (pre ++ d))) m.missing[o]? (S o)

variable {pre d n : List (LogEntry ο)} {base : ο → Option Eversion} {m1 : MissingSet ο} {S1 : ο → Option Eversion}
  {o : ο}

variable {l : List (LogEntry ο)}

private theorem mem_of_mem_hist {e : LogEntry ο} (he : e ∈ hist o l) : e ∈ l ∧ e.soid = o ∧ e.objectIsIndexed := by
  obtain ⟨hmem, hp⟩ := mem_filter.1 he
  exact ⟨hmem, of_decide_eq_true hp⟩

private theorem hist_sorted (h : l.Pairwise fun a c => a.version < c.version) :
    (hist o l).Pairwise fun a c => a.version < c.version := h.filter _

section
variable (h : Forked pre d n base m S)
include h

private theorem Forked.current_ne (o : ο) : ∀ v ∈ currentOf (base o) (hist o pre), v ≠ .zero := by
  intro v hv
  rcases currentOf_mem hv with hv | ⟨e, he, rfl⟩
  · exact (h.base_lt o v hv).1
  · exact (h.pos e (mem_append_left _ (mem_of_mem_hist he).1)).ne'

private theorem Forked.appended (hdo : hist o d = []) :
    Matches m.may_include_deletes (currentOf (base o) (hist o (pre ++ n))) (latestOf (base o) (hist o (pre ++ n)))
      ((hist o n).foldl (onAppend m.may_include_deletes) (m.missing[o]?, S o)).1
      ((hist o n).foldl (onAppend m.may_include_deletes) (m.missing[o]?, S o)).2 := by
  have hold := h.consistent o
  rw [hist_append, hdo, append_nil] at hold
  have hn := h.chained_n o
  have hsorted := hist_sorted (o := o) h.sorted_n
  rw [hist_append] at hn hsorted ⊢
  refine hold.foldl_append hn (fun v hv => ⟨(h.base_lt o v hv).1, fun e he => ?_⟩) (fun e he => ?_) hsorted
    fun v hv e he => ?_
  · exact (h.base_lt o v hv).2 e (mem_of_mem_hist he).1
  · rw [← hist_append] at he
    rcases mem_append.1 (mem_of_mem_hist he).1 with he | he
    · exact (h.pos e (mem_append_left _ he)).ne'
    · exact (h.pos e (mem_append_right _ (mem_append_right _ he))).ne'
  · exact h.stored_lt o v hv e (mem_of_mem_hist he).1

/-- One object of the divergent entries, after the new entries were appended. -/
theorem Forked.merged (hlog : log.log = pre ++ n)
    (hmay : m1.may_include_deletes = m.may_include_deletes) (hne : entriesOf o d ≠ [])
    (happ : (m1.missing[o]?, S1 o) = (hist o n).foldl (onAppend m.may_include_deletes) (m.missing[o]?, S o)) :
    Merged m1 S1 o (currentOf (base o) (hist o (pre ++ n))) (latestOf (base o) (hist o (pre ++ n)))
      (mergeObjectDivergentEntries log o (entriesOf o d) ⊤ crt m1) := by
  have hobj : log.objects o = (hist o (pre ++ n)).getLast? := by
    rw [← hlog]
    rfl
  have hfilter : (entriesOf o d).filter (!·.isError) = hist o d := by
    unfold entriesOf hist
    rw [List.filter_filter]
    congr 1
    funext e
    cases herr : e.isError <;> simp [objectIsIndexed, herr]
  have hd := h.chained_d o
  rw [hist_append, chained_append] at hd
  have hstrip : stripErrors o (entriesOf o d) true false .zero = some (hist o d) := by
    rw [← hfilter]
    refine stripErrors_total (b := currentOf (base o) (hist o pre)) (true && (hist o pre).isEmpty) ?_ ?_ ?_ ?_
      nofun
    · exact fun e he => of_decide_eq_true (mem_filter.1 he).2
    · exact ((pairwise_append.1 h.sorted_d).2.1).filter _
    · exact fun e he => h.pos e (mem_append_right _ (mem_append_left _ (mem_filter.1 he).1))
    · rw [hfilter]
      exact hd.2
  have hitem : m1.missing[o]? = ((hist o n).foldl (onAppend m.may_include_deletes) (m.missing[o]?, S o)).1 :=
    congrArg Prod.fst happ
  have hstored : S1 o = ((hist o n).foldl (onAppend m.may_include_deletes) (m.missing[o]?, S o)).2 :=
    congrArg Prod.snd happ
  have hold := h.consistent o
  cases hdo : hist o d with
  | nil =>
    -- errors only
    rw [hdo] at hstrip
    refine ⟨m1, [], ?_, rfl, fun o _ => ⟨rfl, rfl⟩, ?_⟩
    · unfold mergeObjectDivergentEntries
      rw [if_neg (by simp), if_neg hne, hstrip]
    · rw [hmay, runActs_nil, hitem, hstored]
      exact h.appended hdo
  | cons first rest =>
    rw [hdo] at hstrip hd
    have hmemd : ∀ e ∈ first :: rest, e ∈ d ∧ e.soid = o ∧ e.objectIsIndexed := fun e he => mem_of_mem_hist (hdo ▸ he)
    rcases eq_nil_or_concat (hist o n) with hno | ⟨n', newer, hno⟩
    · rw [hno] at hitem hstored
      rw [hist_append, hno, append_nil] at hobj ⊢
      have hold' : Matches m1.may_include_deletes (currentOf (base o) (hist o (pre ++ d)))
          (latestOf (base o) (hist o (pre ++ d))) m1.missing[o]? (S1 o) := by
        rw [hmay, hitem, hstored]
        exact hold
      refine mergeObject_back hne hstrip (fun e he => (hmemd e he).2.1) ?_ hd.2.1 (h.current_ne o)
        (fun v hv => latestOf_eq_of_currentOf hv) ?_ hold'
      · intro older hmem
        rw [hobj] at hmem
        exact (pairwise_append.1 h.sorted_d).2.2 older (mem_of_mem_hist (List.mem_of_getLast? hmem)).1 first
          (hmemd first (by simp)).1
      · intro hdel
        have hlast : hist o (pre ++ d) =
            (hist o pre ++ (first :: rest).dropLast) ++ [(first :: rest).getLast (by simp)] := by
          rw [hist_append, hdo, append_assoc, dropLast_append_getLast]
        rw [hlast, currentOf_concat, after_of_delete hdel]
    · rw [concat_eq_append] at hno
      have hnewer : newer ∈ hist o n := by
        rw [hno]
        simp
      obtain ⟨hmem, -, hop⟩ := mem_of_mem_hist hnewer
      have hsorted : (hist o n).Pairwise fun a c => a.version < c.version :=
        hist_sorted (pairwise_append.1 h.sorted_n).2.1
      rw [hno] at hitem hstored hsorted
      have hlt : ∀ i ∈ m.missing[o]?, i.need < newer.version := by
        intro i hi
        rw [mem_def.1 hi] at hold
        rcases latestOf_mem (mem_def.2 hold.1.symm) with hv | ⟨e, he, heq⟩
        · exact (h.base_lt o _ hv).2 newer hmem
        · rw [← heq]
          rcases mem_append.1 (mem_of_mem_hist he).1 with he | he
          · exact (pairwise_append.1 h.sorted_n).2.2 e he newer hmem
          · exact h.newer e he newer hmem
      have hbefore :=
        fun a ha => (pairwise_append.1 hsorted).2.2 a ha newer (mem_singleton_self newer)
      obtain ⟨hneed, hgone⟩ := foldl_onAppend_last m.may_include_deletes (S o) hlt hbefore
      rw [hist_append, hno, ← append_assoc, List.getLast?_concat] at hobj
      rw [hist_append, hno, ← append_assoc, currentOf_concat, latestOf_concat]
      refine mergeObject_newer hne hstrip hobj (fun e he => h.newer e (hmemd e he).1 newer hmem) hop ?_ ?_
      · rw [hmay, hitem]
        exact hneed
      · rw [hmay, hstored]
        exact hgone

theorem Forked.mergeDivergentEntries (crt : Eversion) (hlog : log.log = pre ++ n)
    (hmay : m1.may_include_deletes = m.may_include_deletes)
    (happ : ∀ o, (m1.missing[o]?, S1 o) = (hist o n).foldl (onAppend m.may_include_deletes) (m.missing[o]?, S o)) :
    ∃ m' acts, Pg.mergeDivergentEntries log d ⊤ crt m1 = some (m', acts) ∧
      m'.may_include_deletes = m.may_include_deletes ∧
      ∀ o, Matches m.may_include_deletes (currentOf (base o) (hist o (pre ++ n)))
        (latestOf (base o) (hist o (pre ++ n))) m'.missing[o]? (runActs S1 acts o) := by
  have hnd : ((splitByObject d).toList.map Prod.fst).Nodup := by
    have hdist := ExtTreeMap.distinct_keys_toList (t := splitByObject d)
    rw [List.Nodup, pairwise_map]
    exact hdist.imp fun {a b} hab heq => hab (by simp [heq])
  obtain ⟨m', acts, hrun, hmay', hall, hrest⟩ := foldlM_merged (m := m1) (S := S1)
    (fun o => currentOf (base o) (hist o (pre ++ n))) (fun o => latestOf (base o) (hist o (pre ++ n))) log crt hnd
    (fun i hi m2 S2 hmay2 hm2 hS2 => by
      obtain ⟨hes, hne⟩ := mem_splitByObject.1 hi
      rw [hes] at hne ⊢
      exact h.merged hlog (hmay2.trans hmay) hne (by rw [hm2, hS2]; exact happ i.1))
    m1 S1 [] rfl fun i _ => ⟨rfl, rfl⟩
  refine ⟨m', acts, hrun, hmay'.trans hmay, fun o => ?_⟩
  by_cases hne : entriesOf o d = []
  · -- an object without divergent entries is as the new entries left it
    have hdo : hist o d = [] := by
      rw [eq_nil_iff_forall_not_mem]
      intro e he
      obtain ⟨hmem, hsoid, -⟩ := mem_of_mem_hist he
      exact eq_nil_iff_forall_not_mem.1 hne e (mem_filter.2 ⟨hmem, decide_eq_true hsoid⟩)
    have hnot : o ∉ (splitByObject d).toList.map Prod.fst := by
      intro hmem
      obtain ⟨⟨o', es⟩, hi, rfl⟩ := List.mem_map.1 hmem
      obtain ⟨hes, hnil⟩ := mem_splitByObject.1 hi
      rw [hes] at hnil
      exact hnil hne
    obtain ⟨hm', hS'⟩ := hrest o hnot
    obtain ⟨hitem, hstored⟩ := Prod.ext_iff.1 (happ o)
    dsimp only at hitem hstored
    rw [hm', hS', hitem, hstored]
    exact h.appended hdo
  · have hmem : (o, entriesOf o d) ∈ (splitByObject d).toList := mem_splitByObject.2 ⟨rfl, hne⟩
    have hmatch := hall (o, entriesOf o d) hmem
    rw [hmay] at hmatch
    exact hmatch

end
end
end Lunule.Pg
