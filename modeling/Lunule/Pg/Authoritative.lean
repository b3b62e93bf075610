import Lunule.Pg.MergeLog

/-!
# What merging an authoritative log gives

With the entries that the other log has at or below one's tail put in front, each of the two logs is the history from the
older of the two tails on (`PgLog.joined`). Up to the common version `c` these histories are the same; past it the local
one has the divergent entries and the authoritative one the new entries.

That much is not enough for `merge_log` to end with the entries of the authoritative log: it looks for the point to rewind
to by comparing the authoritative entries with the local head, so authoritative entries past `c` that are older than the
local head are taken for common ones (`mergeLog_keeps_divergent`). `Overlap.Newer` says which of the two logs is newer past
`c`; with it `merge_log` succeeds, has the authoritative entries and keeps missing set and store consistent
(`mergeLog_restores`).
-/

namespace Lunule.Pg
open List PGLog LogEntry PgLog
open Writeback (Sorted takeWhile_eq_filter dropWhile_eq_filter rtakeWhile_eq_filter rdropWhile_eq_filter)
section
variable {ο : Type}

@[mk_iff]
structure PgLog.WellFormed (l : PgLog ο) : Prop where
  sorted : l.log.Pairwise fun a b => a.version < b.version
  bound : ∀ e ∈ l.log, l.tail < e.version ∧ e.version ≤ l.head
  tail_le : l.tail ≤ l.head
  no_backlog : ∀ e ∈ l.log, ¬e.isBacklog

instance (l : PgLog ο) : Decidable l.WellFormed := decidable_of_iff _ (l.wellFormed_iff).symm

/-- The history from the older of the two tails on, as `l` has it. -/
def PgLog.joined (l other : PgLog ο) : List (LogEntry ο) := (other.log.filter (·.version ≤ l.tail)) ++ l.log

def Numbered (vs : List Eversion) : Prop := ∀ a ∈ vs, ∀ b ∈ vs, a < b → a.version < b.version

instance (vs : List Eversion) : Decidable (Numbered vs) :=
  inferInstanceAs (Decidable (∀ a ∈ vs, ∀ b ∈ vs, a < b → a.version < b.version))

/-- The logs overlap and have one history up to `c`. -/
@[mk_iff]
structure Overlap [DecidableEq ο] (l olog : PgLog ο) (c : Eversion) : Prop where
  olog_tail_le_head : olog.tail ≤ l.head
  tail_le_olog_head : l.tail ≤ olog.head
  tail_le : l.tail ≤ c
  olog_tail_le : olog.tail ≤ c
  le_olog_head : c ≤ olog.head
  agree : (l.joined olog).filter (·.version ≤ c) = (olog.joined l).filter (·.version ≤ c)
  numbered : Numbered (l.tail :: olog.tail :: c :: l.log.map version)
  olog_numbered : Numbered (l.tail :: olog.tail :: c :: olog.head :: olog.log.map version)

instance [DecidableEq ο] (l olog : PgLog ο) (c : Eversion) : Decidable (Overlap l olog c) :=
  decidable_of_iff _ (overlap_iff l olog c).symm

/-- Past `c` the log with the older head has nothing that is newer than the other head, or nothing at all. -/
@[mk_iff]
structure Overlap.Newer (l olog : PgLog ο) (c : Eversion) : Prop where
  behind : l.head < olog.head → ∀ e ∈ olog.log, c < e.version → l.head < e.version
  ahead : olog.head < l.head → (∀ e ∈ olog.log, e.version ≤ c) ∧
    ∀ e ∈ l.log, c < e.version → olog.head < e.version ∧ olog.head.version < e.version.version
  same : l.head = olog.head → (∀ e ∈ olog.log, e.version ≤ c) ∧ ∀ e ∈ l.log, e.version ≤ c

instance (l olog : PgLog ο) (c : Eversion) : Decidable (Overlap.Newer l olog c) :=
  decidable_of_iff _ (Overlap.newer_iff l olog c).symm

variable {l olog : PgLog ο} {c : Eversion} {e : LogEntry ο} {L : List (LogEntry ο)}

private theorem mem_versions (he : e ∈ L) (a b c d : Eversion) : e.version ∈ a :: b :: c :: d :: L.map version :=
  mem_cons_of_mem _ (mem_cons_of_mem _ (mem_cons_of_mem _ (mem_cons_of_mem _ (mem_map_of_mem he))))

private theorem Numbered.le {vs : List Eversion} (h : Numbered vs) {a b : Eversion} (ha : a ∈ vs) (hb : b ∈ vs)
    (hle : a ≤ b) : a.version ≤ b.version := by
  rcases hle.lt_or_eq with hlt | rfl
  · exact (h a ha b hb hlt).le
  · exact le_refl _

section
variable (h : L.Pairwise fun a b => a.version < b.version)
include h

private theorem pairwise_version_lt (c : Eversion) :
    L.Pairwise fun a b => decide (c < a.version) = true → decide (c < b.version) = true :=
  h.imp fun {_ _} hlt ha => decide_eq_true ((of_decide_eq_true ha).trans hlt)

private theorem dropWhile_version_le (c : Eversion) : L.dropWhile (·.version ≤ c) = L.filter (c < ·.version) := by
  rw [dropWhile_eq_filter (Sorted.pairwise_le h c)]
  congr 1
  funext e
  rw [← decide_not, decide_eq_decide]
  exact not_le

private theorem filter_le_append_filter_lt (c : Eversion) :
    L.filter (·.version ≤ c) ++ L.filter (c < ·.version) = L := by
  rw [← dropWhile_version_le h, ← takeWhile_eq_filter (Sorted.pairwise_le h c), takeWhile_append_dropWhile]

end

private theorem filter_lt_eq_nil (h : ∀ e ∈ L, e.version ≤ c) : L.filter (c < ·.version) = [] := by
  rw [filter_eq_nil_iff]
  exact fun e he hlt => absurd (of_decide_eq_true hlt) (h e he).not_gt

private theorem joined_sorted (hl : l.WellFormed) (ho : olog.WellFormed) :
    (l.joined olog).Pairwise fun a b => a.version < b.version := by
  refine pairwise_append.2 ⟨ho.sorted.filter _, hl.sorted, fun a ha b hb => ?_⟩
  exact (of_decide_eq_true (mem_filter.1 ha).2).trans_lt (hl.bound b hb).1

private theorem joined_filter_lt (hc : l.tail ≤ c) :
    (l.joined olog).filter (c < ·.version) = l.log.filter (c < ·.version) := by
  unfold joined
  rw [filter_append, filter_lt_eq_nil fun e he => (of_decide_eq_true (mem_filter.1 he).2).trans hc, nil_append]

private theorem rewindFromHead_append {pre d : List (LogEntry ο)} {v : Eversion} (hlog : l.log = pre ++ d)
    (htail : l.tail ≤ v) (hpre : ∀ e ∈ pre, e.version.version ≤ v.version)
    (hd : ∀ e ∈ d, v < e.version ∧ v.version < e.version.version) :
    ∃ l', l.rewindFromHead v = some (l', d) ∧ l'.log = pre ∧ l'.head = v := by
  have hpair : (pre ++ d).Pairwise fun a b =>
      decide (v.version < a.version.version) = true → decide (v.version < b.version.version) = true := by
    refine pairwise_append.2 ⟨?_, ?_, ?_⟩
    · exact pairwise_of_forall_mem_list fun a ha b _ h => absurd (of_decide_eq_true h) (hpre a ha).not_gt
    · exact pairwise_of_forall_mem_list fun a _ b hb _ => decide_eq_true (hd b hb).2
    · exact fun a _ b hb _ => decide_eq_true (hd b hb).2
  have hpre' : pre.filter (fun e => decide (v.version < e.version.version)) = [] := by
    rw [filter_eq_nil_iff]
    exact fun e he h => absurd (of_decide_eq_true h) (hpre e he).not_gt
  have hd' : d.filter (fun e => decide (v.version < e.version.version)) = d := by
    rw [filter_eq_self]
    exact fun e he => decide_eq_true (hd e he).2
  have hdiv : l.divergent v = d := by
    unfold divergent
    rw [hlog, rtakeWhile_eq_filter hpair, filter_append, hpre', hd', nil_append]
  have hkept : l.log.rdropWhile (v.version < ·.version.version) = pre := by
    have happ := rdropWhile_append_rtakeWhile (p := fun e : LogEntry ο => decide (v.version < e.version.version))
      (l := l.log)
    have hdiv' : l.log.rtakeWhile (fun e => decide (v.version < e.version.version)) = d := hdiv
    rw [hdiv', hlog] at happ
    rw [hlog]
    exact append_cancel_right happ
  refine ⟨_, rewindFromHead_eq_some.2 ⟨htail, ?_, hdiv.symm, rfl⟩, hkept, rfl⟩
  rw [hdiv]
  exact fun e he => (hd e he).1

end

section
variable {ο : Type} [LinearOrder ο] {p : PGLog ο} {olog : PgLog ο} {c : Eversion}

private theorem extendTail_spec (ho : olog.WellFormed) :
    (p.extendTail olog).1.log.log = p.log.joined olog ∧ (p.extendTail olog).1.log.head = p.log.head ∧
      (p.extendTail olog).1.log.tail ≤ p.log.tail ∧
      (p.extendTail olog).2.log = olog.log.filter (p.log.tail < ·.version) ∧
      (p.extendTail olog).2.head = olog.head ∧ (p.extendTail olog).2.tail = olog.tail := by
  have hsplit := filter_le_append_filter_lt ho.sorted p.log.tail
  unfold extendTail joined
  split
  · rename_i hlt
    have htake := takeWhile_eq_filter (Sorted.pairwise_le ho.sorted p.log.tail)
    exact ⟨by rw [← htake], rfl, hlt.le, dropWhile_version_le ho.sorted _, rfl, rfl⟩
  rename_i hge
  have hnil : olog.log.filter (·.version ≤ p.log.tail) = [] := by
    rw [filter_eq_nil_iff]
    intro e he hle
    exact absurd (of_decide_eq_true hle) ((not_lt.1 hge).trans_lt (ho.bound e he).1).not_ge
  rw [hnil, nil_append] at hsplit ⊢
  exact ⟨rfl, rfl, le_refl _, hsplit.symm, rfl, rfl⟩

/-- The missing set and the store agree with a history. -/
def Consistent (base : ο → Option Eversion) (L : List (LogEntry ο)) (m : MissingSet ο) (S : ο → Option Eversion) : Prop :=
  ∀ o, Matches m.may_include_deletes (currentOf (base o) (hist o L)) (latestOf (base o) (hist o L)) m.missing[o]? (S o)

/-- The step succeeds, with the entries of the authoritative log and a store that agrees with them. -/
def Restores (p : PGLog ο) (olog : PgLog ο) (base S : ο → Option Eversion) (r : Option (PGLog ο × List (Act ο))) : Prop :=
  ∃ p' acts, r = some (p', acts) ∧ p'.log.log = olog.joined p.log ∧ p'.log.head = olog.head ∧
    Consistent base (olog.joined p.log) p'.missing (runActs S acts)

section
variable (hl : p.log.WellFormed) (ho : olog.WellFormed) (hov : Overlap p.log olog c)

include hl ho hov

private theorem joined_eq : p.log.joined olog =
      (p.log.joined olog).filter (·.version ≤ c) ++ p.log.log.filter (c < ·.version) ∧
    olog.joined p.log = (p.log.joined olog).filter (·.version ≤ c) ++ olog.log.filter (c < ·.version) := by
  have h1 := filter_le_append_filter_lt (joined_sorted hl ho) c
  have h2 := filter_le_append_filter_lt (joined_sorted ho hl) c
  rw [joined_filter_lt hov.tail_le] at h1
  rw [joined_filter_lt hov.olog_tail_le, ← hov.agree] at h2
  exact ⟨h1.symm, h2.symm⟩

private theorem mem_common {e : LogEntry ο} (he : e ∈ (p.log.joined olog).filter (·.version ≤ c)) :
    e.version ≤ c ∧ (e.version ≤ p.log.head ∧ .zero < e.version) ∧
      (e ∈ olog.log ∨ (e ∈ p.log.log ∧ e.version ≤ olog.tail)) := by
  have hle : e.version ≤ c := of_decide_eq_true (mem_filter.1 he).2
  have hmem := (mem_filter.1 he).1
  rw [hov.agree] at he
  refine ⟨hle, ?_, ?_⟩
  · rcases mem_append.1 hmem with hmem | hmem
    · obtain ⟨hmem, hle⟩ := mem_filter.1 hmem
      exact ⟨(of_decide_eq_true hle).trans hl.tail_le, (Eversion.zero_le _).trans_lt (ho.bound e hmem).1⟩
    · exact ⟨(hl.bound e hmem).2, (Eversion.zero_le _).trans_lt (hl.bound e hmem).1⟩
  · rcases mem_append.1 (mem_filter.1 he).1 with hmem | hmem
    · exact .inr ⟨(mem_filter.1 hmem).1, of_decide_eq_true (mem_filter.1 hmem).2⟩
    · exact .inl hmem

omit hl ho in
private theorem common_of_mem_olog {e : LogEntry ο} (he : e ∈ olog.log) (hle : e.version ≤ c) :
    e ∈ (p.log.joined olog).filter (·.version ≤ c) := by
  rw [hov.agree]
  exact mem_filter.2 ⟨mem_append_right _ he, decide_eq_true hle⟩

section
variable (hn : ∀ e ∈ olog.log, c < e.version → p.log.head < e.version)
include hn

private theorem lowerBound_spec {lb : Eversion}
    (hlb : (p.extendTail olog).1.lowerBound p.log.tail (p.extendTail olog).2 = lb) :
    (lb = p.log.tail ∨ lb = olog.tail ∨ ∃ e ∈ olog.log, lb = e.version) ∧ lb ≤ c ∧ p.log.tail ≤ lb ∧ olog.tail ≤ lb ∧
      ∀ e ∈ olog.log, e.version ≤ c → e.version ≤ lb := by
  obtain ⟨-, hhead, -, hlog, -, htail⟩ := extendTail_spec (p := p) ho
  have hsorted : (olog.log.filter (p.log.tail < ·.version)).Pairwise fun a b => a.version < b.version :=
    ho.sorted.filter _
  obtain ⟨kept, hkept⟩ : ∃ kept, (olog.log.filter (p.log.tail < ·.version)).rdropWhile (p.log.head < ·.version) = kept :=
    ⟨_, rfl⟩
  have hmem : ∀ e, e ∈ kept ↔ (e ∈ olog.log ∧ p.log.tail < e.version) ∧ e.version ≤ p.log.head := by
    intro e
    rw [← hkept, rdropWhile_eq_filter (pairwise_version_lt hsorted _), mem_filter, mem_filter]
    simp
  unfold lowerBound at hlb
  rw [hhead, hlog, htail, hkept] at hlb
  have hmax : max olog.tail p.log.tail = p.log.tail ∨ max olog.tail p.log.tail = olog.tail := (max_choice _ _).symm
  have hbase := max_le hov.olog_tail_le hov.tail_le
  have hin : ∀ e ∈ olog.log, e.version ≤ c → p.log.tail < e.version → e ∈ kept := fun e he hle hlt =>
    (hmem e).2 ⟨⟨he, hlt⟩, (mem_common hl ho hov (common_of_mem_olog hov he hle)).2.1.1⟩
  cases hlast : kept.getLast? with
  | none =>
    rw [hlast] at hlb
    rw [← hlb]
    refine ⟨hmax.imp_right .inl, hbase, le_max_right _ _, le_max_left _ _, fun e he hle => ?_⟩
    rcases le_or_gt e.version p.log.tail with htl | htl
    · exact htl.trans (le_max_right _ _)
    · have := hin e he hle htl
      rw [List.getLast?_eq_none_iff.1 hlast] at this
      cases this
  | some last =>
    obtain ⟨⟨hlmem, -⟩, hlle⟩ := (hmem last).1 (mem_of_getLast? hlast)
    have hlc : last.version ≤ c := by
      by_contra hno
      exact absurd (hn last hlmem (not_le.1 hno)) hlle.not_gt
    have hksorted : Sorted version kept := by
      rw [← hkept]
      exact hsorted.sublist <| rdropWhile_prefix _ _ |>.sublist
    rw [hlast] at hlb
    dsimp only at hlb
    rw [← hlb]
    refine ⟨?_, max_le hbase hlc, (le_max_right _ _).trans (le_max_left _ _), (le_max_left _ _).trans (le_max_left _ _),
      fun e he hle => ?_⟩
    · rcases max_choice (max olog.tail p.log.tail) last.version with heq | heq
      · rw [heq]
        exact hmax.imp_right .inl
      · rw [heq]
        exact .inr (.inr ⟨last, hlmem, rfl⟩)
    · rcases le_or_gt e.version p.log.tail with htl | htl
      · exact htl.trans ((le_max_right _ _).trans (le_max_left _ _))
      · exact (hksorted.le_getLast hlast (hin e he hle htl)).trans (le_max_right _ _)

private theorem newEntries_eq :
    (p.extendTail olog).2.log.rtakeWhile ((p.extendTail olog).1.log.head < ·.version) =
      olog.log.filter (c < ·.version) := by
  obtain ⟨-, hhead, -, hlog, -, -⟩ := extendTail_spec (p := p) ho
  have hsorted : (olog.log.filter (p.log.tail < ·.version)).Pairwise fun a b => a.version < b.version :=
    ho.sorted.filter _
  rw [hhead, hlog, rtakeWhile_eq_filter (pairwise_version_lt hsorted _), filter_filter]
  refine filter_congr fun e he => ?_
  rw [← Bool.decide_and, decide_eq_decide]
  constructor
  · rintro ⟨hlt, -⟩
    by_contra hno
    have hle : e.version ≤ c := not_lt.1 hno
    exact absurd (mem_common hl ho hov (common_of_mem_olog hov he hle)).2.1.1 hlt.not_ge
  · exact fun hlt => ⟨hn e he hlt, hov.tail_le.trans_lt hlt⟩

end

private theorem common_number_le {v : Eversion}
    (hv : v ∈ p.log.tail :: olog.tail :: c :: olog.head :: olog.log.map version)
    (hle : ∀ e ∈ olog.log, e.version ≤ c → e.version ≤ v) (htail : olog.tail ≤ v) :
    ∀ e ∈ (p.log.joined olog).filter (·.version ≤ c), e.version.version ≤ v.version := by
  intro e he
  obtain ⟨hc, -, hmem | ⟨hmem, hle'⟩⟩ := mem_common hl ho hov he
  · exact hov.olog_numbered.le (mem_versions hmem _ _ _ _) hv (hle e hmem hc)
  · have h1 : e.version.version ≤ olog.tail.version := by
      refine hov.numbered.le ?_ (by simp) hle'
      exact mem_cons_of_mem _ (mem_cons_of_mem _ (mem_cons_of_mem _ (mem_map_of_mem hmem)))
    exact h1.trans (hov.olog_numbered.le (by simp) hv htail)

variable {base : ο → Option Eversion} {S : ο → Option Eversion}
  (hbase : ∀ o, ∀ v ∈ base o, v ≠ .zero ∧ v ≤ olog.tail)
  (hchain : ∀ o, Chained (base o) true (hist o (p.log.joined olog)))
  (hochain : ∀ o, Chained (base o) true (hist o (olog.joined p.log)))
  (hstored : ∀ o, ∀ v ∈ S o, v ≤ p.log.head) (hcons : Consistent base (p.log.joined olog) p.missing S)

include hbase hchain hochain hstored hcons

section
variable (hn : ∀ e ∈ olog.log, c < e.version → p.log.head < e.version)
include hn

private theorem forked :
    Forked ((p.log.joined olog).filter (·.version ≤ c)) (p.log.log.filter (c < ·.version))
      (olog.log.filter (c < ·.version)) base p.missing S := by
  obtain ⟨h1, h2⟩ := joined_eq hl ho hov
  have hmemd : ∀ e ∈ p.log.log.filter (c < ·.version), e ∈ p.log.log := fun e he => (mem_filter.1 he).1
  have hmemn : ∀ e ∈ olog.log.filter (c < ·.version), e ∈ olog.log ∧ p.log.head < e.version := by
    intro e he
    obtain ⟨hmem, hlt⟩ := mem_filter.1 he
    exact ⟨hmem, hn e hmem (of_decide_eq_true hlt)⟩
  have hs1 := joined_sorted hl ho
  have hs2 := joined_sorted ho hl
  refine ⟨fun o => h1 ▸ hchain o, fun o => h2 ▸ hochain o, h1 ▸ hs1, h2 ▸ hs2, ?_, ?_, ?_, ?_, ?_⟩
  · exact fun a ha e he => (hl.bound a (hmemd a ha)).2.trans_lt (hmemn e he).2
  · intro e he
    rcases mem_append.1 he with he | he
    · exact (mem_common hl ho hov he).2.1.2
    · rcases mem_append.1 he with he | he
      · exact (Eversion.zero_le _).trans_lt (hl.bound e (hmemd e he)).1
      · exact (Eversion.zero_le _).trans_lt (ho.bound e (hmemn e he).1).1
  · exact fun o v hv => ⟨(hbase o v hv).1, fun e he => (hbase o v hv).2.trans_lt (ho.bound e (hmemn e he).1).1⟩
  · exact fun o v hv e he => (hstored o v hv).trans_lt (hmemn e he).2
  · exact fun o => h1 ▸ hcons o

/-- Our log is behind: it is rewound to the cut point and the new entries are appended. -/
theorem extendHead_restores :
    Restores p olog base S ((p.extendTail olog).1.extendHead p.log.tail (p.extendTail olog).2 ⊤) := by
  have hfork := forked hl ho hov hbase hchain hochain hstored hcons hn
  obtain ⟨hpre, hjoin⟩ := joined_eq hl ho hov
  obtain ⟨hlog1, hhead1, htail1, -, hohead, -⟩ := extendTail_spec (p := p) ho
  obtain ⟨lb, hlb⟩ : ∃ lb, (p.extendTail olog).1.lowerBound p.log.tail (p.extendTail olog).2 = lb := ⟨_, rfl⟩
  obtain ⟨hlbmem, hlbc, hlbt, hlbo, hlbe⟩ := lowerBound_spec hl ho hov hn hlb
  have hlbin : lb ∈ p.log.tail :: olog.tail :: c :: olog.head :: olog.log.map version := by
    rcases hlbmem with rfl | rfl | ⟨e, he, rfl⟩
    · simp
    · simp
    · exact mem_versions he _ _ _ _
  have hlbnum := hov.olog_numbered.le hlbin (by simp) hlbc
  have hd : ∀ e ∈ p.log.log.filter (c < ·.version), lb < e.version ∧ lb.version < e.version.version := by
    intro e he
    obtain ⟨hmem, hlt⟩ := mem_filter.1 he
    have hlt' : c < e.version := of_decide_eq_true hlt
    have hnum := hov.numbered c (by simp) e.version (mem_cons_of_mem _ (mem_cons_of_mem _
      (mem_cons_of_mem _ (mem_map_of_mem hmem)))) hlt'
    exact ⟨hlbc.trans_lt hlt', hlbnum.trans_lt hnum⟩
  obtain ⟨log, hrew, hkept, hnewhead⟩ := rewindFromHead_append (v := lb) (hlog1.trans hpre) (htail1.trans hlbt)
    (common_number_le hl ho hov hlbin hlbe hlbo) hd
  have holog : ∀ e ∈ olog.log.filter (c < ·.version), e ∈ olog.log ∧ c < e.version :=
    fun e he => ⟨(mem_filter.1 he).1, of_decide_eq_true (mem_filter.1 he).2⟩
  have habove : ∀ e ∈ olog.log.filter (c < ·.version), lb < e.version ∧ lb.version < e.version.version := by
    intro e he
    obtain ⟨hmem, hlt⟩ := holog e he
    exact ⟨hlbc.trans_lt hlt, hlbnum.trans_lt (hov.olog_numbered c (by simp) _ (mem_versions hmem _ _ _ _) hlt)⟩
  have hstack : Stacked (log.advanceCanRollbackTo log.head).1.head (olog.log.filter (c < ·.version)) := by
    refine ⟨?_, ?_⟩
    · show ∀ e ∈ olog.log.filter (c < ·.version), log.head < e.version ∧ log.head.version < e.version.version
      rw [hnewhead]
      exact habove
    · refine List.Pairwise.imp_of_mem (fun {a b} ha hb hlt => ⟨hlt, ?_⟩) (ho.sorted.filter _)
      exact hov.olog_numbered _ (mem_versions (holog a ha).1 _ _ _ _) _ (mem_versions (holog b hb).1 _ _ _ _) hlt
  obtain ⟨log', m1, acts1, happ, hlog', hmay1, hget1⟩ := appendLogEntries_total (m := p.missing) (S := S) hstack
    fun e he => ho.no_backlog e (holog e he).1
  have hlog'' : log'.log = (p.log.joined olog).filter (·.version ≤ c) ++ olog.log.filter (c < ·.version) := by
    rw [hlog']
    show log.log ++ _ = _
    rw [hkept]
  obtain ⟨m', acts2, hmerge, hmay', hmatch⟩ := hfork.mergeDivergentEntries log'.can_rollback_to hlog'' hmay1 hget1
  have happ' : appendLogEntriesUpdateMissing ⊤ (olog.log.filter (c < ·.version)) false
      (log.advanceCanRollbackTo log.head).1 p.missing = some (log', m1, acts1) := by
    unfold appendLogEntriesUpdateMissing
    rw [if_pos fun e he => (hstack.1 e (List.mem_of_mem_head? he)).1]
    exact happ
  have hmiss : (p.extendTail olog).1.missing = p.missing := missing_extendTail
  refine ⟨_, _, extendHead_eq_some.2 ⟨log, _, log', m1, acts1, m', acts2, hlb ▸ hrew, ?_, hmerge, rfl, rfl⟩, ?_, ?_, ?_⟩
  · rw [newEntries_eq hl ho hov hn, hmiss]
    exact happ'
  · exact hlog''.trans hjoin.symm
  · exact hohead
  · intro o
    rw [runActs_append, runActs_append, runActs_rollforwards, hjoin]
    rw [hmay']
    exact hmatch o

end

/-- Our log is ahead: it is rewound to the head of the authoritative one, which has nothing past the common version. -/
theorem rewind_restores (hn : ∀ e ∈ olog.log, e.version ≤ c)
    (hd : ∀ e ∈ p.log.log, c < e.version → olog.head < e.version ∧ olog.head.version < e.version.version) :
    Restores p olog base S ((p.extendTail olog).1.rewindDivergentLog olog.head ⊤) := by
  have hfork := forked hl ho hov hbase hchain hochain hstored hcons fun e he hlt => absurd (hn e he) hlt.not_ge
  obtain ⟨hpre, hjoin⟩ := joined_eq hl ho hov
  obtain ⟨hlog1, -, htail1, -, -, -⟩ := extendTail_spec (p := p) ho
  rw [filter_lt_eq_nil hn] at hfork hjoin
  rw [append_nil] at hjoin
  have hcut : ∀ e ∈ p.log.log.filter (c < ·.version), olog.head < e.version ∧ olog.head.version < e.version.version :=
    fun e he => hd e (mem_filter.1 he).1 (of_decide_eq_true (mem_filter.1 he).2)
  obtain ⟨log, hrew, hkept, hnewhead⟩ := rewindFromHead_append (v := olog.head) (hlog1.trans hpre)
    (htail1.trans hov.tail_le_olog_head)
    (common_number_le hl ho hov (by simp) (fun e he _ => (ho.bound e he).2) ho.tail_le) hcut
  obtain ⟨m', acts, hmerge, hmay, hmatch⟩ := hfork.mergeDivergentEntries log.can_rollback_to
    (by rw [hkept, append_nil]) rfl fun o => rfl
  have hmiss : (p.extendTail olog).1.missing = p.missing := missing_extendTail
  refine ⟨_, _, rewindDivergentLog_eq_some.2 ⟨log, _, m', hrew, hmiss ▸ hmerge, rfl⟩, ?_, hnewhead, fun o => ?_⟩
  · exact hkept.trans hjoin.symm
  · have ho' := hmatch o
    rw [append_nil] at ho'
    rw [hjoin]
    rw [hmay]
    exact ho'

omit hbase hchain hochain hstored in
private theorem same_restores (hn : ∀ e ∈ olog.log, e.version ≤ c) (hd : ∀ e ∈ p.log.log, e.version ≤ c) :
    (p.extendTail olog).1.log.log = olog.joined p.log ∧
      Consistent base (olog.joined p.log) (p.extendTail olog).1.missing S := by
  obtain ⟨hpre, hjoin⟩ := joined_eq hl ho hov
  have hsame : olog.joined p.log = p.log.joined olog := by
    rw [hjoin, filter_lt_eq_nil hn]
    conv_rhs => rw [hpre, filter_lt_eq_nil hd]
  refine ⟨(extendTail_spec ho).1.trans hsame.symm, ?_⟩
  rw [hsame, show (p.extendTail olog).1.missing = p.missing from missing_extendTail]
  exact hcons

end

/-- Merging an authoritative log that is newer past the common version: no assertion fails, the entries are those of the
authoritative log with the older ones already held, and the missing set again lists what the store lacks. -/
theorem mergeLog_restores (p : PGLog ο) (olog : PgLog ο) (c : Eversion) (base S : ο → Option Eversion)
    (hl : p.log.WellFormed) (ho : olog.WellFormed) (hov : Overlap p.log olog c) (hnew : Overlap.Newer p.log olog c)
    (hbase : ∀ o, ∀ v ∈ base o, v ≠ .zero ∧ v ≤ olog.tail)
    (hchain : ∀ o, Chained (base o) true (hist o (p.log.joined olog)))
    (hochain : ∀ o, Chained (base o) true (hist o (olog.joined p.log))) (hstored : ∀ o, ∀ v ∈ S o, v ≤ p.log.head)
    (hcons : Consistent base (p.log.joined olog) p.missing S) :
    ∃ p' acts, p.mergeLog olog ⊤ = some (p', acts) ∧ p'.log.log = olog.joined p.log ∧ p'.log.head = olog.head ∧
      Consistent base (olog.joined p.log) p'.missing (runActs S acts) := by
  obtain ⟨-, hhead1, -, -, hohead, -⟩ := extendTail_spec (p := p) ho
  have hmid : Restores p olog base S ((p.extendTail olog).1.mergeHeads p.log.tail (p.extendTail olog).2 ⊤) := by
    rcases lt_trichotomy p.log.head olog.head with hlt | heq | hgt
    · rw [mergeHeads_of_gt (by rw [hhead1, hohead]; exact hlt)]
      exact extendHead_restores hl ho hov hbase hchain hochain hstored hcons (hnew.behind hlt)
    · obtain ⟨hn, hd⟩ := hnew.same heq
      obtain ⟨hlog, hagain⟩ := same_restores hl ho hov hcons hn hd
      exact ⟨_, [], mergeHeads_of_eq (by rw [hhead1, hohead]; exact heq), hlog, hhead1.trans heq, hagain⟩
    · obtain ⟨hn, hd⟩ := hnew.ahead hgt
      rw [mergeHeads_of_lt (by rw [hhead1, hohead]; exact hgt), hohead]
      exact rewind_restores hl ho hov hbase hchain hochain hstored hcons hn hd
  obtain ⟨p1, acts, hrun, hlog, hhead, hagain⟩ := hmid
  have hnull : p.log.isNull → olog.tail = .zero := by
    intro h
    have hle := hov.olog_tail_le_head
    rw [show p.log.head = .zero from of_decide_eq_true h] at hle
    exact le_antisymm hle (Eversion.zero_le _)
  obtain ⟨dups, marks_dups, hdups⟩ := p1.mergeLogDups_eq (p.extendTail olog).2
  refine ⟨{ p1 with log := { p1.log with dups }, marks_dups }, acts, ?_, hlog, hhead, hagain⟩
  unfold mergeLog
  rw [if_pos ⟨hnull, hov.olog_tail_le_head, hov.tail_le_olog_head⟩]
  dsimp only
  rw [hrun, ← hdups]
  rfl

end

/-!
### Two merges

Both are of one object. In the first the local log ends with a divergent entry, which the authoritative log replaced by two.
In the second the authoritative log has entries past the common version that are older than the local head.
-/

section

scoped instance neZeroTwo : NeZero 2 := inferInstance

private def update (version prior_version : Eversion) : LogEntry (Fin 2) :=
  { op := .modify, soid := 0, version, prior_version, reqid := ⟨0, 0, 0, 0⟩, extra_reqids := [], user_version := 0,
    return_code := 0, canRollback := false }

private def local₁ : PGLog (Fin 2) :=
  { (new false : PGLog (Fin 2)) with
    log := { (empty : PgLog (Fin 2)) with
      log := [update ⟨1, 1⟩ .zero, update ⟨1, 2⟩ ⟨1, 1⟩, update ⟨2, 3⟩ ⟨1, 2⟩], head := ⟨2, 3⟩ } }

private def olog₁ : PgLog (Fin 2) :=
  { (empty : PgLog (Fin 2)) with
    log := [update ⟨1, 1⟩ .zero, update ⟨1, 2⟩ ⟨1, 1⟩, update ⟨3, 3⟩ ⟨1, 2⟩, update ⟨3, 4⟩ ⟨3, 3⟩], head := ⟨3, 4⟩ }

private def local₂ : PGLog (Fin 2) :=
  { (new false : PGLog (Fin 2)) with
    log := { (empty : PgLog (Fin 2)) with
      log := [update ⟨1, 4⟩ .zero, update ⟨1, 5⟩ ⟨1, 4⟩, update ⟨3, 6⟩ ⟨1, 5⟩], head := ⟨3, 6⟩ } }

private def olog₂ : PgLog (Fin 2) :=
  { (empty : PgLog (Fin 2)) with
    log := [update ⟨1, 4⟩ .zero, update ⟨2, 5⟩ ⟨1, 4⟩, update ⟨2, 6⟩ ⟨2, 5⟩, update ⟨4, 7⟩ ⟨2, 6⟩], head := ⟨4, 7⟩ }

private def stored (v : Eversion) : Fin 2 → Option Eversion := fun o => if o = 0 then some v else none

theorem mergeLog_restores_divergent :
    ∃ p' acts, local₁.mergeLog olog₁ ⊤ = some (p', acts) ∧ p'.log.log = olog₁.joined local₁.log ∧
      p'.log.head = olog₁.head ∧
      Consistent (fun _ => none) (olog₁.joined local₁.log) p'.missing (runActs (stored ⟨2, 3⟩) acts) :=
  mergeLog_restores local₁ olog₁ ⟨1, 2⟩ (fun _ => none) (stored ⟨2, 3⟩) (by decide +kernel) (by decide +kernel)
    (by decide +kernel) (by decide +kernel) (by simp) (by decide +kernel) (by decide +kernel) (by decide +kernel)
    (show ∀ o, _ by decide +kernel)

theorem mergeLog_keeps_divergent : local₂.log.WellFormed ∧ olog₂.WellFormed ∧ Overlap local₂.log olog₂ ⟨1, 4⟩ ∧
      (∀ o, Chained none true (hist o (local₂.log.joined olog₂))) ∧
      (∀ o, Chained none true (hist o (olog₂.joined local₂.log))) ∧
      Consistent (fun _ => none) (local₂.log.joined olog₂) local₂.missing (stored ⟨3, 6⟩) ∧
      (local₂.mergeLog olog₂ ⊤).map (fun r => r.1.log.log) =
        some [update ⟨1, 4⟩ .zero, update ⟨1, 5⟩ ⟨1, 4⟩, update ⟨3, 6⟩ ⟨1, 5⟩, update ⟨4, 7⟩ ⟨2, 6⟩] ∧
      olog₂.joined local₂.log =
        [update ⟨1, 4⟩ .zero, update ⟨2, 5⟩ ⟨1, 4⟩, update ⟨2, 6⟩ ⟨2, 5⟩, update ⟨4, 7⟩ ⟨2, 6⟩] := by
  refine ⟨by decide +kernel, by decide +kernel, by decide +kernel, by decide +kernel, by decide +kernel, ?_,
    by decide +kernel, by decide +kernel⟩
  show ∀ o, _
  decide +kernel

end
end Lunule.Pg
