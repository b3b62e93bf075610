import Lunule.Balancer.Basic

/-!
# An imbalance-factor beat on the wire

The decisions of a beat travel as a map from ranks to percentages. The receiver gets one decision for each rank of the
map, in the order of the ranks and with the percentage in both fields, so that it gets the list that was sent only if
that list has this form already. The encodings of the single fields are left out: a payload is what they carry.
-/

namespace Lunule.Balancer
open Std (ExtTreeMap)
open List
variable {n : Nat} {Load K : Type}

structure IfbeatPayload (n : Nat) (Load K : Type) where
  load : Load
  beat : Int
  ifValue : K
  decisionMap : ExtTreeMap (Fin n) K

namespace MIFBeat

/-- `encode_payload`, with the member `decision_map` as it was. -/
def encodePayload (m : MIFBeat n Load K) (decisionMap : ExtTreeMap (Fin n) K) : IfbeatPayload n Load K where
  load := m.load
  beat := m.beat
  ifValue := m.ifValue
  decisionMap := m.decision.foldl (fun dm d => dm.insert d.targetImportMds d.targetExportPercent) decisionMap

/-- `decode_payload`; `decodeLoad` is what decoding makes of a load. -/
def decodePayload (m : MIFBeat n Load K) (decodeLoad : Load → Load) (p : IfbeatPayload n Load K) : MIFBeat n Load K where
  load := decodeLoad p.load
  beat := p.beat
  ifValue := p.ifValue
  decision := m.decision ++ p.decisionMap.toList.map fun e => ⟨e.1, e.2, e.2⟩

end MIFBeat

variable {ds : List (MigrationDecision n K)}

private theorem getElem?_foldl_insert (hdistinct : (ds.map (·.targetImportMds)).Nodup) {k : Fin n} {v : K} :
    (ds.foldl (fun dm d => dm.insert d.targetImportMds d.targetExportPercent) (∅ : ExtTreeMap (Fin n) K))[k]? = some v ↔
      (k, v) ∈ ds.map fun d => (d.targetImportMds, d.targetExportPercent) := by
  induction ds using List.reverseRecOn with
  | nil => simp
  | append_singleton ds d ih =>
    rw [map_append, nodup_append] at hdistinct
    rw [foldl_append, foldl_cons, foldl_nil, ExtTreeMap.getElem?_insert, map_append, mem_append, ← ih hdistinct.1]
    split
    · -- the rank of the last decision has none before it
      rename_i heq
      obtain rfl := compare_eq_iff_eq.1 heq
      rw [ih hdistinct.1]
      constructor
      · rintro h
        cases h
        exact .inr (by simp)
      · rintro (h | h)
        · obtain ⟨d', hd', heq⟩ := mem_map.1 h
          have hrank : d'.targetImportMds = d.targetImportMds := congrArg Prod.fst heq
          exact absurd hrank (hdistinct.2.2 _ (mem_map_of_mem hd') _ (by simp))
        · simpa [eq_comm] using h
    · rename_i hne
      refine (or_iff_left fun h => hne ?_).symm
      rw [map_cons, map_nil, mem_singleton] at h
      exact compare_eq_iff_eq.2 (congrArg Prod.fst h).symm

private theorem toList_perm (hdistinct : (ds.map (·.targetImportMds)).Nodup) :
    (ds.foldl (fun dm d => dm.insert d.targetImportMds d.targetExportPercent)
      (∅ : ExtTreeMap (Fin n) K)).toList.Perm (ds.map fun d => (d.targetImportMds, d.targetExportPercent)) := by
  refine (perm_ext_iff_of_nodup ?_ ?_).2 fun e => ?_
  · refine ExtTreeMap.distinct_keys_toList.imp fun hne heq => hne ?_
    rw [heq]
    exact compare_eq_iff_eq.2 rfl
  · refine Nodup.of_map Prod.fst ?_
    rw [map_map]
    exact hdistinct
  · rw [ExtTreeMap.mem_toList_iff_getElem?_eq_some, getElem?_foldl_insert hdistinct]

/-- A new message that decodes a beat with distinct targets has its epoch and its imbalance factor, and the targets with
their percentages; it has the same decisions just if they are in the order of their ranks and each load is the percentage. -/
theorem decodePayload_encodePayload (m m₀ : MIFBeat n Load K) (decodeLoad : Load → Load) (hnew : m₀.decision = [])
    (hdistinct : (m.decision.map (·.targetImportMds)).Nodup) :
    (m₀.decodePayload decodeLoad (m.encodePayload ∅)).beat = m.beat ∧
    (m₀.decodePayload decodeLoad (m.encodePayload ∅)).ifValue = m.ifValue ∧
    (m₀.decodePayload decodeLoad (m.encodePayload ∅)).decision.Perm
      (m.decision.map fun d => { d with targetExportLoad := d.targetExportPercent }) ∧
    ((m₀.decodePayload decodeLoad (m.encodePayload ∅)).decision = m.decision ↔
      (m.decision.map (·.targetImportMds)).Pairwise (· < ·) ∧
        ∀ d ∈ m.decision, d.targetExportLoad = d.targetExportPercent) := by
  have hperm := toList_perm hdistinct
  have horder : (m.encodePayload ∅).decisionMap.toList.Pairwise fun a b => a.1 < b.1 :=
    ExtTreeMap.ordered_keys_toList.imp compare_lt_iff_lt.1
  refine ⟨rfl, rfl, ?_, fun heq => ?_, fun ⟨hsorted, hsame⟩ => ?_⟩
  · have hmap := hperm.map fun e : Fin n × K => (⟨e.1, e.2, e.2⟩ : MigrationDecision n K)
    rw [map_map] at hmap
    simp only [MIFBeat.decodePayload, hnew]
    exact hmap
  · simp only [MIFBeat.decodePayload, hnew, nil_append] at heq
    rw [← heq, map_map]
    refine ⟨pairwise_map.2 horder, fun d hd => ?_⟩
    obtain ⟨e, -, rfl⟩ := mem_map.1 hd
    rfl
  have hlist := hperm.eq_of_pairwise (fun a b _ _ hab hba => absurd hab hba.asymm) horder
    (pairwise_map.2 (pairwise_map.1 hsorted))
  rw [MIFBeat.decodePayload, hnew, nil_append, hlist, map_map]
  conv_rhs => rw [← map_id m.decision]
  refine map_congr_left fun d hd => ?_
  obtain ⟨rank, load, percent⟩ := d
  cases (hsame _ hd : load = percent)
  rfl

theorem decodePayload_encodePayload_ascending : ((⟨(), 0, 0, []⟩ : MIFBeat 3 Unit Int).decodePayload id
      ((⟨(), 7, 5, [⟨1, 2, 2⟩, ⟨2, 4, 4⟩]⟩ : MIFBeat 3 Unit Int).encodePayload ∅)).decision = [⟨1, 2, 2⟩, ⟨2, 4, 4⟩] :=
  (decodePayload_encodePayload ⟨(), 7, 5, [⟨1, 2, 2⟩, ⟨2, 4, 4⟩]⟩ ⟨(), 0, 0, []⟩ id rfl (by decide)).2.2.2.mpr
    (by decide)

/-- Decisions for ranks 2 and 1 arrive in the other order, with the percentages as loads. -/
theorem decodePayload_encodePayload_reorders : ((⟨(), 0, 0, []⟩ : MIFBeat 3 Unit Int).decodePayload id
      ((⟨(), 7, 5, [⟨2, 30, 4⟩, ⟨1, 20, 2⟩]⟩ : MIFBeat 3 Unit Int).encodePayload ∅)).decision = [⟨1, 2, 2⟩, ⟨2, 4, 4⟩] := by
  decide

end Lunule.Balancer
