import Lunule.Crush.Bucket

/-!
# The OSD map

What `OSDMap` computes for a placement group: the raw OSDs that CRUSH gives, the overrides of `pg_upmap` and
`pg_upmap_items`, the filter for OSDs that are up, the primary and the temporary overrides.

The vectors indexed by an OSD are functions. `_apply_upmap` reads the weight of a target without a test that its id is not
negative; what such a read finds is left open.
-/

namespace Lunule.Osdmap

def CRUSH_ITEM_NONE : ℤ := 0x7fffffff

def CEPH_OSD_MAX_PRIMARY_AFFINITY : ℕ := 0x10000

def CEPH_OSD_DEFAULT_PRIMARY_AFFINITY : ℕ := 0x10000

/-- `ceph_stable_mod`. -/
def stableMod (x b bmask : ℕ) : ℕ := if x &&& bmask < b then x &&& bmask else x &&& (bmask >>> 1)

structure PgT where
  m_pool : ℤ
  m_seed : ℕ
  m_preferred : ℤ
deriving DecidableEq

inductive PoolType where
  | replicated
  | erasure
deriving DecidableEq

/-- What the mapping uses of a `pg_pool_t`. -/
structure PgPool where
  type : PoolType
  size : ℕ
  crush_rule : ℕ
  pg_num : ℕ
  pg_num_mask : ℕ
  pgp_num : ℕ
  pgp_num_mask : ℕ
  /-- `FLAG_HASHPSPOOL`. -/
  hashpspool : Bool

namespace PgPool

def canShiftOsds (pool : PgPool) : Bool := pool.type = .replicated

def rawPgToPg (pool : PgPool) (pg : PgT) : PgT := { pg with m_seed := stableMod pg.m_seed pool.pg_num pool.pg_num_mask }

def rawPgToPps (pool : PgPool) (h : Crush.Hash) (pg : PgT) : ℕ :=
  let ps := stableMod pg.m_seed pool.pgp_num pool.pgp_num_mask
  if pool.hashpspool then h.hash2 ps pg.m_pool else ((ps + pg.m_pool) % 2 ^ 32).toNat

end PgPool

/-- What the map uses of `CrushWrapper`. -/
structure CrushWrapper where
  hash : Crush.Hash
  find_rule : ℕ → PoolType → ℕ → ℤ
  do_rule : ℤ → ℕ → ℕ → (ℤ → ℕ) → ℤ → List ℤ

structure OSDMap where
  max_osd : ℤ
  osd_state : ℤ → ℕ
  osd_weight : ℤ → ℕ
  osd_primary_affinity : Option (ℤ → ℕ)
  pools : ℤ → Option PgPool
  pg_temp : PgT → Option (List ℤ)
  primary_temp : PgT → Option ℤ
  pg_upmap : PgT → Option (List ℤ)
  pg_upmap_items : PgT → Option (List (ℤ × ℤ))
  crush : CrushWrapper
  /-- An `int`. -/
  max_osd_le : max_osd ≤ CRUSH_ITEM_NONE

namespace OSDMap
variable (m : OSDMap) (osd : ℤ)

def «exists» : Bool := 0 ≤ osd ∧ osd < m.max_osd ∧ (m.osd_state osd).testBit 0

def isUp : Bool := m.exists osd ∧ (m.osd_state osd).testBit 1

def isDown : Bool := !m.isUp osd

variable (pool : PgPool)

def removeNonexistentOsds (osds : List ℤ) : List ℤ :=
  if pool.canShiftOsds then osds.filter m.exists
  else osds.map fun osd => if m.exists osd then osd else CRUSH_ITEM_NONE

variable (pg : PgT)

/-- `_pg_to_raw_osds`, with the placement seed. -/
def pgToRawOsds : List ℤ × ℕ :=
  let pps := pool.rawPgToPps m.crush.hash pg
  let ruleno := m.crush.find_rule pool.crush_rule pool.type pool.size
  let osds := if 0 ≤ ruleno then m.crush.do_rule ruleno pps pool.size m.osd_weight pg.m_pool else []
  (m.removeNonexistentOsds pool osds, pps)

def pickPrimary (osds : List ℤ) : ℤ := (osds.find? (· ≠ CRUSH_ITEM_NONE)).getD (-1)

def markedOut : Bool := osd ≠ CRUSH_ITEM_NONE ∧ osd < m.max_osd ∧ m.osd_weight osd = 0

/-- The search for the entry that a pair of `pg_upmap_items` replaces: none if the replacement already appears. -/
def itemPos (r : ℤ × ℤ) : List ℤ → ℕ → Option ℕ → Option ℕ
  | [], _, pos => pos
  | osd :: raw, i, pos =>
    if osd = r.2 then none
    else itemPos r raw (i + 1) (if osd = r.1 ∧ pos = none ∧ !m.markedOut r.2 then some i else pos)

def applyItem (raw : List ℤ) (r : ℤ × ℤ) : List ℤ :=
  match m.itemPos r raw 0 none with
  | none => raw
  | some pos => raw.set pos r.2

def applyUpmap (pi : PgPool) (raw_pg : PgT) (raw : List ℤ) : List ℤ :=
  let pg := pi.rawPgToPg raw_pg
  let items := (m.pg_upmap_items pg).getD []
  match m.pg_upmap pg with
  | none => items.foldl m.applyItem raw
  | some v => if v.any m.markedOut then raw else items.foldl m.applyItem v

def rawToUpOsds (raw : List ℤ) : List ℤ :=
  if pool.canShiftOsds then raw.filter fun osd => !(!m.exists osd || m.isDown osd)
  else raw.map fun osd => if !m.exists osd || m.isDown osd then CRUSH_ITEM_NONE else osd

def anyAffinity (affinity : ℤ → ℕ) (osds : List ℤ) : Bool :=
  osds.any fun osd => osd ≠ CRUSH_ITEM_NONE ∧ affinity osd ≠ CEPH_OSD_DEFAULT_PRIMARY_AFFINITY

/-- The search of `_apply_primary_affinity`: the first OSD that is not rejected, otherwise the first one. -/
def affinityPos (affinity : ℤ → ℕ) (seed : ℕ) : List ℤ → ℕ → Option ℕ → Option ℕ
  | [], _, pos => pos
  | o :: osds, i, pos =>
    if o = CRUSH_ITEM_NONE then affinityPos affinity seed osds (i + 1) pos
    else if affinity o < CEPH_OSD_MAX_PRIMARY_AFFINITY ∧ affinity o ≤ m.crush.hash.hash2 seed o >>> 16 then
      affinityPos affinity seed osds (i + 1) (pos <|> some i)
    else some i

/-- `_apply_primary_affinity`; in a pool that can shift OSDs the new primary moves to the front. -/
def applyPrimaryAffinity (seed : ℕ) (pool : PgPool) (osds : List ℤ) (primary : ℤ) : List ℤ × ℤ :=
  match m.osd_primary_affinity with
  | none => (osds, primary)
  | some affinity =>
    if anyAffinity affinity osds then
      match m.affinityPos affinity seed osds 0 none with
      | none => (osds, primary)
      | some pos =>
        let primary := osds.getD pos 0
        (if pool.canShiftOsds && 0 < pos then primary :: osds.eraseIdx pos else osds, primary)
    else (osds, primary)

/-- `_get_temp_osds`; the OSDs of `pg_temp` are filtered as raw OSDs are. -/
def getTempOsds : List ℤ × ℤ :=
  let pg := pool.rawPgToPg pg
  let temp_pg := m.rawToUpOsds pool ((m.pg_temp pg).getD [])
  (temp_pg, match m.primary_temp pg with
    | some osd => osd
    | none => pickPrimary temp_pg)

/-- The raw OSDs after the overrides of the upmaps. -/
def upmapped : List ℤ := m.applyUpmap pool pg (m.pgToRawOsds pool pg).1

def pgToRawUp : List ℤ × ℤ :=
  match m.pools pg.m_pool with
  | none => ([], -1)
  | some pool =>
    let raw := m.upmapped pool pg
    m.applyPrimaryAffinity (m.pgToRawOsds pool pg).2 pool (m.rawToUpOsds pool raw) (pickPrimary raw)

/-- What `_pg_to_up_acting_osds` writes, where all four results are asked for. -/
structure UpActing where
  up : List ℤ
  up_primary : ℤ
  acting : List ℤ
  acting_primary : ℤ
deriving DecidableEq

def pgToUpActingOsds (raw_pg_to_pg : Bool) : UpActing :=
  match m.pools pg.m_pool with
  | none => ⟨[], -1, [], -1⟩
  | some pool =>
    if !raw_pg_to_pg && pool.pg_num ≤ pg.m_seed then ⟨[], -1, [], -1⟩
    else
      let (acting, acting_primary) := m.getTempOsds pool pg
      let up := m.rawToUpOsds pool (m.upmapped pool pg)
      let (up, up_primary) := m.applyPrimaryAffinity (m.pgToRawOsds pool pg).2 pool up (pickPrimary up)
      if acting = [] then ⟨up, up_primary, up, if acting_primary = -1 then up_primary else acting_primary⟩
      else ⟨up, up_primary, acting, acting_primary⟩

end OSDMap
end Lunule.Osdmap
