import Lunule.Lib.BitSet

/-!
# Client capabilities

`Capability`: what the MDS has granted one client on one inode. `pending` is what the client was last told it may
hold, `issued` what it may still be holding, and each record of `revokes` keeps the caps that stood before one
revocation together with the sequence number of the last message sent before it. Sequence numbers are `ceph_seq_t`
without the wrap at 32 bits.

`issue` is `none` where its assertion fails.
-/

namespace Lunule.Caps
open BitSet

abbrev CapSet := BitVec 32

structure RevokeInfo where
  before : CapSet
  seq : Nat
  lastIssue : Nat
deriving DecidableEq

/-- The fields of `Capability` that the grant and receipt functions use. -/
structure Capability where
  pending : CapSet := 0
  issued : CapSet := 0
  lastSent : Nat := 0
  lastIssue : Nat := 0
  revokes : List RevokeInfo := []
deriving DecidableEq

namespace Capability
variable (cap : Capability)

def noteRevoke : List RevokeInfo := cap.revokes ++ [⟨cap.pending, cap.lastSent, cap.lastIssue⟩]

def dropObsolete (revokes : List RevokeInfo) (p : CapSet) : List RevokeInfo :=
  revokes.rdropWhile fun r => decide (Within r.before p)

def issue (c : CapSet) : Option (Capability × Nat) :=
  let sent := cap.lastSent + 1
  if cap.pending &&& ~~~c ≠ 0 then
    some ({ cap with revokes := cap.noteRevoke, pending := c, issued := cap.issued ||| c, lastSent := sent }, sent)
  else if ~~~cap.pending &&& c ≠ 0 then
    let pending := cap.pending ||| c
    some ({ cap with pending, issued := cap.issued ||| c, revokes := dropObsolete cap.revokes pending,
                     lastSent := sent }, sent)
  else if cap.pending = c then some ({ cap with lastSent := sent }, sent)
  else none

def issueNorevoke (c : CapSet) : Capability × Nat :=
  let sent := cap.lastSent + 1
  ({ cap with pending := cap.pending ||| c, issued := cap.issued ||| c, lastSent := sent }, sent)

def calcIssued (pending : CapSet) (revokes : List RevokeInfo) : CapSet :=
  revokes.foldl (fun acc r => acc ||| r.before) pending

/-- The newest state the client can be in is the one it reports: `_revokes.begin()->before = caps`. -/
def rewriteFront (seq : Nat) (caps : CapSet) : List RevokeInfo → List RevokeInfo
  | [] => []
  | r :: rs => (if r.seq = seq then { r with before := caps } else r) :: rs

def confirmReceipt (seq : Nat) (caps : CapSet) : Capability :=
  if seq = cap.lastSent then
    { cap with revokes := [], issued := caps, pending := cap.pending &&& caps }
  else
    -- can i forget any revocations?
    let revokes := rewriteFront seq caps (cap.revokes.dropWhile fun r => decide (r.seq < seq))
    { cap with revokes, issued := if revokes = [] then caps ||| cap.pending else calcIssued cap.pending revokes }

def setLastIssue : Capability := { cap with lastIssue := cap.lastSent }

end Capability
end Lunule.Caps
