import ChainAudit.Chain.Node
import ChainAudit.Store.Basic

/-!
# Walks along a chain

From the head of a chain, predecessor by predecessor, the heights of its nodes are collected. A
walk ends at the first node, at a node whose height was verified before, at the greatest depth
allowed, at a node that cannot be fetched or decoded, or when it is stopped or breaks down.
-/

namespace ChainAudit
open ChainAudit.Chain ChainAudit.Clock ChainAudit.Json ChainAudit.Limiter ChainAudit.Schedule
open ChainAudit.Store ChainAudit.Text

/-- Why a node could not be visited. -/
inductive WalkError where
  | fetch (cid : String) (cause : FetchError)
  | decode (cid : String) (cause : Fault)
  deriving Repr, Inhabited

def WalkError.message : WalkError → String
  | .fetch cid cause => "Failed to fetch " ++ cid ++ ": " ++ cause.message
  | .decode cid cause =>
      "Failed to decode " ++ cid ++ ": Serialization error: " ++ cause.message

inductive WalkEnd where
  /-- The first node of the chain was reached. -/
  | genesis
  /-- A node at or below the verified height was reached. -/
  | reachedVerified (height : Height)
  /-- As many nodes were visited as are allowed. -/
  | depthExceeded (depth : Nat)
  | failed (e : WalkError)
  | cancelled
  /-- A fetch broke down, and the walk with it. -/
  | lost
  deriving Repr, Inhabited

namespace WalkEnd

/-- The name of an end in reports. A walk that broke down is not reported. -/
def label? : WalkEnd → Option String
  | .genesis => some "genesis"
  | .reachedVerified _ => some "reached_verified"
  | .depthExceeded _ => some "depth_exceeded"
  | .failed _ => some "failed"
  | .cancelled => some "cancelled"
  | .lost => none

/-- Whether a walk covered all it was meant to. -/
def isComplete : WalkEnd → Bool
  | .genesis | .reachedVerified _ => true
  | _ => false

def error? : WalkEnd → Option WalkError
  | .failed e => some e
  | _ => none

end WalkEnd

/-- The heights that a walk visited, from the head down, and its end. -/
structure Walk where
  heights : List Height
  ending : WalkEnd
  deriving Repr, Inhabited

def Walk.headHeight? (w : Walk) : Option Height := w.heights.head?

/-- Whether a node ends a walk, given the height verified before. The first node of a chain ends it
as that, whatever its height. -/
def endAt? (verified : Option Height) (n : Node) : Except WalkEnd String :=
  match n.previous? with
  | none => .error .genesis
  | some previous =>
      if verified.any (n.height ≤ ·) then .error (.reachedVerified n.height) else .ok previous

/-- Goes on from a node. `left` more nodes may be visited; `visited` holds the heights so far, the
last one first. -/
def walkOn (fetch : String → Activity σ Fetched) (stop : Option Instant)
    (depth : Nat) (verified : Option Height) :
    (left : Nat) → (cid : String) → (visited : List Height) → Activity σ Walk
  | 0, _, visited => return ⟨visited.reverse, .depthExceeded depth⟩
  | left + 1, cid, visited => do
      match ← (fetch cid).breakOff stop with
      | none => return ⟨visited.reverse, .cancelled⟩
      | some .lost => return ⟨visited.reverse, .lost⟩
      | some (.answered (.error e)) => return ⟨visited.reverse, .failed (.fetch cid e)⟩
      | some (.answered (.ok bytes)) =>
          match Node.ofBytes bytes with
          | .error fault => return ⟨visited.reverse, .failed (.decode cid fault)⟩
          | .ok node =>
              match endAt? verified node with
              | .error ending => return ⟨(node.height :: visited).reverse, ending⟩
              | .ok previous =>
                  walkOn fetch stop depth verified left previous (node.height :: visited)

/-- Walks a chain from its head, visiting at most `depth` nodes, until the instant `stop`. -/
def walk (fetch : String → Activity σ Fetched) (stop : Option Instant)
    (depth : Nat) (verified : Option Height) (head : String) : Activity σ Walk :=
  walkOn fetch stop depth verified depth head []

end ChainAudit
