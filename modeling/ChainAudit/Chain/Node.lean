import ChainAudit.Chain.Issue
import ChainAudit.Text.Blank

/-!
# Nodes of a chain

The documents a chain consists of. Only the height must be given. The link to the predecessor is a
text, an object with the text under the key `/`, or null; a link that is blank or missing marks the
first node of a chain.
-/

namespace ChainAudit.Chain
open ChainAudit.Json ChainAudit.Text

structure Snapshot where
  cid : String
  kind : String
  deriving DecidableEq, Repr, Inhabited

/-- A range of heights of the chain that snapshots are taken from. -/
structure SourceRange where
  first : Int64
  last : Int64
  deriving DecidableEq, Repr, Inhabited

structure PayloadBody where
  contract : String
  range : SourceRange
  broadcastId : String
  timestamp : Float
  deriving Repr, Inhabited

structure Payload where
  cid : String
  chainHeight : Height
  body : PayloadBody
  deriving Repr, Inhabited

structure Node where
  snapshot : Snapshot
  height : Height
  link : String
  timestamp : Int64
  txHash : String
  payload : Payload
  deriving Repr, Inhabited

def Node.previous? (n : Node) : Option String :=
  let cid := trim n.link
  if cid.isEmpty then none else some cid

def Node.isGenesis (n : Node) : Bool :=
  n.previous?.isNone

/-- The text of a link; other members of the object do not matter, but the key of the text may
stand only once. -/
def linkText? : Value → Option String
  | .string s => some s
  | .object members =>
      match members.filter (·.1 == "/") with
      | [(_, .string s)] => some s
      | _ => none
  | _ => none

/-- Reads the link to the predecessor. The value is read in full before its form is looked at. -/
def readLink : Reader String := fun depth t => do
  match ← readOption readValueOf depth t with
  | none => return ""
  | some v =>
      match linkText? v with
      | some s => return s
      | none => .error (.noVariant "LinkRepr")

def readSnapshot : Reader Snapshot :=
  readRecord "NodeData" [
    .optional "cid" readString fun s d => { d with cid := s },
    .optional "type" readString fun s d => { d with kind := s }] ⟨"", ""⟩

def readRange : Reader SourceRange :=
  readRecord "ChainHeightRange" [
    .optional "begin" readInt64 fun i r => { r with first := i },
    .optional "end" readInt64 fun i r => { r with last := i }] ⟨0, 0⟩

def readPayloadBody : Reader PayloadBody :=
  readRecord "PayloadData" [
    .optional "contract" readString fun s b => { b with contract := s },
    .optional "chainHeightRange" readRange fun r b => { b with range := r },
    .optional "broadcast_id" readString fun s b => { b with broadcastId := s },
    .optional "timestamp" readFloat fun x b => { b with timestamp := x }] ⟨"", ⟨0, 0⟩, "", 0.0⟩

/-- A payload that is not given. -/
def emptyPayload : Payload := ⟨"", 0, ⟨"", ⟨0, 0⟩, "", 0.0⟩⟩

def readPayload : Reader Payload :=
  readRecord "Payload" [
    .optional "payloadCid" readString fun s p => { p with cid := s },
    .optional "dagChainHeight" readInt64 fun h p => { p with chainHeight := h },
    .optional "Data" readPayloadBody fun b p => { p with body := b }] emptyPayload

def Node.read : Reader Node :=
  readRecord "ChainNode" [
    .optional "data" readSnapshot fun d n => { n with snapshot := d },
    .mandatory "height" readInt64 fun h n => { n with height := h },
    .optional "prevCid" readLink fun s n => { n with link := s },
    .optional "timestamp" readInt64 fun t n => { n with timestamp := t },
    .optional "txHash" readString fun s n => { n with txHash := s },
    .optional "payload" readPayload fun p n => { n with payload := p }]
    ⟨⟨"", ""⟩, 0, "", 0, "", emptyPayload⟩

def Node.ofBytes (bytes : Bytes) : Except Fault Node :=
  decodeBytes Node.read bytes

/-- A node as a JSON value, with every field and with a plain link. -/
def Node.toValue (n : Node) : Value :=
  .object [
    ("data", .object [("cid", .string n.snapshot.cid), ("type", .string n.snapshot.kind)]),
    ("height", .int n.height.toInt),
    ("prevCid", .string n.link),
    ("timestamp", .int n.timestamp.toInt),
    ("txHash", .string n.txHash),
    ("payload", .object [
      ("payloadCid", .string n.payload.cid),
      ("dagChainHeight", .int n.payload.chainHeight.toInt),
      ("Data", .object [
        ("contract", .string n.payload.body.contract),
        ("chainHeightRange", .object [
          ("begin", .int n.payload.body.range.first.toInt),
          ("end", .int n.payload.body.range.last.toInt)]),
        ("broadcast_id", .string n.payload.body.broadcastId),
        ("timestamp", .number (.float n.payload.body.timestamp))])])]

end ChainAudit.Chain
