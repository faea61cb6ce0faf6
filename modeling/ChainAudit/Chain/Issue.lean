import ChainAudit.Json.Reader

/-!
# Issues of a chain

What can be wrong with the heights of a chain: a range of heights that no node has, a height that
is out of order or taken twice, and a head that has not moved for too long. Heights are signed
numbers of 64 bits, and no computation on them leaves that range.
-/

namespace ChainAudit.Chain
open ChainAudit.Json

/-- A height of a chain, also a number of seconds since 1970. -/
abbrev Height := Int64

def clamp64 (i : Int) : Int64 :=
  Int64.ofInt (max Int64.minValue.toInt (min Int64.maxValue.toInt i))

inductive IssueKind where
  | gap
  | duplicate
  | stuck
  deriving DecidableEq, Repr, Inhabited

def IssueKind.name : IssueKind → String
  | .gap => "GAP"
  | .duplicate => "DUPLICATE"
  | .stuck => "STUCK"

/-- One issue. The two bounds are those of the missing heights of a gap, and zero otherwise;
`height` is the height of the node the issue is attached to. -/
structure Issue where
  kind : IssueKind
  missingFrom : Height
  missingTo : Height
  identifiedAt : Int64
  height : Height
  deriving DecidableEq, Repr, Inhabited

namespace Issue

/-- The heights from `first` to `last` are missing below the node just above them. -/
def gap (first last : Height) (identifiedAt : Int64) : Issue :=
  ⟨.gap, first, last, identifiedAt, clamp64 (last.toInt + 1)⟩

/-- A height is out of order or taken once more. -/
def duplicate (height : Height) (identifiedAt : Int64) : Issue :=
  ⟨.duplicate, 0, 0, identifiedAt, height⟩

/-- The head has stayed at a height for too long. -/
def stuck (head : Height) (identifiedAt : Int64) : Issue :=
  ⟨.stuck, 0, 0, identifiedAt, head⟩

/-- How many heights are missing: for a gap the length of its range, computed without leaving the
64 bits and never below zero. -/
def missingCount (i : Issue) : Int64 :=
  match i.kind with
  | .gap =>
      let span := clamp64 (i.missingTo.toInt - i.missingFrom.toInt)
      max (clamp64 (span.toInt + 1)) 0
  | .duplicate | .stuck => 0

def toValue (i : Issue) : Value :=
  .object [
    ("issueType", .string i.kind.name),
    ("missingBlockHeightStart", .int i.missingFrom.toInt),
    ("missingBlockHeightEnd", .int i.missingTo.toInt),
    ("timestampIdentified", .int i.identifiedAt.toInt),
    ("dagBlockHeight", .int i.height.toInt)]

def readKind : Reader IssueKind :=
  readVariant [("GAP", .gap), ("DUPLICATE", .duplicate), ("STUCK", .stuck)]

/-- Reads an issue; every field must be given. -/
def read : Reader Issue :=
  readRecord "ChainIssue" [
    .mandatory "issueType" readKind fun k i => { i with kind := k },
    .mandatory "missingBlockHeightStart" readInt64 fun h i => { i with missingFrom := h },
    .mandatory "missingBlockHeightEnd" readInt64 fun h i => { i with missingTo := h },
    .mandatory "timestampIdentified" readInt64 fun t i => { i with identifiedAt := t },
    .mandatory "dagBlockHeight" readInt64 fun h i => { i with height := h }] default

end Issue

end ChainAudit.Chain
