import ChainAudit.Chain.Issue

/-!
# Summaries

The counters of one pass over all projects, as they are printed and posted. A webhook receives the
text of a summary inside another document.
-/

namespace ChainAudit
open ChainAudit.Json ChainAudit.Text

structure Summary where
  tracked : Nat
  withIssues : Nat
  stuck : Nat
  incomplete : Nat
  minHeight : Int64
  issues : Nat
  gaps : Nat
  duplicates : Nat
  deriving DecidableEq, Repr, Inhabited

namespace Summary

def empty : Summary := ⟨0, 0, 0, 0, 0, 0, 0, 0⟩

def hasIssues (s : Summary) : Bool := 0 < s.issues

def toValue (s : Summary) : Value :=
  .object [
    ("projectsTracked_Count", .nat s.tracked),
    ("projectsWithIssues_Count", .nat s.withIssues),
    ("projectsWithStuckChain_Count", .nat s.stuck),
    ("projectsWithIncompleteWalk_Count", .nat s.incomplete),
    ("currentMinChain_Height", .int s.minHeight.toInt),
    ("overallIssue_Count", .nat s.issues),
    ("overallDAGChainGaps", .nat s.gaps),
    ("overallDAGChainDuplicates", .nat s.duplicates)]

def toText (s : Summary) : String := s.toValue.toText

def readCount : Reader Nat := readNat bound64 "usize"

/-- Reads a summary; only the count of incomplete walks may be left out. -/
def read : Reader Summary :=
  readRecord "ChainSummary" [
    .mandatory "projectsTracked_Count" readCount fun n s => { s with tracked := n },
    .mandatory "projectsWithIssues_Count" readCount fun n s => { s with withIssues := n },
    .mandatory "projectsWithStuckChain_Count" readCount fun n s => { s with stuck := n },
    .optional "projectsWithIncompleteWalk_Count" readCount fun n s => { s with incomplete := n },
    .mandatory "currentMinChain_Height" readInt64 fun h s => { s with minHeight := h },
    .mandatory "overallIssue_Count" readCount fun n s => { s with issues := n },
    .mandatory "overallDAGChainGaps" readCount fun n s => { s with gaps := n },
    .mandatory "overallDAGChainDuplicates" readCount fun n s => { s with duplicates := n }] empty

/-- The document that a webhook receives: a text under one key. -/
def request (text : String) : Value :=
  .object [("dagChainSummary", .string text)]

/-- The document of a summary, which holds the text of it. -/
def toRequest (s : Summary) : Value := request s.toText

def readRequest : Reader String :=
  readRecord "NotifyRequest" [.mandatory "dagChainSummary" readString fun s _ => s] ""

end Summary

end ChainAudit
