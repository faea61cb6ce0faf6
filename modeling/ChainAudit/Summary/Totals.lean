import ChainAudit.Summary.Basic
import ChainAudit.Table

/-!
# Totals over projects

Running totals over the findings of projects. Totals of disjoint sets of projects can be merged, in
any order and grouping, and yield the summary of all of them.
-/

namespace ChainAudit
open ChainAudit.Chain

/-- What was found for one project: its issues, the height of its head if it was reached, and
whether its walk was complete. -/
structure Finding where
  issues : List Issue
  head : Option Height
  complete : Bool
  deriving DecidableEq, Repr, Inhabited

/-- Totals over a set of projects. -/
structure Totals where
  tracked : Nat
  withIssues : Nat
  stuck : Nat
  incomplete : Nat
  minHead : Option Height
  issues : Nat
  gaps : Nat
  duplicates : Nat
  deriving DecidableEq, Repr, Inhabited

/-- The lower of two heights that may be missing. -/
def lowerHead : Option Height → Option Height → Option Height
  | some a, some b => some (min a b)
  | a, none => a
  | none, b => b

namespace Totals

def empty : Totals := ⟨0, 0, 0, 0, none, 0, 0, 0⟩

def countKind (kind : IssueKind) (issues : List Issue) : Nat :=
  issues.countP fun i => i.kind == kind

def add (t : Totals) (f : Finding) : Totals :=
  { tracked := t.tracked + 1
    withIssues := t.withIssues + (if f.issues.isEmpty then 0 else 1)
    stuck := t.stuck + (if f.issues.any (fun i => i.kind == .stuck) then 1 else 0)
    incomplete := t.incomplete + (if f.complete then 0 else 1)
    minHead := lowerHead t.minHead f.head
    issues := t.issues + f.issues.length
    gaps := t.gaps + countKind .gap f.issues
    duplicates := t.duplicates + countKind .duplicate f.issues }

/-- The totals over two disjoint sets of projects. -/
def merge (t u : Totals) : Totals :=
  { tracked := t.tracked + u.tracked
    withIssues := t.withIssues + u.withIssues
    stuck := t.stuck + u.stuck
    incomplete := t.incomplete + u.incomplete
    minHead := lowerHead t.minHead u.minHead
    issues := t.issues + u.issues
    gaps := t.gaps + u.gaps
    duplicates := t.duplicates + u.duplicates }

def ofFindings (fs : List Finding) : Totals :=
  fs.foldl add empty

/-- The summary of the totals; without any head the least height is zero. -/
def summary (t : Totals) : Summary :=
  { tracked := t.tracked
    withIssues := t.withIssues
    stuck := t.stuck
    incomplete := t.incomplete
    minHeight := t.minHead.getD 0
    issues := t.issues
    gaps := t.gaps
    duplicates := t.duplicates }

end Totals

/-- The summary of issues and heads given by project. A project counts if it has either; its walk
is taken to be complete. -/
def aggregate (issues : Table (List Issue)) (heads : Table Height) : Summary :=
  let names := (issues.names ++ heads.names).eraseDups
  (Totals.ofFindings (names.map fun name =>
    ⟨(issues.get? name).getD [], heads.get? name, true⟩)).summary

end ChainAudit
