import ChainAudit.Chain.Issue
import ChainAudit.Clock.Moment
import ChainAudit.Summary.Totals

/-!
# Reports

What one pass found: a report for each project that was finished, the names of those that were
not, and the summary of the finished ones.
-/

namespace ChainAudit
open ChainAudit.Chain ChainAudit.Clock ChainAudit.Json

structure ProjectReport where
  project : String
  head : Option String
  headHeight : Option Height
  nodesWalked : Nat
  stop : String
  complete : Bool
  issues : List Issue
  error : Option String
  deriving DecidableEq, Repr, Inhabited

namespace ProjectReport

/-- The report of a project that has no chain. -/
def noChain (project : String) : ProjectReport :=
  ⟨project, none, none, 0, "no_chain", true, [], none⟩

def unresolved (project error : String) : ProjectReport :=
  ⟨project, none, none, 0, "head_unresolved", false, [], some error⟩

/-- What a report adds to the totals. -/
def finding (r : ProjectReport) : Finding :=
  ⟨r.issues, r.headHeight, r.complete⟩

def hasIssues (r : ProjectReport) : Bool := !r.issues.isEmpty

def toValue (r : ProjectReport) : Value :=
  .object [
    ("project_id", .string r.project),
    ("head_cid", .optional .string r.head),
    ("head_height", .optional (fun h => .int h.toInt) r.headHeight),
    ("nodes_walked", .nat r.nodesWalked),
    ("stop", .string r.stop),
    ("complete", .bool r.complete),
    ("issues", .array (r.issues.map Issue.toValue)),
    ("error", .optional .string r.error)]

end ProjectReport

/-- What a pass found. Finished projects and cancelled ones are each in order of their names. -/
structure Report where
  startedAt : Moment
  finishedAt : Moment
  summary : Summary
  projects : List ProjectReport
  cancelled : List String
  deriving Repr, Inhabited

namespace Report

def project? (name : String) (r : Report) : Option ProjectReport :=
  r.projects.find? (·.project == name)

/-- The names of the finished projects that have issues. -/
def withIssues (r : Report) : List String :=
  (r.projects.filter ProjectReport.hasIssues).map (·.project)

def wasCancelled (r : Report) : Bool := !r.cancelled.isEmpty

def toValue (r : Report) : Value :=
  .object [
    ("started_at", .string r.startedAt.write),
    ("finished_at", .string r.finishedAt.write),
    ("summary", r.summary.toValue),
    ("projects", .array (r.projects.map ProjectReport.toValue)),
    ("cancelled", .array (r.cancelled.map .string))]

end Report

end ChainAudit
