import ChainAudit.Pass.Report

/-!
# Tables of reports

Reports for people: a summary with one counter on a line, and the projects with one line each and
their issues below it. Columns are a number of characters wide; a longer text moves what follows.
-/

namespace ChainAudit.Cli
open ChainAudit.Chain ChainAudit.Text

def counters (s : Summary) : List (String × List Char) := [
  ("Projects tracked", writeNumber s.tracked),
  ("With issues", writeNumber s.withIssues),
  ("Stuck", writeNumber s.stuck),
  ("Incomplete walks", writeNumber s.incomplete),
  ("Min head height", writeInteger s.minHeight.toInt),
  ("Issues", writeNumber s.issues),
  ("Gaps", writeNumber s.gaps),
  ("Duplicates", writeNumber s.duplicates)]

def labelled (width : Nat) (label : String) (value : List Char) : String :=
  String.ofList (padEnd width (label ++ ":").toList ++ value)

def linesOf (lines : List String) : String :=
  String.join (lines.map (· ++ "\n"))

def summaryTable (s : Summary) : String :=
  linesOf ("Chain Summary" :: "=============" ::
    (counters s).map fun (label, value) => labelled 19 label value)

def columns (project head walked stop issues : String) : String :=
  String.ofList <|
    joinWith [' '] [padEnd 20 project.toList, padStart 10 head.toList, padStart 8 walked.toList,
      padEnd 18 stop.toList, padStart 6 issues.toList]

def issueLine (i : Issue) : String :=
  "    " ++ i.kind.name ++ " at " ++ String.ofList (writeInteger i.height.toInt) ++
    " (missing " ++ String.ofList (writeInteger i.missingFrom.toInt) ++
    "..=" ++ String.ofList (writeInteger i.missingTo.toInt) ++ ")"

/-- The lines of a project: its columns, its issues and its error. -/
def projectLines (r : ProjectReport) : List String :=
  let head := (r.headHeight.map fun h => String.ofList (writeInteger h.toInt)).getD "-"
  columns r.project head (String.ofList (writeNumber r.nodesWalked)) r.stop
      (String.ofList (writeNumber r.issues.length)) ::
    r.issues.map issueLine ++ (r.error.map ("    error: " ++ ·)).toList

def cancelledLine (project : String) : String :=
  columns project "-" "-" "cancelled" "-"

def projectTable (r : Report) : String :=
  linesOf (columns "PROJECT" "HEAD" "WALKED" "STOP" "ISSUES" ::
    r.projects.flatMap projectLines ++ r.cancelled.map cancelledLine)

end ChainAudit.Cli
