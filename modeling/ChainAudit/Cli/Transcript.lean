import ChainAudit.Cli.Options
import ChainAudit.Cli.Tables
import ChainAudit.Decimal.Layout
import ChainAudit.Log.Event
import ChainAudit.Notice.Delivery
import ChainAudit.Settings.Masked

/-!
# What commands print

A command prints results on one stream and messages on another, and its events go to the log.
Results are printed as documents, as tables or in the shortest form, and settings never show their
secrets.
-/

namespace ChainAudit.Cli
open ChainAudit.Decimal ChainAudit.Json ChainAudit.Notice ChainAudit.Text

inductive Print where
  | result (text : String)
  | message (text : String)
  /-- For the log, which may leave it out. -/
  | event (e : Log.Event)
  deriving DecidableEq, Repr, Inhabited

/-- What was printed, in order. -/
abbrev Transcript := List Print

namespace Transcript

def results (t : Transcript) : String :=
  String.join (t.map fun
    | .result text => text
    | .message _ | .event _ => "")

def messages (t : Transcript) : String :=
  String.join (t.map fun
    | .message text => text
    | .result _ | .event _ => "")

end Transcript

def document (v : Value) : Print := .result (v.toIndentedText ++ "\n")

def messageLine (text : String) : Print := .message (text ++ "\n")

def printReport (f : Format) (r : Report) : Print :=
  match f with
  | .json => document r.toValue
  | .table => .result (summaryTable r.summary ++ "\n" ++ projectTable r)
  | .plain => .result (r.summary.toText ++ "\n")

def reportEvents (r : Report) : Transcript :=
  (r.projects.flatMap (·.issues)).map fun i => .event (.ofIssue i)

/-- A delivery: a result among documents, and a message otherwise. -/
def printReceipt (f : Format) (r : Receipt) : Print :=
  match f with
  | .json => document (.object [
      ("attempts", .nat r.attempts),
      ("decisions", .array (r.decisions.map Decision.toValue)),
      ("delivered", .bool true)])
  | .table | .plain =>
      messageLine
        ("Summary delivered after " ++ String.ofList (writeNumber r.attempts) ++ " attempt(s)")

def rateText (s : StoreSettings) : List Char :=
  if s.perSecond < 0.0 then "unlimited".toList
  else
    reportLayout.write s.perSecond ++ "/s (burst ".toList ++ writeNumber s.burst ++ [')']

def secondsText (n : Nat) : List Char := writeNumber n ++ ['s']

def entries (s : Settings) : List (String × List Char) := [
  ("Store", s.store.url.toList),
  ("Store timeout", secondsText s.store.timeoutSecs),
  ("Rate limit", rateText s.store),
  ("Webhook", (s.webhook.url.getD "(disabled)").toList),
  ("Notify attempts", writeNumber s.webhook.maxAttempts ++ " (delay ".toList ++
    writeNumber s.webhook.retryDelayMs ++ "ms)".toList),
  ("Head API", (s.headApi.getD "(none)").toList),
  ("Workers", writeNumber s.workers),
  ("Max depth", writeNumber s.maxDepth),
  ("Stuck after", secondsText s.stuckSecs),
  ("Run timeout", secondsText s.runTimeoutSecs),
  ("Interval", secondsText s.intervalSecs)]

def projectLine (p : Project) : String :=
  "  - " ++ p.id ++ match p.head with
    | none => ""
    | some head => " (head " ++ head ++ ")"

def settingsTable (s : Settings) : String :=
  linesOf ("Verifier Configuration" :: "======================" ::
    (entries s).map (fun (label, value) => labelled 17 label value) ++
    "Projects:" :: s.projects.map projectLine)

def printSettings (f : Format) (s : Settings) : Print :=
  match f with
  | .json => document s.masked.toValue
  | .table | .plain => .result (settingsTable s.masked)

def printUrl (f : Format) (address url : String) : Print :=
  match f with
  | .json => document (.object [("address", .string address), ("url", .string url)])
  | .table | .plain => .result (url ++ "\n")

end ChainAudit.Cli
