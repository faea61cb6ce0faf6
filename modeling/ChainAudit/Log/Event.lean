import ChainAudit.Chain.Issue

/-!
# Events

What may be written to the log: an event has a level, names the part of the program that it comes
from, and carries a message and other fields. The analysis of heights reports each issue as it finds
it. Of the fields other than the message only the names are kept.
-/

namespace ChainAudit.Log
open ChainAudit.Chain

inductive Level where
  | off
  | error
  | warn
  | info
  | debug
  | trace
  deriving DecidableEq, Repr, Inhabited

namespace Level

def all : List Level := [.off, .error, .warn, .info, .debug, .trace]

def rank : Level → Nat
  | .off => 0
  | .error => 1
  | .warn => 2
  | .info => 3
  | .debug => 4
  | .trace => 5

def name : Level → String
  | .off => "off"
  | .error => "error"
  | .warn => "warn"
  | .info => "info"
  | .debug => "debug"
  | .trace => "trace"

end Level

structure Event where
  target : String
  level : Level
  message : String
  names : List String
  deriving DecidableEq, Repr, Inhabited

def Event.fields (e : Event) : List String := "message" :: e.names

/-- The event of an issue that the analysis of heights finds. -/
def Event.ofIssue (i : Issue) : Event where
  target := "dag_core::analyzer"
  level := .debug
  message := match i.kind with
    | .gap => "Height gap"
    | .duplicate => "Duplicate height"
    | .stuck => "Chain head is stuck"
  names := match i.kind with
    | .gap => ["project_id", "start", "end"]
    | .duplicate => ["project_id", "height"]
    | .stuck => ["project_id", "height", "stalled_secs"]

end ChainAudit.Log
