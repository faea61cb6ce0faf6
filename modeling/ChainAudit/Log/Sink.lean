import ChainAudit.Cli.CommandError
import ChainAudit.Cli.Options
import ChainAudit.Json.Value
import ChainAudit.Log.Filter

/-!
# The log of a program

How the log of a program is written. A program has one log: the filter of a variable takes
precedence over that of the options, unless it cannot be read, and a log that is set up stays.
-/

namespace ChainAudit.Log
open ChainAudit.Cli ChainAudit.Json

structure LogSettings where
  format : LineStyle
  level : Level
  /-- Whether events tell the place in the program that they come from. -/
  tellsPlace : Bool
  deriving DecidableEq, Repr, Inhabited

namespace LogSettings

def standard (f : LineStyle) : LogSettings := ⟨f, .info, false⟩

def ofVerbose (f : LineStyle) (verbose : Bool) : LogSettings :=
  if verbose then ⟨f, .debug, true⟩ else standard f

def filter (s : LogSettings) : Filter :=
  ["dag_cli", "dag_verifier", "dag_core"].map (Directive.ofTarget · s.level)

end LogSettings

/-- A log that is set up. -/
structure Sink where
  settings : LogSettings
  filter : Filter
  deriving DecidableEq, Repr, Inhabited

namespace Sink

/-- Sets up the log of a program, which may have one already. `filterText` is the filter that a
variable gives. -/
def install (present : Option Sink) (s : LogSettings) (filterText : Option String) :
    Except CommandError Sink :=
  match present with
  | some _ => .error (.logging "a global default trace dispatcher has already been set")
  | none => .ok ⟨s, (filterText.bind Filter.read?).getD s.filter⟩

def writes (k : Sink) (e : Event) : Bool := k.filter.passes e

/-- Whether what is written is a document on each line. -/
def writesDocuments (k : Sink) : Bool := k.settings.format == .json

/-- The line of an event, if it is written. -/
def line? (k : Sink) (e : Event) : Option String :=
  let level := e.level.name.toUpper
  if !k.writes e then none
  else if k.writesDocuments then
    some (Value.object [
      ("level", .string level),
      ("fields", .object [("message", .string e.message)]),
      ("target", .string e.target)]).toText
  else some (level ++ " " ++ e.target ++ ": " ++ e.message)

end Sink

end ChainAudit.Log
