import ChainAudit.Json.Fault
import ChainAudit.Pass.Failure

/-!
# Errors of commands

Why a command ends without success, in words and as the exit code of the program.
-/

namespace ChainAudit.Cli
open ChainAudit.Address ChainAudit.Json ChainAudit.Notice

/-- Why a command ends without success. -/
inductive CommandError where
  /-- The settings leave the command nothing to do. -/
  | settings (reason : String)
  /-- Log lines cannot be written. -/
  | logging (reason : String)
  /-- A word of the command line is no address. -/
  | address (e : AddressError)
  /-- The auditor cannot do its work. -/
  | failure (f : Failure)
  /-- The summary was not delivered. -/
  | delivery (e : DeliveryError)
  /-- A file cannot be read or written. -/
  | file (reason : String)
  /-- A text is no document. -/
  | document (fault : Fault)
  deriving Repr, Inhabited

namespace CommandError

def message : CommandError → String
  | .settings reason => "Configuration error: " ++ reason
  | .logging reason => "Logging error: " ++ reason
  | .address e => "Invalid address: " ++ e.message
  | .failure f => "Verifier error: " ++ f.message
  | .delivery e => e.message
  | .file reason => "File I/O error: " ++ reason
  | .document fault => "JSON error: " ++ fault.message

/-- The exit code of the program. An objection to settings or to an address has the same code
wherever it comes from. -/
def exitCode : CommandError → Nat
  | .settings _ | .failure (.settings _) => 1
  | .logging _ => 3
  | .address _ | .failure (.address _) => 4
  | .file _ => 5
  | .document _ => 6
  | .failure _ => 10
  | .delivery (.rejected _) => 20
  | .delivery (.exhausted _ _) => 21

end CommandError

end ChainAudit.Cli
