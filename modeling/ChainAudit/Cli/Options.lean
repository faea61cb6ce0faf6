/-!
# Options of the command line

What a command line asks for: a command, and the options that hold for every command.
-/

namespace ChainAudit.Cli

inductive Format where
  | json
  | table
  | plain
  deriving DecidableEq, Repr, Inhabited

def Format.names : List (String × Format) :=
  [("json", .json), ("table", .table), ("plain", .plain)]

inductive LineStyle where
  | pretty
  | json
  | compact
  deriving DecidableEq, Repr, Inhabited

def LineStyle.names : List (String × LineStyle) :=
  [("pretty", .pretty), ("json", .json), ("compact", .compact)]

def nameOf [BEq α] (a : α) (names : List (String × α)) : String :=
  ((names.find? (·.2 == a)).map (·.1)).getD ""

inductive Command where
  /-- One pass. -/
  | run (noNotify : Bool)
  /-- Passes at an interval of seconds. -/
  | watch (intervalSecs : Option Nat) (noNotify : Bool)
  /-- The URL of a store address. -/
  | normalizeAddress (address : String)
  /-- The settings in force. -/
  | config
  deriving DecidableEq, Repr, Inhabited

structure Options where
  config : Option String
  storeUrl : Option String
  webhookUrl : Option String
  projects : Option String
  workers : Option Nat
  format : Format
  logFormat : LineStyle
  verbose : Bool
  command : Command
  deriving DecidableEq, Repr, Inhabited

end ChainAudit.Cli
