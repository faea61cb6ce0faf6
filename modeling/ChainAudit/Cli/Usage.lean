/-!
# Errors of usage

What can be wrong with a command line. Requests for help and for the version end the program like
errors do, but successfully.
-/

namespace ChainAudit.Cli

/-- Why a command line leads to no command. -/
inductive UsageError where
  | help
  | version
  /-- Nothing was asked for. -/
  | nothingGiven
  | missingCommand
  | unknownCommand
  /-- An option or a word that nothing expects. -/
  | unknownArgument
  | missingArgument
  /-- An option that is given twice. -/
  | conflict
  /-- No value, or not one of the values that are possible. -/
  | invalidValue
  /-- A value that is no number. -/
  | badNumber
  /-- A value for an option that takes none. -/
  | unexpectedValue
  deriving DecidableEq, Repr, Inhabited

def UsageError.message : UsageError → String
  | .help | .nothingGiven =>
      "Commands: run [--no-notify], watch [--interval N] [--no-notify], " ++
        "normalize-address ADDRESS, config"
  | .version => "chain-audit"
  | .missingCommand => "a command is missing"
  | .unknownCommand => "there is no such command"
  | .unknownArgument => "an argument is not expected"
  | .missingArgument => "an argument is missing"
  | .conflict => "an option is given twice"
  | .invalidValue => "a value is missing or not possible"
  | .badNumber => "a value is no number"
  | .unexpectedValue => "an option takes no value"

def UsageError.exitCode : UsageError → Nat
  | .help | .version => 0
  | _ => 2

end ChainAudit.Cli
