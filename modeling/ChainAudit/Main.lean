import ChainAudit.Cli.Arguments
import ChainAudit.Cli.Execute
import ChainAudit.Log.Sink
import Std.Time.DateTime.Timestamp

/-!
# The program

Reads the command line, the variables and the settings file, sets up the log, executes the command,
and prints what it leaves. The program has no network of its own, so nobody answers it. Passes are
watched until standard input ends.
-/

namespace ChainAudit.Program
open ChainAudit.Cli ChainAudit.Clock ChainAudit.Log ChainAudit.Text

/-- Why a file cannot be read. -/
def reasonOf : IO.Error → String
  | .noFileOrDirectory _ _ _ => "No such file or directory (os error 2)"
  | .permissionDenied _ _ _ => "Permission denied (os error 13)"
  | .inappropriateType _ _ _ => "Is a directory (os error 21)"
  | e => toString e

def contentOf (path : String) : IO (Except String Bytes) := do
  try return .ok (← IO.FS.readBinFile path).toList
  catch e => return .error (reasonOf e)

def variablesOf (names : List String) : IO (Table String) := do
  let values ← names.mapM fun name => return (name, ← IO.getEnv name)
  return values.filterMap fun (name, value) => value.map (name, ·)

def wallNow : IO Moment := do
  return ⟨(← Std.Time.Timestamp.now).toNanosecondsSinceUnixEpoch.val⟩

/-- The nanoseconds until standard input ends. -/
partial def untilEnd (input : IO.FS.Stream) (started : Nat) : IO Instant := do
  if (← input.getLine).isEmpty then return (← IO.monoNanosNow) - started
  else untilEnd input started

/-- Sets up the log that options ask for. The program goes on without one if that fails. -/
def openLog (o : Options) : IO (Option Sink) := do
  match Sink.install none (.ofVerbose o.logFormat o.verbose) (← IO.getEnv "RUST_LOG") with
  | .ok sink => return some sink
  | .error e =>
      IO.eprintln ("Warning: " ++ e.message)
      return none

def printAll (log : Option Sink) (t : Transcript) : IO Unit :=
  t.forM fun
    | .result text => IO.print text
    | .message text => IO.eprint text
    | .event e => ((log.bind (·.line? e)).forM IO.eprintln : IO Unit)

/-- The exit code of a program that broke down. -/
def lostCode : UInt32 := 101

/-- Prints the end of a command; the result is the exit code. -/
def finish (log : Option Sink) (e : CommandEnd) : IO UInt32 := do
  printAll log e.transcript
  match e.result with
  | none => return lostCode
  | some (.ok ()) => return 0
  | some (.error failure) =>
      IO.eprintln ("Error: " ++ failure.message)
      return UInt32.ofNat failure.exitCode

def perform (o : Options) (environment : Table String) : IO UInt32 := do
  let log ← openLog o
  let content ← match o.config with
    | none => pure (.error "")
    | some path => contentOf path
  let start ← wallNow
  let started ← IO.monoNanosNow
  let surroundings (interrupt : Instant) : Surroundings Unit := {
    environment := environment.get?
    fileAt := fun _ => content
    network := .unreachable
    behind := ()
    wall := fun instant => start.add ⟨instant⟩
    interrupt := interrupt }
  let atOnce := execute o (surroundings 0)
  match o.command, atOnce.result with
  | .watch _ _, some (.ok ()) =>
      finish log (execute o (surroundings (← untilEnd (← IO.getStdin) started)))
  | _, _ => finish log atOnce

def run (args : List String) : IO UInt32 := do
  let environment ← variablesOf (configVariable :: Settings.variableNames)
  match readArguments environment.get? args with
  | .ok o => perform o environment
  | .error e =>
      if e.exitCode = 0 then IO.println e.message else IO.eprintln e.message
      return UInt32.ofNat e.exitCode

end ChainAudit.Program

def main (args : List String) : IO UInt32 := ChainAudit.Program.run args
