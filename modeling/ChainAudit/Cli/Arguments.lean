import ChainAudit.Cli.Options
import ChainAudit.Cli.Usage
import ChainAudit.Text.Numeral
import ChainAudit.Text.Segments

/-!
# Reading command lines

Arguments are read from left to right, first those of the program and, behind the name of a
command, those of the command. An option may be written with a long name or with a letter, letters
may be joined, and the value of an option is joined to it or is the next argument. The value of an
option is looked at only when the next option or the end is reached, so an objection to a later
argument may come first.
-/

namespace ChainAudit.Cli
open ChainAudit.Text

inductive OptionName where
  | config
  | storeUrl
  | webhookUrl
  | projects
  | workers
  | format
  | logFormat
  | verbose
  | noNotify
  | interval
  | help
  | version
  deriving DecidableEq, Repr, Inhabited

namespace OptionName

def long : OptionName → String
  | .config => "config"
  | .storeUrl => "store-url"
  | .webhookUrl => "webhook-url"
  | .projects => "projects"
  | .workers => "workers"
  | .format => "format"
  | .logFormat => "log-format"
  | .verbose => "verbose"
  | .noNotify => "no-notify"
  | .interval => "interval"
  | .help => "help"
  | .version => "version"

def letter? : OptionName → Option Char
  | .config => some 'c'
  | .projects => some 'p'
  | .workers => some 'w'
  | .format => some 'f'
  | .verbose => some 'v'
  | .interval => some 'i'
  | .help => some 'h'
  | .version => some 'V'
  | _ => none

def isFlag : OptionName → Bool
  | .verbose | .noNotify | .help | .version => true
  | _ => false

end OptionName

inductive OptionValue where
  | present
  | text (s : String)
  | number (n : Nat)
  | format (f : Format)
  | logFormat (f : LineStyle)
  deriving DecidableEq, Repr, Inhabited

/-- A value by its name. -/
def chosen (names : List (String × α)) (value : String) : Except UsageError α :=
  match names.find? (·.1 == value) with
  | some (_, a) => .ok a
  | none => .error .invalidValue

def counted (value : String) : Except UsageError OptionValue :=
  match readNumber? bound64 value.toList with
  | some n => .ok (.number n)
  | none => .error .badNumber

/-- The value of an option that its text stands for. -/
def OptionName.read (o : OptionName) (value : String) : Except UsageError OptionValue :=
  match o with
  | .config => if value.isEmpty then .error .invalidValue else .ok (.text value)
  | .storeUrl | .webhookUrl | .projects => .ok (.text value)
  | .workers | .interval => counted value
  | .format => (chosen Format.names value).map .format
  | .logFormat => (chosen LineStyle.names value).map .logFormat
  | .verbose | .noNotify | .help | .version => .ok .present

/-- What may stand at a level of a command line: the program's or a command's. -/
structure Level where
  options : List OptionName
  commands : List String
  takesWord : Bool

def commandNames : List String := ["run", "watch", "normalize-address", "config", "help"]

def programLevel : Level where
  options := [.config, .storeUrl, .webhookUrl, .projects, .workers, .format, .logFormat, .verbose,
    .help, .version]
  commands := commandNames
  takesWord := false

def commandLevel (name : String) : Level :=
  if name = "run" then ⟨[.noNotify, .help], [], false⟩
  else if name = "watch" then ⟨[.interval, .noNotify, .help], [], false⟩
  else if name = "normalize-address" then ⟨[.help], [], true⟩
  else ⟨[.help], [], false⟩

/-- What was read of a level: options with their values, the option read last if its value is yet
to be looked at, the word, and whether all that follows are words. -/
structure Reading where
  given : List (OptionName × OptionValue)
  pending : Option (OptionName × Option String)
  word : Option String
  wordsOnly : Bool
  deriving Inhabited

namespace Reading

def start : Reading := ⟨[], none, none, false⟩

def value? (o : OptionName) (r : Reading) : Option OptionValue :=
  (r.given.find? (·.1 == o)).map (·.2)

/-- Adds an option with the text of its value, which may be given only once. -/
def add (o : OptionName) (value : String) (r : Reading) : Except UsageError Reading :=
  if (r.value? o).isSome then .error .conflict
  else (o.read value).map fun v => { r with given := (o, v) :: r.given }

/-- Looks at the value of the option read last. -/
def settle (r : Reading) : Except UsageError Reading :=
  match r.pending with
  | none => .ok r
  | some (_, none) => .error .invalidValue
  | some (o, some value) => { r with pending := none }.add o value

def flag (o : OptionName) (r : Reading) : Except UsageError Reading := do
  let r ← r.settle
  match o with
  | .help => .error .help
  | .version => .error .version
  | o => r.add o ""

def option (o : OptionName) (joined : Option String) (r : Reading) : Except UsageError Reading := do
  let r ← r.settle
  match joined with
  | some value => r.add o value
  | none => return { r with pending := some (o, none) }

def awaitsValue (r : Reading) : Bool :=
  match r.pending with
  | some (_, none) => true
  | _ => false

def takeValue (value : String) (r : Reading) : Reading :=
  { r with pending := r.pending.map fun (o, _) => (o, some value) }

end Reading

/-- The name and the joined value of a long option. -/
def splitLong (body : List Char) : String × Option String :=
  match cutAt? ['='] body with
  | some (name, value) => (String.ofList name, some (String.ofList value))
  | none => (String.ofList body, none)

def readLong (l : Level) (body : List Char) (r : Reading) : Except UsageError Reading :=
  let (name, joined) := splitLong body
  match l.options.find? (·.long == name), joined with
  | none, _ => .error .unknownArgument
  | some o, joined =>
      if o.isFlag then
        match joined with
        | none => r.flag o
        | some _ => .error .unexpectedValue
      else r.option o joined

/-- Reads options with letters; what follows a letter that takes a value is the value. -/
def readLetters (l : Level) : List Char → Reading → Except UsageError Reading
  | [], r => .ok r
  | c :: rest, r =>
      match l.options.find? (·.letter? == some c) with
      | none => .error .unknownArgument
      | some o =>
          if o.isFlag then do readLetters l rest (← r.flag o)
          else
            match rest with
            | [] => r.option o none
            | '=' :: value => r.option o (some (String.ofList value))
            | value => r.option o (some (String.ofList value))

/-- Reads a word. What no level expects is an unknown command at the level of the program, unless
it is a known one where only words may stand. -/
def readWord (l : Level) (arg : String) (r : Reading) : Except UsageError Reading :=
  if l.takesWord && r.word.isNone then do return { ← r.settle with word := some arg }
  else if l.commands.isEmpty then .error .unknownArgument
  else if r.wordsOnly && l.commands.contains arg then .error .unknownArgument
  else .error .unknownCommand

/-- Reads the arguments of a level, up to the name of a command; the result is what was read and
the command with the arguments behind its name. -/
def readLevel (l : Level) : List String → Reading →
    Except UsageError (Reading × Option (String × List String))
  | [], r => .ok (r, none)
  | arg :: rest, r =>
      if r.wordsOnly then do readLevel l rest (← readWord l arg r)
      else if !r.awaitsValue && l.commands.contains arg then .ok (r, some (arg, rest))
      else
        match arg.toList with
        | ['-', '-'] => readLevel l rest { r with wordsOnly := true }
        | '-' :: '-' :: body => do readLevel l rest (← readLong l body r)
        | '-' :: c :: letters => do readLevel l rest (← readLetters l (c :: letters) r)
        | _ =>
            if r.awaitsValue then readLevel l rest (r.takeValue arg)
            else do readLevel l rest (← readWord l arg r)

def Reading.text? (o : OptionName) (r : Reading) : Option String :=
  match r.value? o with
  | some (.text s) => some s
  | _ => none

def Reading.number? (o : OptionName) (r : Reading) : Option Nat :=
  match r.value? o with
  | some (.number n) => some n
  | _ => none

def Reading.has (o : OptionName) (r : Reading) : Bool :=
  (r.value? o).isSome

/-- What a request for help leads to: names of commands may follow it. -/
def helpFor : List String → UsageError
  | [] => .help
  | [name] => if commandNames.contains name then .help else .unknownCommand
  | _ :: _ => .unknownCommand

def readCommand (name : String) (args : List String) : Except UsageError Command := do
  if name = "help" then .error (helpFor args)
  else
    let (r, _) ← readLevel (commandLevel name) args .start
    let r ← r.settle
    if name = "run" then return .run (r.has .noNotify)
    else if name = "watch" then return .watch (r.number? .interval) (r.has .noNotify)
    else if name = "normalize-address" then
      match r.word with
      | none => .error .missingArgument
      | some address => return .normalizeAddress address
    else return .config

/-- The variable that the settings file can be given by. -/
def configVariable : String := "DAG_VERIFIER_CONFIG"

/-- Adds the settings file that a variable gives, if no option does. -/
def Reading.withVariable (environment : String → Option String) (r : Reading) :
    Except UsageError Reading :=
  if r.has .config then .ok r
  else
    match environment configVariable with
    | none => .ok r
    | some value => r.add .config value

def Reading.format (r : Reading) : Format :=
  match r.value? .format with
  | some (.format f) => f
  | _ => .table

def Reading.logFormat (r : Reading) : LineStyle :=
  match r.value? .logFormat with
  | some (.logFormat f) => f
  | _ => .compact

def readArguments (environment : String → Option String) (args : List String) :
    Except UsageError Options := do
  let (r, found) ← readLevel programLevel args .start
  let command ← found.mapM fun (name, rest) => readCommand name rest
  let r ← (← r.settle).withVariable environment
  match command with
  | none => .error (if r.given.isEmpty then .nothingGiven else .missingCommand)
  | some command => return {
      config := r.text? .config
      storeUrl := r.text? .storeUrl
      webhookUrl := r.text? .webhookUrl
      projects := r.text? .projects
      workers := r.number? .workers
      format := r.format
      logFormat := r.logFormat
      verbose := r.has .verbose
      command := command }

end ChainAudit.Cli
