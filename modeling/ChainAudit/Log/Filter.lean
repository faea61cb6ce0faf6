import ChainAudit.Log.Event
import ChainAudit.Text.Letters
import ChainAudit.Text.Numeral
import ChainAudit.Text.Segments

/-!
# Filters of events

A filter is a list of directives, separated by commas and each written as a level, as the start of
a target, or as `target=level`; a target may be followed by a span and a field in brackets. Of the
directives that apply to an event the most specific decides. No directive holds blanks around its
parts. A filter without directives lets errors through.
-/

namespace ChainAudit.Log
open ChainAudit.Text

/-- A level by its name in any case or by its place in the order. -/
def readLevel? (cs : List Char) : Option Level :=
  match readNumber? bound64 cs with
  | some n => Level.all[n]?
  | none => Level.all.find? fun l => sameLetters l.name (String.ofList cs)

/-- A directive: a level, and what an event must have for it to apply. -/
structure Directive where
  target : Option String
  span : Option String
  field : Option String
  level : Level
  deriving DecidableEq, Repr, Inhabited

namespace Directive

def ofLevel (l : Level) : Directive := ⟨none, none, none, l⟩

def ofTarget (target : String) (l : Level) : Directive := ⟨some target, none, none, l⟩

/-- Whether a directive may start with a character. Beyond ASCII any character counts as a
letter. -/
def mayStart (c : Char) : Bool :=
  c.isAlphanum || c == '-' || c == ':' || c == '_' || 128 ≤ c.toNat

/-- The level after an equals sign; everything, if there is none. -/
def readLevelOr? : List Char → Option Level
  | [] => some .trace
  | cs => readLevel? cs

/-- What follows the brackets of a directive. -/
def readRest? (d : Directive) : List Char → Option Directive
  | [] => some d
  | '=' :: rest => (readLevelOr? rest).map fun l => { d with level := l }
  | _ => none

/-- The field in a directive, and what follows the brackets. -/
def readField? (d : Directive) (cs : List Char) : Option Directive :=
  match cs.takeWhile (· ≠ '\x7d'), cs.dropWhile (· ≠ '\x7d') with
  | [], _ => none
  | name, '\x7d' :: ']' :: rest => readRest? { d with field := some (String.ofList name) } rest
  | _, _ => none

/-- The brackets of a directive, after the first of them, and what follows. -/
def readBrackets? (target : Option String) (cs : List Char) : Option Directive :=
  let inside (c : Char) : Bool := c ≠ ']' && c ≠ '\x7b'
  let span := String.ofList (cs.takeWhile inside)
  match cs.dropWhile inside with
  | ']' :: rest => readRest? ⟨target, some span, none, .trace⟩ rest
  | '\x7b' :: rest =>
      readField? ⟨target, if span.isEmpty then none else some span, none, .trace⟩ rest
  | _ => none

/-- The directive that starts with a name: of a level or of a target. -/
def readNamed? (cs : List Char) : Option Directive :=
  let inside (c : Char) : Bool := c ≠ '=' && c ≠ '['
  let name := cs.takeWhile inside
  match cs.dropWhile inside with
  | [] => some <|
      match readLevel? name with
      | some l => ofLevel l
      | none => ofTarget (String.ofList name) .trace
  | '[' :: rest => readBrackets? (some (String.ofList name)) rest
  | rest => readRest? (ofTarget (String.ofList name) .trace) rest

def read? : List Char → Option Directive
  | [] => none
  | '[' :: rest => readBrackets? none rest
  | c :: rest => if mayStart c then readNamed? (c :: rest) else none

/-- Whether a directive says all by the target and the name of a field; others need more of an
event than it has. -/
def isPlain (d : Directive) : Bool :=
  d.span.isNone && d.field.all fun f => !f.toList.contains '='

def applies (d : Directive) (e : Event) : Bool :=
  d.isPlain && d.target.all (fun t => t.toList.isPrefixOf e.target.toList) &&
    d.field.all e.fields.contains

/-- The octets of the target of a directive; a directive without one comes before all others. -/
def reach (d : Directive) : Nat :=
  match d.target with
  | none => 0
  | some t => t.utf8ByteSize + 1

/-- Whether a directive is no more specific than another that applies to the same event: the target
decides, then the field. -/
def precedes (d e : Directive) : Bool :=
  d.reach < e.reach ||
    (d.reach == e.reach &&
      match d.field, e.field with
      | none, _ => true
      | some _, none => false
      | some f, some g => decide (f ≤ g))

/-- The text of a directive for a target. -/
def write (d : Directive) : String :=
  match d.target with
  | none => d.level.name
  | some t => t ++ "=" ++ d.level.name

end Directive

abbrev Filter := List Directive

namespace Filter

def read? (s : String) : Option Filter :=
  ((segments ',' s.toList).filter (!·.isEmpty)).mapM Directive.read?

def write (f : Filter) : String := String.intercalate "," (f.map Directive.write)

/-- The directive that decides about an event: of the most specific ones the last. -/
def deciding? (f : Filter) (e : Event) : Option Directive :=
  (f.filter (·.applies e)).foldl
    (fun best d =>
      match best with
      | none => some d
      | some b => if b.precedes d then some d else some b) none

def passes (f : Filter) (e : Event) : Bool :=
  let f : Filter := if f.isEmpty then [.ofLevel .error] else f
  match f.deciding? e with
  | none => false
  | some d => e.level.rank ≤ d.level.rank

end Filter

end ChainAudit.Log
