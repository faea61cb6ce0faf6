import ChainAudit.Json.Literal
import ChainAudit.Text.Quoted

/-!
# JSON values and their text

Values of no particular type, and the two forms they are written in: compact, without any white
space, and indented by two blanks for each level. The members of an object keep their order.
-/

namespace ChainAudit.Json
open ChainAudit.Text ChainAudit.Decimal

inductive Value where
  | null
  | bool (b : Bool)
  | number (n : Number)
  | string (s : String)
  | array (items : List Value)
  | object (members : List (String × Value))
  deriving Repr, Inhabited

namespace Value

def int (i : Int) : Value := .number (.whole i)

def nat (n : Nat) : Value := .number (.whole n)

def optional (f : α → Value) : Option α → Value
  | none => .null
  | some a => f a

def member? (name : String) : Value → Option Value
  | .object members => (members.find? (·.1 == name)).map (·.2)
  | _ => none

end Value

def fourHex (n : Nat) : List Char :=
  let digits := writeHex n
  List.replicate (4 - digits.length) '0' ++ digits

/-- One character inside a string literal. -/
def writeChar (c : Char) : List Char :=
  match c with
  | '\"' => ['\\', '\"']
  | '\\' => ['\\', '\\']
  | '\x08' => ['\\', 'b']
  | '\x0c' => ['\\', 'f']
  | '\n' => ['\\', 'n']
  | '\r' => ['\\', 'r']
  | '\t' => ['\\', 't']
  | _ => if isControl c then '\\' :: 'u' :: fourHex c.toNat else [c]

def writeString (s : String) : List Char :=
  '\"' :: s.toList.flatMap writeChar ++ ['\"']

/-- A number literal; a double that is not finite has none and is written as null. -/
def Number.write : Number → List Char
  | .whole i => writeInteger i
  | .float x => if x.isFinite then documentLayout.write x else "null".toList

mutual

def Value.compact : Value → List Char
  | .null => "null".toList
  | .bool true => "true".toList
  | .bool false => "false".toList
  | .number n => n.write
  | .string s => writeString s
  | .array items => '[' :: compactItems items ++ [']']
  | .object members => '\x7b' :: compactMembers members ++ ['\x7d']

def compactItems : List Value → List Char
  | [] => []
  | [v] => v.compact
  | v :: rest => v.compact ++ ',' :: compactItems rest

def compactMembers : List (String × Value) → List Char
  | [] => []
  | [(k, v)] => writeString k ++ ':' :: v.compact
  | (k, v) :: rest => writeString k ++ ':' :: v.compact ++ ',' :: compactMembers rest

end

def newLine (level : Nat) : List Char :=
  '\n' :: List.replicate (2 * level) ' '

mutual

/-- The indented form of a value at a level. Empty containers stay on one line. -/
def Value.indented (level : Nat) : Value → List Char
  | .null => "null".toList
  | .bool true => "true".toList
  | .bool false => "false".toList
  | .number n => n.write
  | .string s => writeString s
  | .array [] => ['[', ']']
  | .array (v :: rest) => '[' :: indentedItems (level + 1) (v :: rest) ++ newLine level ++ [']']
  | .object [] => ['\x7b', '\x7d']
  | .object (m :: rest) =>
      '\x7b' :: indentedMembers (level + 1) (m :: rest) ++ newLine level ++ ['\x7d']

def indentedItems (level : Nat) : List Value → List Char
  | [] => []
  | [v] => newLine level ++ v.indented level
  | v :: rest => newLine level ++ v.indented level ++ ',' :: indentedItems level rest

def indentedMembers (level : Nat) : List (String × Value) → List Char
  | [] => []
  | [(k, v)] => newLine level ++ writeString k ++ ':' :: ' ' :: v.indented level
  | (k, v) :: rest =>
      newLine level ++ writeString k ++ ':' :: ' ' :: v.indented level ++
        ',' :: indentedMembers level rest

end

def Value.toText (v : Value) : String := String.ofList v.compact

def Value.toIndentedText (v : Value) : String := String.ofList (v.indented 0)

end ChainAudit.Json
