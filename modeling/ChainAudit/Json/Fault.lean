import ChainAudit.Decimal.Layout
import ChainAudit.Text.Quoted

/-!
# Faults of JSON documents

Everything that can be wrong with a document that should hold a value of a known type: the text
breaks the rules of JSON, it ends too early, or the value does not fit the type. Each fault has one
wording.
-/

namespace ChainAudit.Json
open ChainAudit.Text ChainAudit.Decimal

/-- The value found where one of another type was due. -/
inductive Found where
  | null
  | bool (b : Bool)
  | integer (i : Int)
  | float (x : Float)
  | string (s : String)
  | sequence
  | map
  deriving Repr, Inhabited

def Found.describe : Found → String
  | .null => "null"
  | .bool b => "boolean \x60" ++ (if b then "true" else "false") ++ "\x60"
  | .integer i => "integer \x60" ++ String.ofList (writeInteger i) ++ "\x60"
  | .float x => "floating point \x60" ++ String.ofList (documentLayout.write x) ++ "\x60"
  | .string s => "string " ++ quoted s
  | .sequence => "sequence"
  | .map => "map"

inductive Fault where
  | expectedValue
  | expectedWord
  | expectedColon
  | expectedListEnd
  | expectedObjectEnd
  | keyNotString
  | trailingComma
  | trailingCharacters
  | invalidNumber
  | numberOutOfRange
  | invalidEscape
  | controlCharacter
  | invalidCharacter
  | loneSurrogate
  | missingSurrogate
  | tooDeep
  | endInValue
  | endInObject
  | endInList
  | endInString
  | missingField (name : String)
  | duplicateField (name : String)
  | invalidType (found : Found) (expected : String)
  | invalidValue (found : Found) (expected : String)
  | unknownVariant (name : String) (known : List String)
  | invalidLength (length : Nat) (expected : String)
  | noVariant (type : String)
  deriving Repr, Inhabited

inductive Category where
  | grammar
  | data
  | cutOff
  deriving DecidableEq, Repr

def Fault.category : Fault → Category
  | .endInValue | .endInObject | .endInList | .endInString => .cutOff
  | .missingField _ | .duplicateField _ | .invalidType _ _ | .invalidValue _ _
  | .unknownVariant _ _ | .invalidLength _ _ | .noVariant _ => .data
  | _ => .grammar

/-- A name between backticks. -/
def ticked (name : String) : String :=
  "\x60" ++ name ++ "\x60"

def Fault.message : Fault → String
  | .expectedValue => "expected value"
  | .expectedWord => "expected ident"
  | .expectedColon => "expected " ++ ticked ":"
  | .expectedListEnd => "expected " ++ ticked "," ++ " or " ++ ticked "]"
  | .expectedObjectEnd => "expected " ++ ticked "," ++ " or " ++ ticked "\x7d"
  | .keyNotString => "key must be a string"
  | .trailingComma => "trailing comma"
  | .trailingCharacters => "trailing characters"
  | .invalidNumber => "invalid number"
  | .numberOutOfRange => "number out of range"
  | .invalidEscape => "invalid escape"
  | .controlCharacter => "control character (\\u0000-\\u001F) found while parsing a string"
  | .invalidCharacter => "invalid unicode code point"
  | .loneSurrogate => "lone leading surrogate in hex escape"
  | .missingSurrogate => "unexpected end of hex escape"
  | .tooDeep => "recursion limit exceeded"
  | .endInValue => "EOF while parsing a value"
  | .endInObject => "EOF while parsing an object"
  | .endInList => "EOF while parsing a list"
  | .endInString => "EOF while parsing a string"
  | .missingField name => "missing field " ++ ticked name
  | .duplicateField name => "duplicate field " ++ ticked name
  | .invalidType found expected => "invalid type: " ++ found.describe ++ ", expected " ++ expected
  | .invalidValue found expected =>
      "invalid value: " ++ found.describe ++ ", expected " ++ expected
  | .unknownVariant name known =>
      "unknown variant " ++ ticked name ++ ", expected one of " ++
        String.intercalate ", " (known.map ticked)
  | .invalidLength length expected =>
      "invalid length " ++ String.ofList (writeNumber length) ++ ", expected " ++ expected
  | .noVariant type => "data did not match any variant of untagged enum " ++ type

end ChainAudit.Json
