import ChainAudit.Text.Numeral
import ChainAudit.Text.Utf8

/-!
# Tokens of a JSON text

The lexical level: structural marks, string and number literals, and the three words. White space
separates tokens and leaves no trace. A literal that breaks off or is misspelt becomes a token that
says how; nothing is read after it, because a reader that meets it stops. Whether it is met at all
is for the reader to find out.
-/

namespace ChainAudit.Json
open ChainAudit.Text

/-- One unit of the inside of a string literal. -/
inductive Piece where
  /-- A glyph that stands for itself. -/
  | glyph (g : Glyph)
  /-- A character written as a backslash and a letter or mark. -/
  | escaped (c : Char)
  /-- A 16 bit unit written as `\u` and four hexadecimal digits. -/
  | unit (n : Nat)
  deriving DecidableEq, Repr, Inhabited

/-- How a string literal ends. -/
inductive StringEnd where
  | closed
  /-- A control character stands in it. -/
  | control
  /-- A backslash with a character that no escape has. -/
  | escape
  /-- `\u` without four hexadecimal digits. -/
  | hex
  /-- The text ends first. -/
  | cut
  deriving DecidableEq, Repr, Inhabited

structure StringLit where
  pieces : List Piece
  ending : StringEnd
  deriving DecidableEq, Repr, Inhabited

structure PowerLit where
  negative : Bool
  digits : List Char
  deriving DecidableEq, Repr, Inhabited

/-- A number literal in its parts; the lists hold digits. -/
structure NumberLit where
  negative : Bool
  whole : List Char
  fraction : Option (List Char)
  power : Option PowerLit
  deriving DecidableEq, Repr, Inhabited

inductive Token where
  | openArray
  | closeArray
  | openObject
  | closeObject
  | colon
  | comma
  | null
  | bool (b : Bool)
  | number (n : NumberLit)
  | string (s : StringLit)
  /-- A number literal that lacks a digit or has one too many; `cut` if the text ends there. -/
  | badNumber (cut : Bool)
  /-- A misspelt word; `cut` if the text ends within it. -/
  | badWord (cut : Bool)
  /-- A character that starts no token. -/
  | stray
  deriving DecidableEq, Repr, Inhabited

def hexValue? (c : Char) : Option Nat :=
  if '0' ≤ c ∧ c ≤ '9' then some (c.toNat - '0'.toNat)
  else if 'a' ≤ c ∧ c ≤ 'f' then some (c.toNat - 'a'.toNat + 10)
  else if 'A' ≤ c ∧ c ≤ 'F' then some (c.toNat - 'A'.toNat + 10)
  else none

def Glyph.hexValue? : Glyph → Option Nat
  | .char c => Json.hexValue? c
  | .stray _ => none

/-- The unit that four glyphs denote. -/
def unitOf? (a b c d : Glyph) : Option Nat :=
  match Glyph.hexValue? a, Glyph.hexValue? b, Glyph.hexValue? c, Glyph.hexValue? d with
  | some w, some x, some y, some z => some (((w * 16 + x) * 16 + y) * 16 + z)
  | _, _, _, _ => none

/-- The character that a backslash and `c` stand for. -/
def escapedChar? (c : Char) : Option Char :=
  match c with
  | '\"' => some '\"'
  | '\\' => some '\\'
  | '/' => some '/'
  | 'b' => some '\x08'
  | 'f' => some '\x0c'
  | 'n' => some '\n'
  | 'r' => some '\r'
  | 't' => some '\t'
  | _ => none

/-- Characters below the blank may not stand in a string literal. -/
def isControl (c : Char) : Bool :=
  c.toNat < 0x20

/-- How a string literal ends when `\u` is followed by `rest` and not by four digits: as cut off if
fewer than four octets are left. -/
def hexFault (rest : List Glyph) : StringEnd :=
  if rest.foldr (fun g width => g.width + width) 0 < 4 then .cut else .hex

/-- The literal after its opening quote, and what follows it. -/
def scanString : List Glyph → StringLit × List Glyph
  | [] => (⟨[], .cut⟩, [])
  | .char '\"' :: rest => (⟨[], .closed⟩, rest)
  | [.char '\\'] => (⟨[], .cut⟩, [])
  | .char '\\' :: .char 'u' :: a :: b :: c :: d :: rest =>
      match unitOf? a b c d with
      | some n =>
          let (s, after) := scanString rest
          (⟨.unit n :: s.pieces, s.ending⟩, after)
      | none => (⟨[], hexFault (a :: b :: c :: d :: rest)⟩, [])
  | .char '\\' :: .char 'u' :: rest => (⟨[], hexFault rest⟩, [])
  | .char '\\' :: .char e :: rest =>
      match escapedChar? e with
      | some c =>
          let (s, after) := scanString rest
          (⟨.escaped c :: s.pieces, s.ending⟩, after)
      | none => (⟨[], .escape⟩, [])
  | .char '\\' :: .stray _ :: _ => (⟨[], .escape⟩, [])
  | .char c :: rest =>
      if isControl c then (⟨[], .control⟩, [])
      else
        let (s, after) := scanString rest
        (⟨.glyph (.char c) :: s.pieces, s.ending⟩, after)
  | .stray b :: rest =>
      let (s, after) := scanString rest
      (⟨.glyph (.stray b) :: s.pieces, s.ending⟩, after)

def scanDigits : List Glyph → List Char × List Glyph
  | .char c :: rest =>
      if isDigit c then
        let (ds, after) := scanDigits rest
        (c :: ds, after)
      else ([], .char c :: rest)
  | other => ([], other)

/-- The power of ten after a mantissa, and what follows it: none where no letter `e` stands, and
the token of the fault where digits are missing. -/
def scanPower : List Glyph → Except Token (Option PowerLit) × List Glyph
  | .char c :: rest =>
      if c = 'e' ∨ c = 'E' then
        let (negative, unsigned) := match rest with
          | .char '-' :: r => (true, r)
          | .char '+' :: r => (false, r)
          | r => (false, r)
        match scanDigits unsigned with
        | ([], after) => (.error (.badNumber after.isEmpty), [])
        | (ds, after) => (.ok (some ⟨negative, ds⟩), after)
      else (.ok none, .char c :: rest)
  | other => (.ok none, other)

/-- The digits after a point, and what follows them. -/
def scanFraction : List Glyph → Except Token (Option (List Char)) × List Glyph
  | .char '.' :: rest =>
      match scanDigits rest with
      | ([], after) => (.error (.badNumber after.isEmpty), [])
      | (ds, after) => (.ok (some ds), after)
  | other => (.ok none, other)

/-- The number literal at the start of a text after its sign, and what follows it. A zero in front
of other digits is a digit too many. -/
def scanNumber (negative : Bool) (text : List Glyph) : Token × List Glyph :=
  match scanDigits text with
  | ([], after) => (.badNumber after.isEmpty, [])
  | ('0' :: _ :: _, _) => (.badNumber false, [])
  | (whole, afterWhole) =>
      match scanFraction afterWhole with
      | (.error fault, _) => (fault, [])
      | (.ok fraction, afterFraction) =>
          match scanPower afterFraction with
          | (.error fault, _) => (fault, [])
          | (.ok power, after) => (.number ⟨negative, whole, fraction, power⟩, after)

/-- The word that should go on with `letters`, and what follows it. -/
def scanWord (word : Token) : (letters : List Char) → List Glyph → Token × List Glyph
  | [], rest => (word, rest)
  | _ :: _, [] => (.badWord true, [])
  | l :: ls, g :: rest => if g = .char l then scanWord word ls rest else (.badWord false, [])

def isSpace (c : Char) : Bool :=
  c == ' ' || c == '\n' || c == '\t' || c == '\r'

/-- Whether reading goes on after a token. -/
def Token.isWhole : Token → Bool
  | .string s => s.ending == .closed
  | .badNumber _ | .badWord _ | .stray => false
  | _ => true

/-- The token that starts with a glyph, and what follows it; white space starts none. -/
def scanToken (g : Glyph) (rest : List Glyph) : Option Token × List Glyph :=
  match g with
  | .stray _ => (some .stray, [])
  | .char c =>
      if isSpace c then (none, rest)
      else
        match c with
        | '[' => (some .openArray, rest)
        | ']' => (some .closeArray, rest)
        | '\x7b' => (some .openObject, rest)
        | '\x7d' => (some .closeObject, rest)
        | ':' => (some .colon, rest)
        | ',' => (some .comma, rest)
        | '\"' => let (s, after) := scanString rest; (some (.string s), after)
        | '-' => let (t, after) := scanNumber true rest; (some t, after)
        | 'n' => let (t, after) := scanWord .null "ull".toList rest; (some t, after)
        | 't' => let (t, after) := scanWord (.bool true) "rue".toList rest; (some t, after)
        | 'f' => let (t, after) := scanWord (.bool false) "alse".toList rest; (some t, after)
        | _ =>
            if isDigit c then
              let (t, after) := scanNumber false (.char c :: rest); (some t, after)
            else (some .stray, [])

/-- The tokens of a text, at most `steps` of them and of the white space between. -/
def scanTokens : (steps : Nat) → List Glyph → List Token
  | 0, _ => []
  | _, [] => []
  | steps + 1, g :: rest =>
      match scanToken g rest with
      | (none, after) => scanTokens steps after
      | (some t, after) => if t.isWhole then t :: scanTokens steps after else [t]

/-- The tokens of a text. Every step takes at least one glyph, so there are enough. -/
def tokens (text : List Glyph) : List Token :=
  scanTokens text.length text

end ChainAudit.Json
