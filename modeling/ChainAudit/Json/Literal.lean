import ChainAudit.Json.Fault
import ChainAudit.Json.Token

/-!
# Meaning of literals

The text that a string literal stands for and the number that a number literal stands for. Both
readings are strict: surrogates must pair up, octets must form characters, numbers must be in
range. A reader that only passes over a literal checks less.
-/

namespace ChainAudit.Json
open ChainAudit.Text

/-- The fault of a string literal that does not end with a quote. -/
def StringEnd.fault? : StringEnd → Option Fault
  | .closed => none
  | .control => some .controlCharacter
  | .escape | .hex => some .invalidEscape
  | .cut => some .endInString

/-- A unit that opens a surrogate pair. -/
def isLeading (n : Nat) : Bool := 0xD800 ≤ n && n ≤ 0xDBFF

/-- A unit that ends a surrogate pair. -/
def isTrailing (n : Nat) : Bool := 0xDC00 ≤ n && n ≤ 0xDFFF

/-- The fault where a leading unit is followed by no further piece. -/
def StringEnd.afterLeading : StringEnd → Fault
  | .closed | .control | .escape => .missingSurrogate
  | .hex => .invalidEscape
  | .cut => .endInString

/-- The characters of a string literal. A stray octet is reported only if the literal has no other
fault, since octets are put together to characters at the closing quote. -/
def chars (ending : StringEnd) : List Piece → Except Fault (List Char)
  | [] =>
      match ending.fault? with
      | none => .ok []
      | some f => .error f
  | .glyph (.char c) :: rest => (chars ending rest).map (c :: ·)
  | .glyph (.stray _) :: rest =>
      match chars ending rest with
      | .ok _ => .error .invalidCharacter
      | .error f => .error f
  | .escaped c :: rest => (chars ending rest).map (c :: ·)
  | .unit n :: .unit m :: rest =>
      if isTrailing n then .error .loneSurrogate
      else if isLeading n then
        if isTrailing m then
          (chars ending rest).map
            (Char.ofNat (0x10000 + (n - 0xD800) * 0x400 + (m - 0xDC00)) :: ·)
        else .error .loneSurrogate
      else (chars ending (.unit m :: rest)).map (Char.ofNat n :: ·)
  | .unit n :: rest =>
      if isTrailing n then .error .loneSurrogate
      else if isLeading n then
        .error (if rest.isEmpty then ending.afterLeading else .missingSurrogate)
      else (chars ending rest).map (Char.ofNat n :: ·)

def StringLit.text (s : StringLit) : Except Fault String :=
  (chars s.ending s.pieces).map String.ofList

/-- A number as documents know them: a whole number of 64 bits, negative or not, or a double. -/
inductive Number where
  | whole (i : Int)
  | float (x : Float)
  deriving Repr, Inhabited

/-- What a number is called where another type was due. -/
def Number.found : Number → Found
  | .whole i => .integer i
  | .float x => .float x

def Number.toFloat : Number → Float
  | .whole (.ofNat n) => n.toUInt64.toFloat
  | .whole (.negSucc n) => -(n + 1).toUInt64.toFloat
  | .float x => x

/-- Digits appended to a significand while it stays below `2^64`, and how many were left out. -/
def appendDigits (significand : Nat) : List Char → Nat × Nat
  | [] => (significand, 0)
  | d :: ds =>
      let next := significand * 10 + (digitValue? d).getD 0
      if next < bound64 then appendDigits next ds else (significand, ds.length + 1)

/-- The power of ten `10^n` as a double, for `n` up to 308. -/
def powerOfTen (n : Nat) : Float :=
  Float.ofScientific 1 false n

/-- `x · 10^exponent`, by a single multiplication or division where the power is in the range of
doubles, and by repeated division below it. `steps` bounds the repetitions. -/
def scale : (steps : Nat) → (x : Float) → (exponent : Int) → Except Fault Float
  | 0, x, _ => .ok x
  | steps + 1, x, exponent =>
      if exponent.natAbs ≤ 308 then
        if 0 ≤ exponent then
          let y := x * powerOfTen exponent.natAbs
          if y.isInf then .error .numberOutOfRange else .ok y
        else .ok (x / powerOfTen exponent.natAbs)
      else if x == 0.0 then .ok x
      else if 0 ≤ exponent then .error .numberOutOfRange
      else scale steps (x / powerOfTen 308) (exponent + 308)

/-- The double with a sign, a significand below `2^64` and a power of ten. -/
def assemble (negative : Bool) (significand : Nat) (exponent : Int) : Except Fault Float :=
  (scale (exponent.natAbs / 308 + 1) significand.toUInt64.toFloat exponent).map fun x =>
    if negative then -x else x

/-- The greatest power of ten that is computed with; beyond it a number is zero or out of range. -/
def greatestPower : Nat := 2147483647

/-- The number of a literal. Without point, power and excess digits it is whole if it fits 64 bits
and is not the negative zero; otherwise it is the double of at most 64 bits of significand. -/
def NumberLit.number (n : NumberLit) : Except Fault Number :=
  let (whole, excess) := appendDigits 0 n.whole
  match n.fraction, n.power with
  | none, none =>
      if excess = 0 ∧ ¬ n.negative then .ok (.whole whole)
      else if excess = 0 ∧ whole ≠ 0 ∧ whole ≤ Nat.pow 2 63 then .ok (.whole (-whole))
      else (assemble n.negative whole excess).map .float
  | fraction, power =>
      let places := fraction.getD []
      let (significand, left) := appendDigits whole places
      let exponent : Int := (excess : Int) - ((places.length : Int) - left)
      match power with
      | none => (assemble n.negative significand exponent).map .float
      | some p =>
          let e := numberOfDigits p.digits
          if greatestPower < e then
            if significand ≠ 0 ∧ ¬ p.negative then .error .numberOutOfRange
            else .ok (.float (if n.negative then -0.0 else 0.0))
          else
            (assemble n.negative significand
              (if p.negative then exponent - e else exponent + e)).map .float

end ChainAudit.Json
