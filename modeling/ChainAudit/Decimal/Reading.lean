import ChainAudit.Text.Letters
import ChainAudit.Text.Numeral
import ChainAudit.Text.Segments

/-!
# Reading doubles

The double that a decimal text denotes: the nearest one, as settings need it. Besides digits, a
point and a power of ten, the words for infinity and for no number are understood.
-/

namespace ChainAudit.Decimal
open ChainAudit.Text

/-- The double nearest to `digits · 10^exponent`. Magnitudes far outside the range of doubles are
settled by the position of the first digit alone. -/
def nearest (digits : Nat) (exponent : Int) : Float :=
  if digits = 0 then 0.0
  else
    let first : Int := (Nat.toDigits 10 digits).length + exponent
    if 310 < first then 1.0 / 0.0
    else if first < -330 then 0.0
    else
      match exponent with
      | .ofNat n => Float.ofScientific digits false n
      | .negSucc n => Float.ofScientific digits true (n + 1)

/-- The signed power of ten after the letter `e`. -/
def readPower? (cs : List Char) : Option Int :=
  let (negative, digits) := match cs with
    | '-' :: rest => (true, rest)
    | '+' :: rest => (false, rest)
    | other => (false, other)
  if isNumeral digits then
    let n : Int := numberOfDigits digits
    some (if negative then -n else n)
  else none

/-- An unsigned decimal: digits with an optional point among, before or after them, and an optional
power of ten. At least one digit stands before the power. -/
def readMagnitude? (cs : List Char) : Option Float :=
  let (mantissa, power) := match cutAt? ['e'] (cs.map lowerAscii) with
    | some (m, p) => (m, readPower? p)
    | none => (cs, some 0)
  let (whole, fraction) := match cutAt? ['.'] mantissa with
    | some (w, f) => (w, f)
    | none => (mantissa, [])
  match power with
  | none => none
  | some p =>
      if isNumeral (whole ++ fraction) then
        some (nearest (numberOfDigits (whole ++ fraction)) (p - fraction.length))
      else none

def readFloat? (cs : List Char) : Option Float :=
  let (negative, rest) := match cs with
    | '-' :: rest => (true, rest)
    | '+' :: rest => (false, rest)
    | other => (false, other)
  let magnitude :=
    if rest.map lowerAscii = "inf".toList ∨ rest.map lowerAscii = "infinity".toList then
      some (1.0 / 0.0)
    else if rest.map lowerAscii = "nan".toList then some (0.0 / 0.0)
    else readMagnitude? rest
  magnitude.map fun x => if negative then -x else x

end ChainAudit.Decimal
