import ChainAudit.Decimal.Shortest
import ChainAudit.Text.Numeral

/-!
# Layout of decimals

How the digits of a double are set as text: with the decimal point in place, or with one digit
before the point and a power of ten after the digits. A layout says which magnitudes are written in
place and how a whole number looks; the layouts in use are values of one type.
-/

namespace ChainAudit.Decimal
open ChainAudit.Text

/-- The choices a text form of doubles makes. -/
structure Layout where
  /-- The least and greatest power of ten of the first digit that is written in place; all, if
  absent. -/
  inPlace : Option (Int × Int)
  /-- Whether a whole number in place is given a point and a zero. -/
  pointZero : Bool

def setInPlace (pointZero : Bool) (digits : List Char) (exponent : Int) : List Char :=
  match exponent with
  | .ofNat n =>
      digits ++ List.replicate n '0' ++ (if pointZero then ['.', '0'] else [])
  | .negSucc n =>
      let places := n + 1
      let padded := List.replicate (places + 1 - digits.length) '0' ++ digits
      padded.take (padded.length - places) ++ '.' :: padded.drop (padded.length - places)

/-- The digits with a power of ten after them; the power carries its sign in both directions. -/
def setScientific (digits : List Char) (power : Int) : List Char :=
  let mantissa := match digits with
    | [] => ['0']
    | [d] => [d]
    | d :: more => d :: '.' :: more
  mantissa ++ 'e' :: (if power < 0 then ['-'] else ['+']) ++ writeNumber power.natAbs

def Layout.write (l : Layout) (x : Float) : List Char :=
  match Binary.ofFloat x with
  | .nan => "NaN".toList
  | .infinite negative => (if negative then ['-'] else []) ++ "inf".toList
  | .finite negative m q =>
      let d := shortest m q
      let digits := writeNumber d.digits
      let power := d.exponent + digits.length - 1
      let positional := match l.inPlace with
        | none => true
        | some (low, high) => low ≤ power && power ≤ high
      (if negative then ['-'] else []) ++
        (if positional then setInPlace l.pointZero digits d.exponent
         else setScientific digits power)

/-- Doubles in documents: in place from `0.00001` to below `10^16`, always with a point or a power
of ten. -/
def documentLayout : Layout :=
  ⟨some (-5, 15), true⟩

/-- Doubles in reports for people: always in place, and whole numbers without a point. -/
def reportLayout : Layout :=
  ⟨none, false⟩

end ChainAudit.Decimal
