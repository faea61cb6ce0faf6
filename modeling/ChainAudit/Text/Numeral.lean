/-!
# Decimal numerals

Reading and writing of whole numbers in decimal digits. A numeral is read only if it denotes a
number below the given bound, so that a reader of 16 bit ports and one of 64 bit counts are the
same function.
-/

namespace ChainAudit.Text

def digitValue? (c : Char) : Option Nat :=
  if '0' ≤ c ∧ c ≤ '9' then some (c.toNat - '0'.toNat) else none

def isDigit (c : Char) : Bool :=
  '0' ≤ c && c ≤ '9'

/-- The number that a list of digits denotes, most significant digit first; other characters count
as the digit 0. -/
def numberOfDigits (cs : List Char) : Nat :=
  cs.foldl (fun n c => 10 * n + (digitValue? c).getD 0) 0

/-- A list of one or more decimal digits. -/
def isNumeral (cs : List Char) : Bool :=
  !cs.isEmpty && cs.all isDigit

/-- The number below `bound` that a numeral denotes. One plus sign may stand in front, leading
zeros are allowed. -/
def readNumber? (bound : Nat) (cs : List Char) : Option Nat :=
  let digits := match cs with
    | '+' :: rest => rest
    | other => other
  if isNumeral digits then
    let n := numberOfDigits digits
    if n < bound then some n else none
  else none

/-- The bounds of 16, 32 and 64 bit unsigned numbers. -/
def bound16 : Nat := 65536
/-- One more than the greatest 32 bit unsigned number. -/
def bound32 : Nat := 4294967296
/-- One more than the greatest 64 bit unsigned number. -/
def bound64 : Nat := 18446744073709551616

/-- The decimal digits of a number, without leading zeros. -/
def writeNumber (n : Nat) : List Char :=
  Nat.toDigits 10 n

/-- The decimal digits of an integer, after a minus sign if it is negative. -/
def writeInteger (i : Int) : List Char :=
  match i with
  | .ofNat n => writeNumber n
  | .negSucc n => '-' :: writeNumber (n + 1)

/-- A list of characters brought to `width` characters by blanks after it. -/
def padEnd (width : Nat) (cs : List Char) : List Char :=
  cs ++ List.replicate (width - cs.length) ' '

/-- A list of characters brought to `width` characters by blanks before it. -/
def padStart (width : Nat) (cs : List Char) : List Char :=
  List.replicate (width - cs.length) ' ' ++ cs

end ChainAudit.Text
