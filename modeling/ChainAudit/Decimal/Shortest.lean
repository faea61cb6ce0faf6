import ChainAudit.Decimal.Binary

/-!
# Shortest decimal digits

The fewest decimal digits that still denote a given double. The decimals that read back as
`m · 2^q` form an interval whose ends lie half way to the neighbouring doubles; the ends belong to
it if `m` is even. For one digit, two digits and so on, the two neighbours of the double on the
grid of that many digits are tried, and the first grid with a hit wins. Two hits on one grid are
settled by distance and then by the even digit.
-/

namespace ChainAudit.Decimal

/-- The decimal `digits · 10^exponent`. -/
structure Digits where
  digits : Nat
  exponent : Int
  deriving DecidableEq, Repr, Inhabited

/-- The interval of numbers that round to a double, all over one denominator. -/
structure Interval where
  low : Nat
  value : Nat
  high : Nat
  den : Nat
  closed : Bool
  deriving Repr

/-- The interval of `m · 2^q`. Below the least mantissa of a binade the gap is half as wide. -/
def Interval.of (m : Nat) (q : Int) : Interval :=
  let (up, down) := powerParts 2 (q - 2)
  let gap := if m = Nat.pow 2 52 ∧ -1074 < q then 1 else 2
  ⟨(4 * m - gap) * up, 4 * m * up, (4 * m + 2) * up, down, m % 2 == 0⟩

/-- `digits · 10^exponent` lies in the interval. -/
def Interval.holds (i : Interval) (digits : Nat) (exponent : Int) : Bool :=
  let (up, down) := powerParts 10 exponent
  let x := digits * up * i.den
  if i.closed then i.low * down ≤ x && x ≤ i.high * down
  else i.low * down < x && x < i.high * down

/-- The number `e` with `10^(e-1) ≤ num / den < 10^e`, for positive `num` and `den`. -/
def decimalMagnitude (num den : Nat) : Int :=
  let guess : Int := (Nat.toDigits 10 num).length - (Nat.toDigits 10 den).length
  let (up, down) := powerParts 10 guess
  if num * down < den * up then guess else guess + 1

/-- The better of the two neighbours of the value on the grid of multiples of `10^exponent`, if
one of them lies in the interval. -/
def Interval.neighbour? (i : Interval) (exponent : Int) : Option Nat :=
  let (up, down) := powerParts 10 exponent
  let num := i.value * down
  let den := i.den * up
  let below := num / den
  let rest := num % den
  match i.holds below exponent, i.holds (below + 1) exponent with
  | true, false => some below
  | false, true => some (below + 1)
  | false, false => none
  | true, true =>
      if 2 * rest < den then some below
      else if den < 2 * rest then some (below + 1)
      else if below % 2 = 0 then some below else some (below + 1)

/-- The first hit among the grids of `count`, `count + 1`, … digits; `grids` of them are tried. -/
def Interval.search (i : Interval) (magnitude : Int) : (count grids : Nat) → Option Digits
  | _, 0 => none
  | count, grids + 1 =>
      match i.neighbour? (magnitude - count) with
      | some d => some ⟨d, magnitude - count⟩
      | none => i.search magnitude (count + 1) grids

/-- A decimal without zeros at its end. `steps` bounds how many are taken off. -/
def Digits.strip : (steps : Nat) → Digits → Digits
  | 0, d => d
  | steps + 1, d =>
      if d.digits % 10 = 0 ∧ d.digits ≠ 0 then Digits.strip steps ⟨d.digits / 10, d.exponent + 1⟩
      else d

/-- The shortest decimal that reads back as `m · 2^q`, the nearest of them if there are several.
Seventeen digits are always enough. -/
def shortest (m : Nat) (q : Int) : Digits :=
  if m = 0 then ⟨0, 0⟩
  else
    let i := Interval.of m q
    match i.search (decimalMagnitude i.value i.den) 1 17 with
    | some d => Digits.strip 17 d
    | none => ⟨0, 0⟩

end ChainAudit.Decimal
