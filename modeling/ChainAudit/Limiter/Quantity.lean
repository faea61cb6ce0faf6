import ChainAudit.Clock.Span
import ChainAudit.Decimal.Binary

/-!
# Quantities of tokens

The arithmetic that tokens are counted with. Rate limiters run on doubles; on rational numbers the
same limiter is exact.
-/

namespace ChainAudit.Limiter
open ChainAudit.Clock ChainAudit.Decimal

/-- Numbers that tokens are counted in. -/
class Quantity (α : Type) extends Add α, Sub α, Mul α, Div α where
  /-- A number of whole tokens. -/
  count : Nat → α
  /-- A span in seconds. -/
  ofSpan : Span → α
  /-- The span nearest to a number of seconds, unless there is none or it is beyond the clock. -/
  toSpan? : α → Option Span
  /-- `x ≤ y`. -/
  atMost : α → α → Bool
  /-- The lesser of two quantities. -/
  lesser : α → α → α
  /-- The greater of two quantities. -/
  greater : α → α → α
  /-- What counts as a whole token: one short of a part in a thousand million, since a token is
  put together from many fractions. -/
  nearlyOne : α

/-- The span of a whole number of nanoseconds, if it is shorter than `2^63` seconds. -/
def spanOnClock? (nanos : Nat) : Option Span :=
  if nanos < Nat.pow 2 63 * 1000000000 then some ⟨nanos⟩ else none

/-- The span nearest to a double of seconds; of two at the same distance the even one. -/
def spanOfFloat? (x : Float) : Option Span :=
  match Binary.ofFloat x with
  | .finite negative m q =>
      if negative ∧ m ≠ 0 then none
      else
        let (up, down) := powerParts 2 q
        spanOnClock? (roundHalfEven (m * up * 1000000000) down)
  | _ => none

/-- The seconds of a span as a double: the whole ones and the rest are converted apart. -/
def floatOfSpan (s : Span) : Float :=
  s.seconds.toUInt64.toFloat + s.subsecond.toUInt64.toFloat / 1000000000.0

instance : Quantity Float where
  count n := n.toUInt64.toFloat
  ofSpan := floatOfSpan
  toSpan? := spanOfFloat?
  atMost x y := x ≤ y
  lesser := lesserDouble
  greater := greaterDouble
  nearlyOne := 1.0 - 1e-9

/-- The span nearest to a rational number of seconds; of two at the same distance the even one. -/
def spanOfRat? (x : Rat) : Option Span :=
  if x < 0 then none else spanOnClock? (roundHalfEven (x.num.toNat * 1000000000) x.den)

instance : Quantity Rat where
  count n := n
  ofSpan s := (s.nanos : Rat) / 1000000000
  toSpan? := spanOfRat?
  atMost x y := x ≤ y
  lesser x y := if y < x then y else x
  greater x y := if x < y then y else x
  nearlyOne := 1 - 1 / 1000000000

end ChainAudit.Limiter
