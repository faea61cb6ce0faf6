import ChainAudit.Clock.Span
import ChainAudit.Decimal.Binary
import ChainAudit.Text.Numeral

/-!
# Waiting between attempts

How long to wait after an attempt that should be repeated later: not at all, a fixed time, or a
time that grows by a factor with each attempt up to a limit. The growing time is a double and is
cut to whole milliseconds.
-/

namespace ChainAudit.Notice
open ChainAudit.Clock ChainAudit.Decimal ChainAudit.Text

/-- How the waiting time depends on the attempt. -/
inductive Backoff where
  | none
  | fixed (delayMs : Nat)
  | exponential (initialMs maxMs : Nat) (factor : Float)
  deriving Repr, Inhabited

/-- `x^n` by squaring: the square is taken at every step, and multiplied in where the number `n`
has a one. `steps` bounds the digits of `n`. -/
def powerBySquaring : (steps : Nat) → (n : Nat) → (square product : Float) → Float
  | 0, _, _, product => product
  | steps + 1, n, square, product =>
      if n ≤ 1 then (if n = 1 then product * square else product)
      else
        powerBySquaring steps (n / 2) (square * square)
          (if n % 2 = 1 then product * square else product)

/-- The whole part of a double as a number of 64 bits: the nearest bound where it is outside, zero
where it is no number. -/
def wholePart (x : Float) : Nat :=
  match Binary.ofFloat x with
  | .nan => 0
  | .infinite negative => if negative then 0 else bound64 - 1
  | .finite negative m q =>
      if negative then 0
      else
        let (up, down) := powerParts 2 q
        min (m * up / down) (bound64 - 1)

/-- The greatest exponent that is computed with. -/
def greatestExponent : Nat := 2147483647

/-- The time to wait after an attempt; attempts are counted from one. -/
def Backoff.delay (b : Backoff) (attempt : Nat) : Span :=
  match b with
  | .none => ⟨0⟩
  | .fixed ms => .ofMillis ms
  | .exponential initial limit factor =>
      let exponent := min (attempt - 1) greatestExponent
      let grown := initial.toUInt64.toFloat * powerBySquaring 32 exponent factor 1.0
      .ofMillis (wholePart (lesserDouble grown limit.toUInt64.toFloat))

structure Policy where
  maxAttempts : Nat
  backoff : Backoff
  deriving Repr, Inhabited

/-- Three attempts, with waiting times from 5 to 50 seconds that double. -/
def Policy.standard : Policy :=
  ⟨3, .exponential 5000 50000 2.0⟩

end ChainAudit.Notice
