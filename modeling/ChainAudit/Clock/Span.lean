import ChainAudit.Text.Numeral
import ChainAudit.Text.Segments

/-!
# Spans of time

Lengths of time in whole nanoseconds, and their text in the largest unit that leaves a whole part.
Schedules count instants in nanoseconds too; their timers go off at whole milliseconds, and their
sleeps last a whole number of milliseconds.
-/

namespace ChainAudit.Clock
open ChainAudit.Text

structure Span where
  nanos : Nat
  deriving DecidableEq, Repr, Inhabited, Ord

namespace Span

def ofSeconds (s : Nat) : Span := ⟨s * 1000000000⟩

def ofMillis (ms : Nat) : Span := ⟨ms * 1000000⟩

def seconds (s : Span) : Nat := s.nanos / 1000000000

def subsecond (s : Span) : Nat := s.nanos % 1000000000

/-- A number in a unit of `10^places`: the whole part, and the rest after a point without zeros at
its end. -/
def writeIn (places nanos : Nat) : List Char :=
  let rest := writeNumber (nanos % Nat.pow 10 places)
  let padded := List.replicate (places - rest.length) '0' ++ rest
  let fraction := dropEndWhile (· == '0') padded
  writeNumber (nanos / Nat.pow 10 places) ++ (if fraction.isEmpty then [] else '.' :: fraction)

/-- The text of a span, such as `1.5s`, `100ms` or `0ns`. -/
def write (s : Span) : String :=
  String.ofList <|
    if 1000000000 ≤ s.nanos then writeIn 9 s.nanos ++ ['s']
    else if 1000000 ≤ s.nanos then writeIn 6 s.nanos ++ ['m', 's']
    else if 1000 ≤ s.nanos then writeIn 3 s.nanos ++ ['µ', 's']
    else writeNumber s.nanos ++ ['n', 's']

end Span

/-- An instant of a schedule: the nanoseconds since its clock was started. -/
abbrev Instant := Nat

/-- The instant at which a timer goes off that is set to an instant: the first whole millisecond
that is not before it. -/
def timer (set : Instant) : Instant := (set + 999999) / 1000000 * 1000000

/-- The instant at which a sleep is over that begins at `now` and lasts until a timer has gone off.
While all are asleep the clock moves by whole milliseconds only, so it keeps its place within a
millisecond. -/
def timerFrom (now set : Instant) : Instant :=
  now + (timer set - now + 999999) / 1000000 * 1000000

end ChainAudit.Clock
