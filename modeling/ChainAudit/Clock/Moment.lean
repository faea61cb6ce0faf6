import ChainAudit.Clock.Span

/-!
# Moments

Points on the time line of the world, as nanoseconds since the start of 1970, possibly before it.
Their text is the Internet date and time in universal time.
-/

namespace ChainAudit.Clock
open ChainAudit.Text

structure Moment where
  nanos : Int
  deriving DecidableEq, Repr, Inhabited

namespace Moment

/-- The moment a number of seconds after the start of 1970. -/
def ofSeconds (s : Int) : Moment := ⟨s * 1000000000⟩

/-- The whole seconds since the start of 1970, rounded down. -/
def seconds (m : Moment) : Int := m.nanos / 1000000000

def subsecond (m : Moment) : Nat := (m.nanos % 1000000000).toNat

def add (m : Moment) (s : Span) : Moment := ⟨m.nanos + s.nanos⟩

/-- The span from `earlier` to `later`; none if `later` comes first. -/
def since? (later earlier : Moment) : Option Span :=
  if earlier.nanos ≤ later.nanos then some ⟨(later.nanos - earlier.nanos).toNat⟩ else none

/-- Year, month and day of a number of days since the start of 1970. Years are counted from March,
so that the day that leap years add is the last of its year. -/
def civil (days : Int) : Int × Nat × Nat :=
  let z := days + 719468
  let era := z / 146097
  let dayOfEra := (z % 146097).toNat
  let yearOfEra := (dayOfEra - dayOfEra / 1460 + dayOfEra / 36524 - dayOfEra / 146096) / 365
  let dayOfYear := dayOfEra - (365 * yearOfEra + yearOfEra / 4 - yearOfEra / 100)
  let monthFromMarch := (5 * dayOfYear + 2) / 153
  let day := dayOfYear - (153 * monthFromMarch + 2) / 5 + 1
  let month := if monthFromMarch < 10 then monthFromMarch + 3 else monthFromMarch - 9
  let year := era * 400 + yearOfEra
  (if month ≤ 2 then year + 1 else year, month, day)

def zeroPadded (width n : Nat) : List Char :=
  let digits := writeNumber n
  List.replicate (width - digits.length) '0' ++ digits

/-- A year with at least four digits; one outside `0` to `9999` carries its sign. -/
def writeYear (year : Int) : List Char :=
  if 0 ≤ year ∧ year ≤ 9999 then zeroPadded 4 year.toNat
  else (if year < 0 then '-' else '+') :: zeroPadded 4 year.natAbs

/-- The fraction of a second in three, six or nine digits, whichever is exact first. -/
def writeFraction (nanos : Nat) : List Char :=
  if nanos = 0 then []
  else if nanos % 1000000 = 0 then '.' :: zeroPadded 3 (nanos / 1000000)
  else if nanos % 1000 = 0 then '.' :: zeroPadded 6 (nanos / 1000)
  else '.' :: zeroPadded 9 nanos

/-- The text of a moment, such as `2023-11-14T22:13:20Z`. -/
def write (m : Moment) : String :=
  let days := m.seconds / 86400
  let inDay := (m.seconds % 86400).toNat
  let (year, month, day) := civil days
  String.ofList <|
    writeYear year ++ '-' :: zeroPadded 2 month ++ '-' :: zeroPadded 2 day ++
    'T' :: zeroPadded 2 (inDay / 3600) ++ ':' :: zeroPadded 2 (inDay / 60 % 60) ++
    ':' :: zeroPadded 2 (inDay % 60) ++ writeFraction m.subsecond ++ ['Z']

end Moment

end ChainAudit.Clock
