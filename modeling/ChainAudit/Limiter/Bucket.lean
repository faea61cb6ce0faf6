import ChainAudit.Limiter.Quantity

/-!
# Token buckets

A bucket holds tokens up to its capacity and gains them at a steady rate. A request takes a whole
token if there is one, and learns otherwise how long it has to wait for the next. An attempt that
fails brings the count up to date and takes nothing.
-/

namespace ChainAudit.Limiter
open ChainAudit.Clock

/-- A bucket; `countedAt` is the instant for which the count holds. -/
structure Bucket (α : Type) where
  tokens : α
  capacity : α
  rate : α
  countedAt : Instant

/-- What a request for a token finds. -/
inductive Taking where
  /-- A token, which is now taken. -/
  | taken
  /-- No token, but one after a span. -/
  | short (wait : Span)
  /-- No token, and the wait for one is beyond the clock. -/
  | endless
  /-- No token, and none will ever come. -/
  | never
  deriving DecidableEq, Repr

variable [Quantity α]
open Quantity

namespace Bucket

def full (capacity : Nat) (rate : α) (now : Instant) : Bucket α :=
  ⟨count capacity, count capacity, rate, now⟩

/-- The bucket with the tokens gained since it was counted last. -/
def refill (now : Instant) (b : Bucket α) : Bucket α :=
  let gained := ofSpan ⟨now - b.countedAt⟩ * b.rate
  { b with tokens := lesser (b.tokens + gained) b.capacity, countedAt := now }

def take (now : Instant) (b : Bucket α) : Taking × Bucket α :=
  let b := b.refill now
  if atMost nearlyOne b.tokens then
    (.taken, { b with tokens := greater (b.tokens - count 1) (count 0) })
  else if atMost b.rate (count 0) then (.never, b)
  else
    match toSpan? ((count 1 - b.tokens) / b.rate) with
    | some wait => (.short wait, b)
    | none => (.endless, b)

end Bucket

end ChainAudit.Limiter
