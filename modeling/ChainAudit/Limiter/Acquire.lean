import ChainAudit.Limiter.Bucket
import ChainAudit.Schedule.Activity

/-!
# Waiting for a token

A limiter lets everything pass or hands out the tokens of a bucket. Who waits for a token has a
deadline: if the next token is due after it, the call fails at once. When a waiter wakes, another
one may have taken the token, and then it waits again; every wait is at least a millisecond long.
A token is taken at the instant it is granted, so a waiter that is broken off takes none.
-/

namespace ChainAudit
open ChainAudit.Clock ChainAudit.Schedule

inductive Limiter (α : Type) where
  | unlimited
  | bucket (b : Limiter.Bucket α)

namespace Limiter

/-- How often something may be done. -/
inductive Rate where
  | unlimited
  /-- So many times a second in the long run, and so many times at once. -/
  | perSecond (rate : Float) (burst : Nat)
  deriving Repr, Inhabited

def Rate.standard : Rate := .perSecond 10.0 10

/-- The rate that a setting stands for; a negative number of requests means no limit. -/
def Rate.ofSetting (perSecond : Float) (burst : Nat) : Rate :=
  if perSecond < 0.0 then .unlimited else .perSecond perSecond burst

def ofRate (now : Instant) : Rate → Limiter Float
  | .unlimited => .unlimited
  | .perSecond rate burst => .bucket (.full burst rate now)

/-- What comes of a call for a token. -/
inductive Result where
  | granted
  /-- The next token is due after the deadline. -/
  | tooLate
  /-- The wait for the next token is beyond the clock. The call breaks down, and so does whatever
  waits for it. -/
  | lost
  deriving DecidableEq, Repr, Inhabited

/-- The answer to a waiter that asks for a token. -/
inductive Reply where
  | ends (r : Result)
  /-- Ask again at an instant. -/
  | wait (due : Instant)
  deriving DecidableEq, Repr

def leastWait : Span := .ofMillis 1

/-- The answer to a waiter with a deadline, and the limiter after it. -/
def ask [Quantity α] (deadline now : Instant) : Limiter α → Reply × Limiter α
  | .unlimited => (.ends .granted, .unlimited)
  | .bucket b =>
      let (found, b) := b.take now
      let reply := match found with
        | .taken => .ends .granted
        | .never => .ends .tooLate
        | .endless => .ends .lost
        | .short wait =>
            let due := now + max wait.nanos leastWait.nanos
            if deadline < due then .ends .tooLate else .wait due
      (reply, .bucket b)

/-- Asks for a token at most so many times. -/
def askUpTo [Quantity α] (deadline : Instant) : (times : Nat) → Activity (Limiter α) Result
  | 0 => .done .tooLate
  | times + 1 => do
      match ← Activity.access fun now l => l.ask deadline now with
      | .ends r => return r
      | .wait due =>
          Activity.sleepUntil due
          askUpTo deadline times

/-- Waits for a token until a deadline. Two requests are at least a millisecond apart and none is
after the deadline, so the number of requests is bounded. -/
def acquire [Quantity α] (deadline : Instant) : Activity (Limiter α) Result := do
  askUpTo deadline ((deadline - (← Activity.clock)) / 1000000 + 1)

end Limiter

end ChainAudit
