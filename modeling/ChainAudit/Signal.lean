import ChainAudit.Clock.Span

/-!
# Signals to stop

A signal is due from its deadline on, or from the instant on at which its handle is cancelled,
whichever is first, and stays due. It fires when those who wait for it learn of that: at the tick of
the timer that was set to its deadline, or at once as its handle is cancelled. A handle that is
dropped without being cancelled does not make it due.
-/

namespace ChainAudit
open ChainAudit.Clock

/-- What becomes of the handle of a signal. -/
inductive Handle where
  | kept
  | cancelled (instant : Instant)
  | dropped (instant : Instant)
  deriving DecidableEq, Repr, Inhabited

structure Signal where
  handle : Handle
  deadline : Option Instant
  deriving DecidableEq, Repr, Inhabited

/-- The earlier of two instants that may be missing. -/
def earlier : Option Instant → Option Instant → Option Instant
  | some a, some b => some (min a b)
  | a, none => a
  | none, b => b

namespace Signal

def never : Signal := ⟨.kept, none⟩

/-- A signal that is also due from a deadline on. -/
def endingBy (deadline : Instant) (s : Signal) : Signal :=
  { s with deadline := earlier s.deadline (some deadline) }

def cancelledAt? (s : Signal) : Option Instant :=
  match s.handle with
  | .cancelled instant => some instant
  | .kept | .dropped _ => none

/-- Whether a signal is due at an instant. If its deadline lies between two ticks, it fires only
after that (`fires?`). -/
def isFired (now : Instant) (s : Signal) : Bool :=
  s.deadline.any (· ≤ now) || s.cancelledAt?.any (· ≤ now)

/-- The instant at which a signal fires: when the timer of the deadline goes off, or as soon as the
handle is cancelled. -/
def fires? (s : Signal) : Option Instant :=
  earlier (s.deadline.map timer) s.cancelledAt?

/-- The instant at which a wait for a signal is over that starts at `now`. -/
def resolves? (now : Instant) (s : Signal) : Option Instant :=
  s.fires?.map (max now)

end Signal

end ChainAudit
