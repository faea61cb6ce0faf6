import ChainAudit.Clock.Span

/-!
# Activities

Something that goes on in time and acts on a state that it shares with others. Nothing takes time
but sleeping, so an activity is a tree: it is finished, or it acts on the state at once, or it
sleeps until an instant. What an activity does alone is computed by recursion on the tree.

An activity can be broken off at an instant, or be given a time limit. The two differ where the
instant and an event of the activity coincide: breaking off comes before the event, a time limit
after it.
-/

namespace ChainAudit.Schedule
open ChainAudit.Clock

/-- An activity on a state `σ` that yields an `α`. -/
inductive Activity (σ α : Type) where
  /-- Finished. -/
  | done (result : α)
  /-- Changes the state at once; what follows depends on the instant and on the state found. -/
  | act (change : Instant → σ → σ) (next : Instant → σ → Activity σ α)
  /-- Sleeps until an instant; not at all if that has come. -/
  | sleep (wake : Instant) (next : Activity σ α)

/-- An answer and the time it takes to come; without a delay it is there at once. -/
structure Delayed (α : Type) where
  value : α
  delay : Option Span
  deriving Repr, Inhabited

/-- The delay of two answers of which the second is asked for when the first has come. -/
def delayOfBoth : Option Span → Option Span → Option Span
  | some first, some second => some ⟨first.nanos + second.nanos⟩
  | first, none => first
  | none, second => second

def Delayed.comesAt (now : Instant) (answer : Delayed α) : Instant :=
  match answer.delay with
  | none => now
  | some span => timerFrom now (now + span.nanos)

namespace Activity

/-- One activity after the other. -/
def bind : Activity σ α → (α → Activity σ β) → Activity σ β
  | .done a, f => f a
  | .act change next, f => .act change fun now s => (next now s).bind f
  | .sleep wake next, f => .sleep wake (next.bind f)

instance : Monad (Activity σ) where
  pure := .done
  bind := Activity.bind

/-- The present instant. -/
def clock : Activity σ Instant :=
  .act (fun _ s => s) fun now _ => .done now

/-- Sleeps until a timer goes off that is set to an instant. -/
def sleepUntil (set : Instant) : Activity σ Unit :=
  .act (fun _ s => s) fun now _ => .sleep (timerFrom now set) (.done ())

/-- Changes the state and yields what a function makes of the instant and the state. -/
def access (f : Instant → σ → α × σ) : Activity σ α :=
  .act (fun now s => (f now s).2) fun now s => .done (f now s).1

/-- Asks the state for an answer and waits until it comes. -/
def await (ask : Instant → σ → Delayed α × σ) : Activity σ α :=
  .act (fun now s => (ask now s).2) fun now s =>
    .sleep ((ask now s).1.comesAt now) (.done (ask now s).1.value)

/-- Asks the state for an answer, waits until it comes, and looks up in the state found then what it
yields. -/
def inquire (ask : Instant → σ → Delayed (σ → α) × σ) : Activity σ α :=
  .act (fun now s => (ask now s).2) fun now s =>
    .sleep ((ask now s).1.comesAt now)
      (.act (fun _ s => s) fun _ found => .done ((ask now s).1.value found))

/-- An activity on a part of a larger state. -/
def within (get : σ → τ) (set : τ → σ → σ) : Activity τ α → Activity σ α
  | .done a => .done a
  | .act change next =>
      .act (fun now s => set (change now (get s)) s) fun now s => (next now (get s)).within get set
  | .sleep wake next => .sleep wake (next.within get set)

/-- An activity under way that is broken off when it would sleep up to an instant. -/
def cutAt (fires : Instant) : Activity σ α → Activity σ (Option α)
  | .done a => .done (some a)
  | .act change next => .act change fun now s => (next now s).cutAt fires
  | .sleep wake next =>
      if fires ≤ wake then .sleep fires (.done none) else .sleep wake (next.cutAt fires)

/-- An activity that is broken off at an instant, if there is one. It does nothing if the instant
has come. -/
def breakOff (fires : Option Instant) (a : Activity σ α) : Activity σ (Option α) :=
  match fires with
  | none => a.bind fun r => .done (some r)
  | some fires =>
      .act (fun _ s => s) fun now _ => if fires ≤ now then .done none else a.cutAt fires

/-- An activity that is given up when it would sleep beyond the timer of a deadline. -/
def limit (deadline : Instant) : Activity σ α → Activity σ (Option α)
  | .done a => .done (some a)
  | .act change next => .act change fun now s => (next now s).limit deadline
  | .sleep wake next =>
      .act (fun _ s => s) fun now _ =>
        if wake ≤ timerFrom now deadline then .sleep wake (next.limit deadline)
        else .sleep (timerFrom now deadline) (.done none)

/-- What an activity that runs alone yields, the instant it ends, and the state it leaves. -/
def run : Activity σ α → (now : Instant) → σ → α × Instant × σ
  | .done a, now, s => (a, now, s)
  | .act change next, now, s => (next now s).run now (change now s)
  | .sleep wake next, now, s => next.run (max now wake) s

/-- How far an activity gets at one instant. -/
inductive Progress (σ α : Type) where
  | finished (result : α)
  | asleep (wake : Instant) (rest : Activity σ α)

/-- Lets an activity act until it is finished or has to sleep. -/
def advance (now : Instant) : Activity σ α → σ → Progress σ α × σ
  | .done a, s => (.finished a, s)
  | .act change next, s => (next now s).advance now (change now s)
  | .sleep wake next, s => if wake ≤ now then next.advance now s else (.asleep wake next, s)

end Activity

end ChainAudit.Schedule
