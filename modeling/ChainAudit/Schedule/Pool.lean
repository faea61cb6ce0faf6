import ChainAudit.Schedule.Activity

/-!
# Pools of workers

Many activities on one state, at most so many under way at a time. When all that are under way
sleep, the clock moves to the earliest wake; of several with the same wake the one that fell asleep
first goes on first. An activity that is finished makes room for the next one in the queue, which
takes its turn after all that are due at that instant. A fatal result ends the pool at once.
-/

namespace ChainAudit.Schedule
open ChainAudit.Clock

/-- An activity that is under way and sleeps. -/
structure Sleeper (σ α : Type) where
  wake : Instant
  rest : Activity σ α

/-- The sleeper that wakes first, of several the first in the list, and the others. -/
def earliest? : List (Sleeper σ α) → Option (Sleeper σ α × List (Sleeper σ α))
  | [] => none
  | s :: rest =>
      match earliest? rest with
      | none => some (s, [])
      | some (e, others) => if e.wake < s.wake then some (e, s :: others) else some (s, rest)

/-- Activities that are started at an instant. -/
def startAt (now : Instant) (activities : List (Activity σ α)) : List (Sleeper σ α) :=
  activities.map fun a => ⟨now, a⟩

/-- The end of a pool: what its activities yielded, in the order in which they finished, the
instant the last one finished, and the state they leave. -/
structure PoolEnd (σ α : Type) where
  results : List α
  endsAt : Instant
  state : σ

/-- Gives turns until all activities are finished or one of them has a fatal result, at most `turns`
of them. -/
def serve (fatal : α → Bool) : (turns : Nat) → (now : Instant) → (asleep : List (Sleeper σ α)) →
    (queue : List (Activity σ α)) → (results : List α) → σ → PoolEnd σ α
  | 0, now, _, _, results, s => ⟨results, now, s⟩
  | turns + 1, now, asleep, queue, results, s =>
      match earliest? asleep with
      | none => ⟨results, now, s⟩
      | some (first, others) =>
          let now := max now first.wake
          match first.rest.advance now s with
          | (.asleep wake rest, s) =>
              serve fatal turns now (others ++ [⟨wake, rest⟩]) queue results s
          | (.finished a, s) =>
              if fatal a then ⟨results ++ [a], now, s⟩
              else
                serve fatal turns now (others ++ startAt now (queue.take 1)) (queue.drop 1)
                  (results ++ [a]) s

/-- Runs activities of which none lasts beyond the timer of `horizon`. Between two turns of an
activity a millisecond passes, so there are turns enough. -/
def runPool (fatal : α → Bool) (workers : Nat) (horizon now : Instant)
    (activities : List (Activity σ α)) (s : σ) : PoolEnd σ α :=
  let places := max workers 1
  serve fatal (activities.length * ((horizon - now) / 1000000 + 3)) now
    (startAt now (activities.take places)) (activities.drop places) [] s

end ChainAudit.Schedule
