import ChainAudit.Chain.Issue
import ChainAudit.Clock.Moment

/-!
# Heads over time

The highest head seen of a chain and the moment it was first seen. A head that is seen again later
than a threshold allows, without having moved, is stuck.
-/

namespace ChainAudit.Chain
open ChainAudit.Clock

/-- The highest head seen so far and when it was reached. -/
structure KnownHead where
  height : Height
  advancedAt : Moment
  deriving DecidableEq, Repr, Inhabited

/-- The highest head known after one more observation; its moment moves only with its height. -/
def KnownHead.observe (known : KnownHead) (height : Height) (seenAt : Moment) : KnownHead :=
  if known.height < height then ⟨height, seenAt⟩ else known

/-- The span a head may stay where it is unless configured otherwise: half an hour. -/
def defaultStuckThreshold : Span := .ofSeconds 1800

/-- The issue of a head that has not passed the highest known one for longer than the threshold.
Nothing is stuck without a known head, nor where the clock has gone backwards. -/
def stuckIssue? (threshold : Span) (head : Height) (previous : Option KnownHead) (now : Moment) :
    Option Issue := do
  let known ← previous
  if known.height < head then none
  else
    let elapsed ← now.since? known.advancedAt
    if elapsed.nanos ≤ threshold.nanos then none
    else some (.stuck head (Int64.ofInt now.seconds))

end ChainAudit.Chain
