import ChainAudit.Chain.Issue
import ChainAudit.Clock.Moment

/-!
# Analysis of heights

The heights of the nodes of a chain, in whatever order, are scanned in ascending order: equal
neighbours are a duplicate, neighbours more than one apart leave a gap between them. Heights in the
order of a walk, from the head down, are also checked link by link: a predecessor above its
successor is reported at the predecessor.
-/

namespace ChainAudit.Chain
open ChainAudit.Clock

/-- The issue between two heights that are neighbours in ascending order. -/
def betweenNeighbours (identifiedAt : Int64) (lower upper : Height) : List Issue :=
  if lower = upper then [.duplicate lower identifiedAt]
  else if lower + 1 = upper then []
  else [.gap (lower + 1) (upper - 1) identifiedAt]

/-- The issues of heights in ascending order. -/
def scanAscending (identifiedAt : Int64) : List Height → List Issue
  | lower :: upper :: rest =>
      betweenNeighbours identifiedAt lower upper ++ scanAscending identifiedAt (upper :: rest)
  | _ => []

def ascending (heights : List Height) : List Height :=
  heights.mergeSort fun a b => decide (a ≤ b)

/-- The gaps and duplicates of heights in any order. -/
def analyze (heights : List Height) (now : Moment) : List Issue :=
  scanAscending (Int64.ofInt now.seconds) (ascending heights)

/-- The links of a walk whose predecessor stands above its successor. -/
def risingLinks (identifiedAt : Int64) : List Height → List Issue
  | successor :: predecessor :: rest =>
      (if successor < predecessor then [.duplicate predecessor identifiedAt] else []) ++
        risingLinks identifiedAt (predecessor :: rest)
  | _ => []

/-- The issues of heights in the order of a walk: rising links first, then gaps and duplicates. -/
def analyzeWalk (heights : List Height) (now : Moment) : List Issue :=
  risingLinks (Int64.ofInt now.seconds) heights ++ analyze heights now

end ChainAudit.Chain
