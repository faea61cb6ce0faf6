import ChainAudit.Chain.Head
import ChainAudit.Table

/-!
# Tracked heads

What is remembered of each project between passes: its highest head with the moment it was first
seen, and the head height of the last walk that was complete.
-/

namespace ChainAudit
open ChainAudit.Chain ChainAudit.Clock

/-- What is remembered of a project. -/
structure Tracked where
  head : KnownHead
  verified : Option Height
  deriving DecidableEq, Repr, Inhabited

abbrev Tracker := Table Tracked

namespace Tracker

/-- The greater of a height and one that may be missing. -/
def raise (height : Height) : Option Height → Height
  | none => height
  | some v => max v height

/-- What is remembered of a project after one more walk. -/
def observed (height : Height) (complete : Bool) (seenAt : Moment) : Option Tracked → Tracked
  | none => ⟨⟨height, seenAt⟩, if complete then some height else none⟩
  | some t =>
      ⟨t.head.observe height seenAt,
        if complete then some (raise height t.verified) else t.verified⟩

def commit (project : String) (height : Height) (complete : Bool) (seenAt : Moment)
    (t : Tracker) : Tracker :=
  t.put project (observed height complete seenAt (t.get? project))

end Tracker

end ChainAudit
