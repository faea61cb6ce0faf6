import ChainAudit.Pass.Failure
import ChainAudit.Schedule.Activity
import ChainAudit.Table

/-!
# Sources of heads

Where the identifier of the newest node of a project comes from. A project without a chain has no
head, which is not a failure. Fixed heads take precedence over those of another source.
-/

namespace ChainAudit
open ChainAudit.Schedule

structure HeadSource (ω : Type) where
  lookup : (project : String) → ω → Delayed (Except Failure (Option String)) × ω

namespace HeadSource

def fixed (heads : Table String) : HeadSource ω :=
  ⟨fun project s => (⟨.ok (heads.get? project), none⟩, s)⟩

/-- The source that asks another one for the projects without a fixed head. -/
def layered (heads : Table String) (other : HeadSource ω) : HeadSource ω :=
  ⟨fun project s =>
    match heads.get? project with
    | some cid => (⟨.ok (some cid), none⟩, s)
    | none => other.lookup project s⟩

end HeadSource

end ChainAudit
