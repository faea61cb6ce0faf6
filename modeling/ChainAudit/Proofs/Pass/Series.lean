import ChainAudit.Limiter.Quantity
import ChainAudit.Proofs.Pass.Run
import ChainAudit.Proofs.Store.Memory

/-!
# Series of passes

Passes follow one another, each with what is remembered after the one before. What is remembered of
a project passes through its reports alone.
-/

namespace ChainAudit

open ChainAudit.Chain ChainAudit.Clock ChainAudit.Limiter ChainAudit.Store

/-- A pass: who runs it and over which projects, and when and in which state it starts. -/
structure Pass (α ω : Type) where
  auditor : Auditor ω
  projects : List String
  signal : Signal
  now : Moment
  start : Instant
  state : Limited α ω

/-- The issues that a pass reports for a project. -/
def Auditor.PassEnd.issuesOn (project : String) (e : Auditor.PassEnd α ω) : List Issue :=
  ((e.project? project).map (·.issues)).getD []

def Auditor.PassEnd.isComplete (project : String) (e : Auditor.PassEnd α ω) : Bool :=
  (e.project? project).any (·.complete)

theorem Auditor.PassEnd.exists_complete {project : String} {e : Auditor.PassEnd α ω}
    (h : e.isComplete project = true) :
    ∃ r, e.project? project = some r ∧ r.complete = true ∧
      e.issuesOn project = r.issues := by
  unfold Auditor.PassEnd.isComplete at h
  unfold Auditor.PassEnd.issuesOn
  cases hr : e.project? project with
  | none => simp [hr] at h
  | some r => exact ⟨r, rfl, by simpa [hr] using h, rfl⟩

namespace Pass

variable [Quantity α]

def run (q : Pass α ω) (tracker : Tracker) : Auditor.PassEnd α ω :=
  q.auditor.run q.projects q.signal q.now tracker q.start q.state

/-- Runs passes of which each goes on from what the one before it remembers. -/
def runAll (tracker : Tracker) : List (Pass α ω) → List (Auditor.PassEnd α ω)
  | [] => []
  | q :: rest => q.run tracker :: runAll (q.run tracker).tracker rest

variable {q : Pass α ω} {passes : List (Pass α ω)} {e : Auditor.PassEnd α ω}
variable {project : String} {tracker : Tracker} {i : Nat}

theorem exists_run (hq : passes[i]? = some q) (he : (runAll tracker passes)[i]? = some e) :
    ∃ t, e = q.run t := by
  induction passes generalizing tracker i with
  | nil => cases hq
  | cons first rest ih =>
    cases i with
    | zero =>
      obtain rfl := Option.some.inj hq
      exact ⟨tracker, (Option.some.inj he).symm⟩
    | succ i => exact ih hq he

theorem get?_run : (q.run tracker).tracker.get? project =
    match (q.run tracker).project? project with
    | none => tracker.get? project
    | some r => Auditor.rememberedAfter q.now (tracker.get? project) r :=
  Auditor.get?_run_tracker

end Pass

/-- A pass over a store in memory at the start of the clock, with one project and a fixed head. -/
def Pass.ofMemory (project head : String) (m : Memory) : Pass Rat Memory where
  auditor := .ofMemory [(project, head)]
  projects := [project]
  signal := .never
  now := ⟨0⟩
  start := 0
  state := ⟨.unlimited, m⟩

end ChainAudit
