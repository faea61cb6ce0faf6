import ChainAudit.Chain.Heights
import ChainAudit.Pass.Heads
import ChainAudit.Pass.Report
import ChainAudit.Schedule.Pool
import ChainAudit.Signal
import ChainAudit.Tracker
import ChainAudit.Walk

/-!
# Passes

One pass over a list of projects: the head of each is looked up, its chain is walked down to what
was verified before, and the heights are analyzed. Projects are worked on by a number of workers at
a time and share the limiter and the store. A pass ends at its deadline or when it is stopped;
projects that are not finished by then are left out of the summary and change nothing that is
remembered. If the work on one project breaks down, so does the pass: it makes no report, and
nothing is remembered of it.
-/

namespace ChainAudit
open ChainAudit.Chain ChainAudit.Clock ChainAudit.Limiter ChainAudit.Schedule ChainAudit.Store

/-- The settings of passes and the sources they read. -/
structure Auditor (ω : Type) where
  store : BlockStore ω
  heads : HeadSource ω
  fetchTimeout : Span
  stuckThreshold : Span
  workers : Nat
  maxDepth : Nat
  runTimeout : Span

/-- How a pass ended for one project. -/
inductive ProjectEnd where
  | finished (r : ProjectReport)
  | cancelled (project : String)
  /-- The work on the project broke down. -/
  | lost (project : String)
  deriving Repr, Inhabited

namespace ProjectEnd

def report? : ProjectEnd → Option ProjectReport
  | .finished r => some r
  | .cancelled _ | .lost _ => none

def cancelled? : ProjectEnd → Option String
  | .cancelled project => some project
  | .finished _ | .lost _ => none

def isLost : ProjectEnd → Bool
  | .lost _ => true
  | .finished _ | .cancelled _ => false

end ProjectEnd

/-- The issues of a walk: those of its heights, and last of all that the head is stuck. -/
def issuesOf (threshold : Span) (previous : Option KnownHead) (now : Moment) (w : Walk) :
    List Issue :=
  analyzeWalk w.heights now ++
    match w.headHeight? with
    | none => []
    | some head => (stuckIssue? threshold head previous now).toList

/-- The report on a walk, under the name of its end. -/
def walkReport (threshold : Span) (previous : Option KnownHead) (now : Moment)
    (project head stop : String) (w : Walk) : ProjectReport where
  project := project
  head := some head
  headHeight := w.headHeight?
  nodesWalked := w.heights.length
  stop := stop
  complete := w.ending.isComplete
  issues := issuesOf threshold previous now w
  error := w.ending.error?.map WalkError.message

/-- The outcome for a project whose chain was walked. -/
def outcomeOf (threshold : Span) (previous : Option KnownHead) (now : Moment)
    (project head : String) (w : Walk) : ProjectEnd :=
  match w.ending, w.ending.label? with
  | .cancelled, _ => .cancelled project
  | _, none => .lost project
  | _, some stop => .finished (walkReport threshold previous now project head stop w)

/-- The names of a list in their order, each once. -/
def eachOnce (names : List String) : List String := names.eraseDups

/-- Names in ascending order. -/
def inOrder (key : α → String) (as : List α) : List α :=
  as.mergeSort fun a b => decide (key a ≤ key b)

variable [Quantity α]

namespace Auditor

/-- Works on one project until the instant `stop`. -/
def verify (a : Auditor ω) (stop : Option Instant) (now : Moment) (known : Option Tracked)
    (project : String) : Activity (Limited α ω) ProjectEnd := do
  match ← (Limited.onBehind (.await fun _ => a.heads.lookup project)).breakOff stop with
  | none => return .cancelled project
  | some (.error e) => return .finished (.unresolved project e.message)
  | some (.ok none) => return .finished (.noChain project)
  | some (.ok (some head)) =>
      let w ← walk (fetch a.store a.fetchTimeout) stop a.maxDepth (known.bind (·.verified)) head
      return outcomeOf a.stuckThreshold (known.map (·.head)) now project head w

/-- The end of a pass: its report, unless it broke down, what is remembered after it, the instant
it ended, and the state of the limiter and of what lies behind. -/
structure PassEnd (α ω : Type) where
  report : Option Report
  tracker : Tracker
  endsAt : Instant
  state : Limited α ω

def remember (now : Moment) (reports : List ProjectReport) (t : Tracker) : Tracker :=
  reports.foldl
    (fun t r =>
      match r.headHeight with
      | none => t
      | some height => t.commit r.project height r.complete now) t

def summaryOf (reports : List ProjectReport) : Summary :=
  (Totals.ofFindings (reports.map ProjectReport.finding)).summary

/-- Runs a pass from the instant `start` on; `now` is the moment that the analysis goes by. -/
def run (a : Auditor ω) (projects : List String) (signal : Signal) (now : Moment)
    (tracker : Tracker) (start : Instant) (s : Limited α ω) : PassEnd α ω :=
  let deadline := start + a.runTimeout.nanos
  let stop := (signal.endingBy deadline).fires?
  let jobs := (eachOnce projects).map fun p => a.verify stop now (tracker.get? p) p
  let pool := runPool ProjectEnd.isLost a.workers deadline start jobs s
  if pool.results.any ProjectEnd.isLost then ⟨none, tracker, pool.endsAt, pool.state⟩
  else
    let reports := inOrder ProjectReport.project (pool.results.filterMap ProjectEnd.report?)
    { report := some {
        startedAt := now
        finishedAt := now.add ⟨pool.endsAt - start⟩
        summary := summaryOf reports
        projects := reports
        cancelled := inOrder id (pool.results.filterMap ProjectEnd.cancelled?) }
      tracker := remember now reports tracker
      endsAt := pool.endsAt
      state := pool.state }

end Auditor

end ChainAudit
