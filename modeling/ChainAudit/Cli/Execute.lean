import ChainAudit.Cli.CommandError
import ChainAudit.Cli.Transcript
import ChainAudit.Settings.Document
import ChainAudit.Settings.Variables
import ChainAudit.Setup

/-!
# Commands

A command works on its surroundings: the variables of the environment, the files, and a network.
It leaves a transcript, and ends with success or with an error unless it breaks down. The settings come from a file if
one is named and from variables otherwise, and options take precedence over both.
-/

namespace ChainAudit.Cli
open ChainAudit.Clock ChainAudit.Http ChainAudit.Limiter ChainAudit.Notice ChainAudit.Schedule
open ChainAudit.Settings ChainAudit.Text

/-- What a command works on; the state of the network is an `ω`. -/
structure Surroundings (ω : Type) where
  environment : Lookup
  fileAt : (path : String) → Except String Bytes
  network : Network ω
  behind : ω
  /-- The moment of an instant. -/
  wall : Instant → Moment
  /-- The instant at which a command that would never end is interrupted. -/
  interrupt : Instant

/-- The end of a command; it has no result if the command broke down. -/
structure CommandEnd where
  transcript : Transcript
  result : Option (Except CommandError Unit)

namespace CommandEnd

/-- The end of a command that prints something. -/
def printing (t : Transcript) : CommandEnd := ⟨t, some (.ok ())⟩

def failing (e : CommandError) : CommandEnd := ⟨[], some (.error e)⟩

/-- The end of a command that fails, or ends as its value says. -/
def ofExcept (result : Except CommandError CommandEnd) : CommandEnd :=
  match result with
  | .ok e => e
  | .error e => failing e

end CommandEnd

/-- Settings with those that options give in place of their own. -/
def Options.override (o : Options) (s : Settings) : Settings :=
  { s with
    store := { s.store with url := o.storeUrl.getD s.store.url }
    webhook := { s.webhook with url := o.webhookUrl <|> s.webhook.url }
    projects := match o.projects with
      | none => s.projects
      | some list => Project.ofList list.toList
    workers := o.workers.getD s.workers }

def effectiveSettings (o : Options) (e : Surroundings ω) : Except CommandError Settings :=
  match o.config with
  | none => .ok (o.override (ofVariables e.environment))
  | some path => ((ofFile (e.fileAt path)).map o.override).mapError .failure

/-- Settings that name a project. -/
def withProjects (s : Settings) : Except CommandError Settings :=
  if s.projects.isEmpty then
    .error (.settings "no projects configured (set DAG_VERIFIER_PROJECTS or --projects)")
  else .ok s

/-- Delivers the summary of a report from the instant `start` on. -/
def postReport (f : Format) (s : Settings) (n : Network ω) (r : Report) (start : Instant)
    (behind : ω) : CommandEnd :=
  match s.notifier n with
  | none => .printing [messageLine "No webhook configured, summary not posted"]
  | some (notifier, policy) =>
      match ((deliver notifier policy r.summary).run start behind).1 with
      | .ok receipt => .printing [printReceipt f receipt]
      | .error e => .failing (.delivery e)

def runOnce (f : Format) (noNotify : Bool) (s : Settings) (e : Surroundings ω) :
    Except CommandError CommandEnd := do
  let s ← withProjects s
  let auditor ← (s.auditor e.network).mapError .failure
  let pass := auditor.run s.projectIds ⟨.kept, none⟩ (e.wall 0) [] 0 (s.freshLimited e.behind)
  match pass.report with
  | none => return ⟨[], none⟩
  | some report =>
      let printed := reportEvents report ++ [printReport f report]
      if noNotify then return .printing printed
      else
        let posted := postReport f s e.network report pass.endsAt pass.state.behind
        return { posted with transcript := printed ++ posted.transcript }

/-- Runs passes until the interrupt and prints the last one that was over by then. -/
def watch (f : Format) (noNotify : Bool) (s : Settings) (e : Surroundings ω) :
    Except CommandError CommandEnd := do
  let s ← withProjects s
  let m ← (s.monitor e.network).mapError .failure
  let m := if noNotify then { m with notifier := none } else m
  let (log, _) := m.run 0 e.interrupt e.wall ⟨[], s.freshLimited e.behind, e.behind⟩
  let outcomes := Monitor.outcomesBefore e.interrupt log
  let events := outcomes.flatMap fun outcome => reportEvents outcome.report
  match outcomes.getLast? with
  | none => return .printing []
  | some last => return .printing (events ++ [printReport f last.report])

/-- Prints the settings, and what is wrong with them. -/
def showSettings (f : Format) (s : Settings) : CommandEnd :=
  .printing <| printSettings f s ::
    match s.check with
    | .ok () => []
    | .error failure => [messageLine ("Warning: " ++ failure.message)]

def showUrl (f : Format) (address : String) : CommandEnd :=
  match Address.normalize address with
  | .error e => .failing (.address e)
  | .ok url => .printing [printUrl f address url]

def execute (o : Options) (e : Surroundings ω) : CommandEnd :=
  match o.command with
  | .normalizeAddress address => showUrl o.format address
  | .config => .ofExcept ((effectiveSettings o e).map (showSettings o.format))
  | .run noNotify =>
      .ofExcept do runOnce o.format noNotify (← effectiveSettings o e) e
  | .watch intervalSecs noNotify =>
      .ofExcept do
        let s ← effectiveSettings o e
        let s := { s with intervalSecs := intervalSecs.getD s.intervalSecs }
        watch o.format noNotify s e

end ChainAudit.Cli
