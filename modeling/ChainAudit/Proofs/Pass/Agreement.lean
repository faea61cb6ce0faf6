import ChainAudit.Proofs.Pass.Accounts
import ChainAudit.Proofs.Store.Memory

/-!
# Schedules do not change what is found

Workers share the store and take turns, and yet each project is judged by what the sources answer
alone. So two passes over steady sources that differ in the number of workers, in the order of the
projects or in when they are stopped report the same on each project that both of them finish.
-/

namespace ChainAudit

open ChainAudit.Chain ChainAudit.Clock ChainAudit.Limiter ChainAudit.Schedule ChainAudit.Store

namespace Auditor

/-- The auditor with another number of workers and another time limit for its passes. -/
def paced (a : Auditor ω) (workers : Nat) (runTimeout : Span) : Auditor ω :=
  { a with workers := workers, runTimeout := runTimeout }

/-- Whatever else is asked meanwhile, the store answers a read as if it were asked at the start and
alone, and as late, and the same heads are named. -/
structure Steady (a : Auditor ω) (start : ω) : Prop where
  read : ∀ t t', a.Reaches start t → a.Reaches start t' → ∀ cid,
    a.store.answer cid t t' = a.store.answerAlone cid start
  lookup : ∀ t, a.Reaches start t → ∀ project,
    (a.heads.lookup project t).1.value = (a.heads.lookup project start).1.value

section Sources

variable {a : Auditor ω} {start t : ω} {workers : Nat} {runTimeout : Span}

theorem reaches_of_paced (ht : (a.paced workers runTimeout).Reaches start t) :
    a.Reaches start t := by
  induction ht with
  | start => exact .start
  | read cid _ ih => exact .read cid ih
  | lookup project _ ih => exact .lookup project ih

theorem Steady.paced (h : a.Steady start) (workers : Nat) (runTimeout : Span) :
    (a.paced workers runTimeout).Steady start :=
  ⟨fun t t' ht ht' => h.read t t' (reaches_of_paced ht) (reaches_of_paced ht'),
    fun t ht => h.lookup t (reaches_of_paced ht)⟩

theorem reaches_trans {t' : ω} (ht : a.Reaches start t) (ht' : a.Reaches t t') :
    a.Reaches start t' := by
  induction ht' with
  | start => exact ht
  | read cid _ ih => exact .read cid ih
  | lookup project _ ih => exact .lookup project ih

theorem Steady.later (h : a.Steady start) (ht : a.Reaches start t) : a.Steady t where
  read := by
    intro u u' hu hu' cid
    rw [h.read u u' (reaches_trans ht hu) (reaches_trans ht hu'), BlockStore.answerAlone,
      BlockStore.answerAlone, h.read t _ ht (.read cid ht)]
    rfl
  lookup := by
    intro u hu project
    rw [h.lookup u (reaches_trans ht hu), h.lookup t ht]

/-- Reads of a store in memory change nothing that is read, whatever fails there or takes long. -/
theorem steady_of_memory {a : Auditor Memory} (hstore : a.store = Memory.store)
    (hkeep : ∀ project m, (a.heads.lookup project m).2 = m)
    (hvalue : ∀ project m m',
      (a.heads.lookup project m).1.value = (a.heads.lookup project m').1.value)
    (m : Memory) : a.Steady m := by
  constructor
  · intro t t' ht ht' cid
    obtain ⟨reads, rfl⟩ := reaches_of_memory hstore hkeep ht
    obtain ⟨reads', rfl⟩ := reaches_of_memory hstore hkeep ht'
    rw [hstore]
    rfl
  · intro t _ project
    exact hvalue project t m

end Sources

section Reports

variable [Quantity α] {a : Auditor ω} {start : ω} {l : Limiter α} {place : Instant}
variable {stop stop' : Option Instant} {now : Moment} {tracked : Option Tracked}
variable {project : String} {r r' : ProjectReport}

theorem answers_steady (hsteady : a.Steady start) (hl : l = .unlimited) {cid : String}
    {r : Fetched} (hr : a.Answers start l place cid r) :
    r = .answered (answerAt a.fetchTimeout cid place (a.store.answerAlone cid start)) := by
  obtain ⟨t, t', ht, ht', rfl⟩ := hr.passed hl
  rw [hsteady.read t t' ht ht']

/-- The report on a project of which a head was looked up with the given answer. -/
def ReportsOn (a : Auditor ω) (start : ω) (l : Limiter α) (place : Instant)
    (stop : Option Instant) (now : Moment) (tracked : Option Tracked) (project : String)
    (r : ProjectReport) : Except Failure (Option String) → Prop
  | .error e => r = .unresolved project e.message
  | .ok none => r = .noChain project
  | .ok (some head) => ∃ w label,
      Walked (a.Answers start l place) stop a.maxDepth (tracked.bind (·.verified)) a.maxDepth head
        [] w ∧
      w.ending ≠ .cancelled ∧ w.ending.label? = some label ∧
      r = walkReport a.stuckThreshold (tracked.map (·.head)) now project head label w

theorem outcome_reportsOn (hsteady : a.Steady start)
    (h : a.Outcome start l place stop now tracked project (.finished r)) :
    a.ReportsOn start l place stop now tracked project r
      (a.heads.lookup project start).1.value := by
  rcases outcome_report h with ⟨t, e, ht, hlookup, hr⟩ | ⟨t, ht, hlookup, hr⟩ |
    ⟨t, head, w, label, ht, hlookup, hwalk, hend, hlabel, hr⟩
  · rw [← hsteady.lookup t ht, hlookup]
    exact hr
  · rw [← hsteady.lookup t ht, hlookup]
    exact hr
  · rw [← hsteady.lookup t ht, hlookup]
    exact ⟨w, label, hwalk, hend, hlabel, hr⟩

theorem reportsOn_walked {answer : Except Failure (Option String)} {head : String}
    (h : a.ReportsOn start l place stop now tracked project r answer) (hhead : r.head = some head) :
    answer = .ok (some head) ∧ ∃ w label,
      Walked (a.Answers start l place) stop a.maxDepth (tracked.bind (·.verified)) a.maxDepth head
        [] w ∧
      w.ending ≠ .cancelled ∧ w.ending.label? = some label ∧
      r = walkReport a.stuckThreshold (tracked.map (·.head)) now project head label w := by
  match answer with
  | .error e =>
    obtain rfl := h
    cases hhead
  | .ok none =>
    obtain rfl := h
    cases hhead
  | .ok (some named) =>
    obtain ⟨w, label, hwalk, hend, hlabel, rfl⟩ := h
    obtain rfl := Option.some.inj hhead
    exact ⟨rfl, w, label, hwalk, hend, hlabel, rfl⟩

/-- However an auditor of steady sources is paced and wherever it is stopped, it has one report
only to make on a project. -/
theorem report_unique (hsteady : a.Steady start) (hl : l = .unlimited) {workers workers' : Nat}
    {runTimeout runTimeout' : Span}
    (h : (a.paced workers runTimeout).Outcome start l place stop now tracked project (.finished r))
    (h' : (a.paced workers' runTimeout').Outcome start l place stop' now tracked project
      (.finished r')) : r = r' := by
  have hon := outcome_reportsOn (hsteady.paced workers runTimeout) h
  have hon' := outcome_reportsOn (hsteady.paced workers' runTimeout') h'
  have hsame : ∀ cid b b', (a.paced workers runTimeout).Answers start l place cid b →
      (a.paced workers' runTimeout').Answers start l place cid b' → b = b' := by
    intro cid b b' hb hb'
    rw [answers_steady (hsteady.paced ..) hl hb, answers_steady (hsteady.paced ..) hl hb']
    rfl
  -- however it is paced, the auditor asks the same source of heads
  change (a.paced workers' runTimeout').ReportsOn start l place stop' now tracked project r'
    ((a.paced workers runTimeout).heads.lookup project start).1.value at hon'
  match hlookup : ((a.paced workers runTimeout).heads.lookup project start).1.value with
  | .error e =>
    rw [hlookup] at hon hon'
    exact Eq.trans hon (Eq.symm hon')
  | .ok none =>
    rw [hlookup] at hon hon'
    exact Eq.trans hon (Eq.symm hon')
  | .ok (some head) =>
    rw [hlookup] at hon hon'
    obtain ⟨w, label, hwalk, hend, hlabel, rfl⟩ := hon
    obtain ⟨w', label', hwalk', hend', hlabel', rfl⟩ := hon'
    obtain rfl := walked_unique hsame hwalk hwalk' hend hend'
    obtain rfl := Option.some.inj (hlabel.symm.trans hlabel')
    rfl

end Reports

theorem reports_eq_of_mem {reports reports' : List ProjectReport}
    (h : (reports.map (·.project)).Pairwise (· < ·))
    (h' : (reports'.map (·.project)).Pairwise (· < ·)) (hmem : ∀ r, r ∈ reports ↔ r ∈ reports') :
    reports = reports' := by
  have hnodup : reports.Nodup := List.Nodup.of_map _ (h.imp Std.ne_of_lt)
  have hnodup' : reports'.Nodup := List.Nodup.of_map _ (h'.imp Std.ne_of_lt)
  rw [List.pairwise_map] at h h'
  refine List.Perm.eq_of_pairwise ?_ h h' ((List.perm_ext_iff_of_nodup hnodup hnodup').mpr hmem)
  intro r r' _ _ hlt hgt
  exact absurd (String.lt_trans hlt hgt) (String.lt_irrefl _)

/-- Two ends of passes agree on every project that both report on, and if neither left out a
project, then both have made reports and agree in their summaries and in what is remembered. -/
structure PassEnd.Agrees (e e' : PassEnd α ω) : Prop where
  reports : ∀ project r r', e.project? project = some r → e'.project? project = some r' → r = r'
  undropped : (∀ project, ¬ e.Drops project) → (∀ project, ¬ e'.Drops project) →
    ∃ report report', e.report = some report ∧ e'.report = some report' ∧
      report.summary = report'.summary ∧ e.tracker = e'.tracker

section Runs

variable [Quantity α] {a : Auditor ω} {workers workers' : Nat} {runTimeout runTimeout' : Span}
variable {projects projects' : List String} {signal signal' : Signal} {now : Moment}
variable {tracker : Tracker} {start : Instant} {s : Limited α ω} {report report' : Report}

theorem run_report_unique (hsteady : a.Steady s.behind) (hl : s.limiter = .unlimited)
    {project : String} {r r' : ProjectReport}
    (hr : ((a.paced workers runTimeout).run projects signal now tracker start s).project?
      project = some r)
    (hr' : ((a.paced workers' runTimeout').run projects' signal' now tracker start s).project?
      project = some r') : r = r' :=
  report_unique hsteady hl (project?_outcome hr) (project?_outcome hr')

theorem mem_reports_of_mem (hsteady : a.Steady s.behind) (hl : s.limiter = .unlimited)
    (hprojects : ∀ project, project ∈ projects → project ∈ projects')
    (hreport : ((a.paced workers runTimeout).run projects signal now tracker start s).report =
      some report)
    (hreport' : ((a.paced workers' runTimeout').run projects' signal' now tracker start s).report =
      some report')
    (hrun : ∀ project, ¬ ((a.paced workers' runTimeout').run projects' signal' now tracker start
      s).Drops project) {r : ProjectReport} (hr : r ∈ report.projects) : r ∈ report'.projects := by
  have hlisted : r.project ∈ projects :=
    (mem_projects_iff hreport).mpr (.inl (List.mem_map_of_mem hr))
  obtain ⟨r', hr'⟩ :=
    exists_project (onClock_unlimited hl) (hprojects _ hlisted) (hrun r.project)
  rw [run_report_unique hsteady hl ((project?_run hreport).mpr ⟨hr, rfl⟩) hr']
  exact ((project?_run hreport').mp hr').1

/-- Two passes over steady sources and the same projects agree, whatever the number of workers, the
order and repetition of the projects, and the instants at which they are stopped. -/
theorem runs_agree (hsteady : a.Steady s.behind) (hfree : s.limiter = .unlimited)
    (hprojects : ∀ project, project ∈ projects ↔ project ∈ projects') :
    ((a.paced workers runTimeout).run projects signal now tracker start s).Agrees
      ((a.paced workers' runTimeout').run projects' signal' now tracker start s) where
  reports := fun _ _ _ => run_report_unique hsteady hfree
  undropped := by
    intro hrun hrun'
    obtain ⟨report, hreport⟩ := (a.paced workers runTimeout).exists_run_report projects signal now
      tracker start s (onClock_unlimited hfree)
    obtain ⟨report', hreport'⟩ := (a.paced workers' runTimeout').exists_run_report projects'
      signal' now tracker start s (onClock_unlimited hfree)
    have hreports : report.projects = report'.projects := by
      apply reports_eq_of_mem (finished_ascending hreport) (finished_ascending hreport')
      intro r
      constructor
      · exact mem_reports_of_mem hsteady hfree (fun project => (hprojects project).mp) hreport
          hreport' hrun'
      · exact mem_reports_of_mem hsteady hfree (fun project => (hprojects project).mpr) hreport'
          hreport hrun
    refine ⟨report, report', hreport, hreport', ?_, ?_⟩
    · rw [(reported hreport).summary, (reported hreport').summary, hreports]
    · rw [(reported hreport).remembered, (reported hreport').remembered, hreports]

/-- A node that takes long to read, one that cannot be read, and one that is read too late. -/
def troubledNodes : Memory :=
  (Memory.ofNodes [("a", 1, ""), ("b", 3, "a"), ("c", 4, ""), ("d", 5, "")]).fail "c"
    |>.delay "a" (.ofMillis 20) |>.delay "d" (.ofSeconds 40)

def troubledAuditor : Auditor Memory := .ofMemory [("p", "b"), ("q", "c"), ("r", "d")]

def troubledRun (workers : Nat) (projects : List String) (signal : Signal) : PassEnd Rat Memory :=
  (troubledAuditor.paced workers (.ofSeconds 60)).run projects signal ⟨0⟩ [] 0
    ⟨.unlimited, troubledNodes⟩

theorem runs_agree_troubled :
    ∃ report report', (troubledRun 1 ["p", "q", "r"] .never).report = some report ∧
      (troubledRun 3 ["r", "p", "q", "p"] ⟨.cancelled 40000000000, none⟩).report = some report' ∧
      report.summary = report'.summary ∧
      (troubledRun 1 ["p", "q", "r"] .never).tracker =
        (troubledRun 3 ["r", "p", "q", "p"] ⟨.cancelled 40000000000, none⟩).tracker := by
  have hsteady : troubledAuditor.Steady troubledNodes :=
    steady_of_memory rfl (fun _ _ => rfl) (fun _ _ _ => rfl) troubledNodes
  have hprojects : ∀ project, project ∈ ["p", "q", "r"] ↔ project ∈ ["r", "p", "q", "p"] := by
    intro project
    simp only [List.mem_cons, List.not_mem_nil, or_false]
    tauto
  have hagree : (troubledRun 1 ["p", "q", "r"] .never).Agrees
      (troubledRun 3 ["r", "p", "q", "p"] ⟨.cancelled 40000000000, none⟩) :=
    runs_agree hsteady rfl hprojects
  exact hagree.undropped (not_drops_of_all (by decide +kernel))
    (not_drops_of_all (by decide +kernel))

end Runs

end Auditor

end ChainAudit
