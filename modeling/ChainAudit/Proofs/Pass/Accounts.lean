import ChainAudit.Proofs.Limiter.Accepted
import ChainAudit.Proofs.Pass.Run
import ChainAudit.Proofs.Store.Memory
import ChainAudit.Proofs.Summary.Totals

/-!
# Passes account for every project

However the work on the projects is interleaved and wherever it is broken off, each project of a
pass ends up either with one report or among the cancelled ones. The summary is on the reports, and
what is remembered changes for those projects alone whose report has a head. Only a wait for a token
that is beyond the clock keeps a pass from its report, and then nothing is remembered.
-/

namespace ChainAudit

open ChainAudit.Clock ChainAudit.Limiter ChainAudit.Schedule ChainAudit.Store

namespace Auditor

/-- The report of a pass accounts for the listed projects: it has a report on each of them or names
it as cancelled, it summarizes the reports, and what they say of the heads is remembered. -/
structure Accounts (projects : List String) (now : Moment) (before : Tracker) (report : Report)
    (after : Tracker) : Prop where
  finishedAscending : (report.projects.map (·.project)).Pairwise (· < ·)
  cancelledAscending : report.cancelled.Pairwise (· < ·)
  disjoint : ∀ p ∈ report.projects.map (·.project), p ∉ report.cancelled
  listed : ∀ p, p ∈ projects ↔ p ∈ report.projects.map (·.project) ∨ p ∈ report.cancelled
  summary : report.summary.Describes (report.projects.map ProjectReport.finding)
  committed : ∀ r ∈ report.projects, ∀ height, r.headHeight = some height →
    after.get? r.project = (before.commit r.project height r.complete now).get? r.project
  kept : ∀ p, (∀ r ∈ report.projects, r.project = p → r.headHeight = none) →
    after.get? p = before.get? p

section Reports

variable [Quantity α] {a : Auditor ω} {projects : List String} {signal : Signal} {now : Moment}
variable {tracker : Tracker} {start : Instant} {s : Limited α ω} {report : Report}
variable (hreport : (a.run projects signal now tracker start s).report = some report)
include hreport

theorem finished_ascending : (report.projects.map (·.project)).Pairwise (· < ·) := by
  rw [(reported hreport).projects]
  apply inOrder_ascending
  have hperm := (reports_perm hreport).map (·.project)
  exact hperm.nodup_iff.mp (reports_nodup hreport)

theorem cancelled_ascending : report.cancelled.Pairwise (· < ·) := by
  have hnodup := (List.nodup_append.mp (run_names_nodup hreport)).2.1
  rw [(cancelled_perm hreport).nodup_iff] at hnodup
  have hascending : ((inOrder id _).map id).Pairwise (· < ·) :=
    inOrder_ascending (by rwa [List.map_id])
  rw [(reported hreport).cancelled]
  rwa [List.map_id] at hascending

theorem tracker_committed {r : ProjectReport} {height : Chain.Height}
    (hr : r ∈ report.projects) (hheight : r.headHeight = some height) :
    (a.run projects signal now tracker start s).tracker.get? r.project =
      (tracker.commit r.project height r.complete now).get? r.project := by
  rw [get?_run_tracker, (project?_run hreport).mpr ⟨hr, rfl⟩, Tracker.get?_commit, if_pos rfl]
  simp only [rememberedAfter, hheight]

theorem tracker_kept {p : String}
    (hnone : ∀ r ∈ report.projects, r.project = p → r.headHeight = none) :
    (a.run projects signal now tracker start s).tracker.get? p = tracker.get? p := by
  rw [get?_run_tracker]
  cases hr : (a.run projects signal now tracker start s).project? p with
  | none => rfl
  | some r =>
    obtain ⟨hmem, hname⟩ := (project?_run hreport).mp hr
    simp only [rememberedAfter, hnone r hmem hname]

theorem report_accounts :
    Accounts projects now tracker report (a.run projects signal now tracker start s).tracker where
  finishedAscending := finished_ascending hreport
  cancelledAscending := cancelled_ascending hreport
  disjoint := by
    intro p hfinished hcancelled
    exact (List.nodup_append.mp (run_names_nodup hreport)).2.2 p hfinished p hcancelled rfl
  listed := fun _ => mem_projects_iff hreport
  summary := (reported hreport).summary ▸ Totals.summary_describes _
  committed := fun _ hr _ => tracker_committed hreport hr
  kept := fun _ => tracker_kept hreport

end Reports

/-- Whatever the sources answer and when, and whenever it is stopped, a pass makes a report that
accounts for exactly the projects that it was given. Only where waits for a token may be beyond the
clock can it end without a report; then it remembers what it did before. -/
theorem run_accounts [Quantity α] (a : Auditor ω) (projects : List String) (signal : Signal)
    (now : Moment) (tracker : Tracker) (start : Instant) (s : Limited α ω) :
    (s.limiter.OnClock → ∃ report,
      (a.run projects signal now tracker start s).report = some report) ∧
    (∀ report, (a.run projects signal now tracker start s).report = some report →
      Accounts projects now tracker report (a.run projects signal now tracker start s).tracker) ∧
    ((a.run projects signal now tracker start s).report = none →
      (a.run projects signal now tracker start s).tracker = tracker) :=
  ⟨a.exists_run_report projects signal now tracker start s, fun _ => report_accounts,
    run_tracker_of_none⟩

/-- A pass over two projects with one node each and at a rate of one token a second, which is
stopped while the second project waits for its token. -/
def stoppedPass : PassEnd Float Memory :=
  (Auditor.ofMemory [("p", "a"), ("q", "b")]).run ["q", "p", "q"] ⟨.cancelled 500000000, none⟩ ⟨0⟩ []
    0 ⟨.ofRate 0 (.perSecond 1.0 1), .ofNodes [("a", 1, ""), ("b", 3, "")]⟩

theorem run_accounts_stopped :
    ∃ report, stoppedPass.report = some report ∧
      report.projects.map (·.project) = ["q"] ∧ report.cancelled = ["p"] ∧
      Accounts ["q", "p", "q"] ⟨0⟩ [] report stoppedPass.tracker := by
  have hclock : (ofRate 0 (.perSecond 1.0 1)).OnClock :=
    ofRate_onClock (by decide +kernel) (by decide +kernel) 0
  obtain ⟨hreport, haccounts, -⟩ := (Auditor.ofMemory [("p", "a"), ("q", "b")]).run_accounts
    ["q", "p", "q"] ⟨.cancelled 500000000, none⟩ ⟨0⟩ [] 0
    ⟨.ofRate 0 (.perSecond 1.0 1), .ofNodes [("a", 1, ""), ("b", 3, "")]⟩
  obtain ⟨report, hreport⟩ := hreport hclock
  have hnames : stoppedPass.report.map (fun r => (r.projects.map (·.project), r.cancelled)) =
      some (["q"], ["p"]) := by decide +kernel
  rw [stoppedPass, hreport] at hnames
  obtain ⟨hfinished, hcancelled⟩ := Prod.mk.inj (Option.some.inj hnames)
  exact ⟨report, hreport, hfinished, hcancelled, haccounts report hreport⟩

/-- A pass over one project with two nodes, at a rate so low that the wait for the second token is
beyond the clock. -/
def brokenPass : PassEnd Float Memory :=
  (Auditor.ofMemory [("p", "n2")]).run ["p"] .never ⟨0⟩ [] 0
    ⟨.ofRate 0 (.perSecond 1e-300 1), .ofChain [("n1", 1), ("n2", 2)]⟩

/-- This pass accounts for nothing. -/
theorem broken_pass_unaccounted :
    ¬ ∃ report, brokenPass.report = some report ∧
      Accounts ["p"] ⟨0⟩ [] report brokenPass.tracker := by
  have hnone : brokenPass.report.isSome = false := by decide +kernel
  rintro ⟨report, hreport, -⟩
  rw [hreport] at hnone
  cases hnone

end Auditor

end ChainAudit
