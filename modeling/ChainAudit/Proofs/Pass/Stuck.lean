import ChainAudit.Proofs.Chain.Exact
import ChainAudit.Proofs.Chain.Head
import ChainAudit.Proofs.Pass.Series

/-!
# Stuck heads over a series of passes

Only the highest head and its moment are remembered of a project, and yet every pass judges the
head by all that the passes before it saw. Passes that did not reach the head leave no trace.
-/

namespace ChainAudit

open ChainAudit.Chain ChainAudit.Clock ChainAudit.Limiter ChainAudit.Store

/-- The issues that say that a head is stuck. -/
def stuckIssues (issues : List Issue) : List Issue := issues.filter (·.kind = .stuck)

/-- What a pass saw of the head of a project, if it reached the head and reports on it. -/
def Auditor.PassEnd.sighting? (project : String) (e : Auditor.PassEnd α ω) : Option Sighting :=
  e.report.bind fun report => (report.project? project).bind fun r =>
    r.headHeight.map fun height => ⟨height, report.startedAt⟩

/-- What passes saw of the head of a project, one after the other. -/
def sightings (project : String) (ends : List (Auditor.PassEnd α ω)) : List Sighting :=
  ends.filterMap (·.sighting? project)

theorem sightings_cons (p : String) (e : Auditor.PassEnd α ω) (ends : List (Auditor.PassEnd α ω)) :
    sightings p (e :: ends) = (e.sighting? p).toList ++ sightings p ends := by
  rw [sightings, List.filterMap_cons]
  cases e.sighting? p <;> rfl

section Walks

variable {threshold : Span} {now : Moment} {w : Walk}

theorem stuckIssues_analyzeWalk (heights : List Height) :
    stuckIssues (analyzeWalk heights now) = [] := by
  simp only [stuckIssues, List.filter_eq_nil_iff, decide_eq_true_eq]
  intro i hi hstuck
  rcases analyzeWalk_kind hi with h | h
  · rw [hstuck] at h
    cases h
  · rw [hstuck] at h
    cases h

theorem issuesOf_stuck (threshold : Span) (previous : Option KnownHead) (now : Moment) (w : Walk) :
    ∃ stuck, (∀ i ∈ stuck, i.kind = .stuck) ∧
      issuesOf threshold previous now w = analyzeWalk w.heights now ++ stuck := by
  rcases issuesOf_stuckLast threshold previous now w with hissues | ⟨i, hkind, _, hissues⟩
  · exact ⟨[], by simp, by rw [hissues, List.append_nil]⟩
  · exact ⟨[i], by simpa using hkind, hissues⟩

theorem stuckIssues_headless (previous : Option KnownHead) (hhead : w.headHeight? = none) :
    stuckIssues (issuesOf threshold previous now w) = [] := by
  rw [issuesOf, hhead, List.append_nil, stuckIssues_analyzeWalk]

theorem stuckIssues_after (seen : List Sighting) {height : Height}
    (hhead : w.headHeight? = some height) :
    (Overdue threshold seen ⟨height, now⟩ →
        stuckIssues (issuesOf threshold (knownAfter seen) now w) =
          [.stuck height (Int64.ofInt now.seconds)]) ∧
      (¬ Overdue threshold seen ⟨height, now⟩ →
        stuckIssues (issuesOf threshold (knownAfter seen) now w) = []) := by
  obtain ⟨hoverdue, hintime⟩ := stuckIssue?_knownAfter threshold seen ⟨height, now⟩
  have hanalysis : stuckIssues (analyzeWalk w.heights now) = [] := stuckIssues_analyzeWalk w.heights
  unfold stuckIssues at hanalysis ⊢
  rw [issuesOf, hhead, List.filter_append, hanalysis, List.nil_append]
  constructor
  · intro h
    simp [hoverdue h, Issue.stuck]
  · intro h
    simp [hintime h]

end Walks

section Passes

variable [Quantity α] {q : Pass α ω} {passes : List (Pass α ω)} {p : String} {tracker : Tracker}
variable {seen : List Sighting} {i : Nat} {e : Auditor.PassEnd α ω}

/-- A pass that follows a history reports the head as stuck, once and at its height, exactly if its
sighting is overdue. -/
def Auditor.PassEnd.JudgesHead (threshold : Span) (seen : List Sighting) (project : String)
    (e : Auditor.PassEnd α ω) : Prop :=
  match e.sighting? project with
  | none => stuckIssues (e.issuesOn project) = []
  | some o =>
      (Overdue threshold seen o → stuckIssues (e.issuesOn project) =
          [.stuck o.height (Int64.ofInt o.seenAt.seconds)]) ∧
        (¬ Overdue threshold seen o → stuckIssues (e.issuesOn project) = [])

theorem sighting?_run : (q.run tracker).sighting? p =
    ((q.run tracker).project? p).bind fun r => r.headHeight.map fun height => ⟨height, q.now⟩ := by
  unfold Auditor.PassEnd.sighting? Auditor.PassEnd.project?
  cases hreport : (q.run tracker).report with
  | none => rfl
  | some report =>
    rw [Option.bind_some, Option.bind_some, (Auditor.reported hreport).startedAt]

theorem judgesHead_run (hknown : (tracker.get? p).map (·.head) = knownAfter seen) :
    (q.run tracker).JudgesHead q.auditor.stuckThreshold seen p := by
  unfold Auditor.PassEnd.JudgesHead Auditor.PassEnd.issuesOn
  rw [sighting?_run]
  cases hr : (q.run tracker).project? p with
  | none => rfl
  | some r =>
    rcases Auditor.outcome_report (Auditor.project?_outcome hr) with ⟨_, _, _, _, rfl⟩ |
      ⟨_, _, _, rfl⟩ | ⟨t, head, w, label, _, _, _, _, _, rfl⟩
    · rfl
    · rfl
    · rw [hknown]
      simp only [Option.bind_some, Option.map_some, Option.getD_some, walkReport]
      cases hhead : w.headHeight? with
      | none => exact stuckIssues_headless _ hhead
      | some height => exact stuckIssues_after seen hhead

theorem knownAfter_run (hknown : (tracker.get? p).map (·.head) = knownAfter seen) :
    ((q.run tracker).tracker.get? p).map (·.head) =
      knownAfter (seen ++ ((q.run tracker).sighting? p).toList) := by
  have hkept : knownAfter (seen ++ (none : Option Sighting).toList) =
      (tracker.get? p).map (·.head) := by
    rw [hknown, Option.toList_none, List.append_nil]
  rw [Pass.get?_run, sighting?_run]
  cases (q.run tracker).project? p with
  | none => exact hkept.symm
  | some r =>
    simp only [Option.bind_some, Auditor.rememberedAfter]
    cases r.headHeight with
    | none => exact hkept.symm
    | some height =>
      change some (Tracker.observed height r.complete q.now (tracker.get? p)).head =
        knownAfter (seen ++ [⟨height, q.now⟩])
      rw [knownAfter_snoc, ← hknown, Tracker.observed_head]

theorem judgesHead_runAll (hknown : (tracker.get? p).map (·.head) = knownAfter seen)
    (hq : passes[i]? = some q) (he : (Pass.runAll tracker passes)[i]? = some e) :
    e.JudgesHead q.auditor.stuckThreshold
      (seen ++ sightings p ((Pass.runAll tracker passes).take i)) p := by
  -- the tracker carries the known head of the history so far from pass to pass
  induction passes generalizing tracker seen i with
  | nil => cases hq
  | cons first rest ih =>
    cases i with
    | zero =>
      obtain rfl := Option.some.inj hq
      obtain rfl := Option.some.inj he
      rw [List.take_zero, sightings, List.filterMap_nil, List.append_nil]
      exact judgesHead_run hknown
    | succ i =>
      rw [Pass.runAll, List.take_succ_cons, sightings_cons, ← List.append_assoc]
      exact ih (knownAfter_run hknown) hq he

/-- In every pass of a series that starts without anything remembered, the head is reported as
stuck, once and at its height, exactly if it is not above the first of the highest heads that the
passes before it saw, and was seen later than that one by more than the threshold. -/
theorem stuck_iff_overdue (hq : passes[i]? = some q) (he : (Pass.runAll [] passes)[i]? = some e) :
    (e.sighting? p = none → stuckIssues (e.issuesOn p) = []) ∧
      ∀ o, e.sighting? p = some o → o.seenAt = q.now ∧
        (Overdue q.auditor.stuckThreshold (sightings p ((Pass.runAll [] passes).take i)) o →
          stuckIssues (e.issuesOn p) = [.stuck o.height (Int64.ofInt q.now.seconds)]) ∧
        (¬ Overdue q.auditor.stuckThreshold (sightings p ((Pass.runAll [] passes).take i)) o →
          stuckIssues (e.issuesOn p) = []) := by
  have hjudged : e.JudgesHead q.auditor.stuckThreshold
      ([] ++ sightings p ((Pass.runAll [] passes).take i)) p := judgesHead_runAll rfl hq he
  unfold Auditor.PassEnd.JudgesHead at hjudged
  obtain ⟨t, rfl⟩ := Pass.exists_run hq he
  constructor
  · intro hnone
    rwa [hnone] at hjudged
  · intro o ho
    have hnow : o.seenAt = q.now := by
      rw [sighting?_run] at ho
      obtain ⟨r, _, hr⟩ := Option.bind_eq_some_iff.mp ho
      obtain ⟨height, _, rfl⟩ := Option.map_eq_some_iff.mp hr
      rfl
    rw [ho, List.nil_append] at hjudged
    rw [← hnow]
    exact ⟨rfl, hjudged⟩

def stalledNodes : Memory := .ofNodes [("a", 5, ""), ("b", 8, ""), ("c", 6, "")]

/-- Passes that see the head rise, fall at an earlier moment, and rise again to where it was, half
an hour and a second after it got there first. -/
def stalledPasses : List (Pass Rat Memory) :=
  [("a", 0), ("b", 1000), ("c", 400), ("b", 2801)].map fun (head, seconds) =>
    { Pass.ofMemory "p" head stalledNodes with now := .ofSeconds seconds }

theorem stuck_iff_overdue_stalled :
    ∃ e ∈ (Pass.runAll [] stalledPasses)[3]?,
      e.sighting? "p" = some ⟨8, .ofSeconds 2801⟩ ∧
        Overdue defaultStuckThreshold
          [⟨5, .ofSeconds 0⟩, ⟨8, .ofSeconds 1000⟩, ⟨6, .ofSeconds 400⟩] ⟨8, .ofSeconds 2801⟩ ∧
        stuckIssues (e.issuesOn "p") = [.stuck 8 2801] := by
  have hseen : sightings "p" ((Pass.runAll [] stalledPasses).take 3) =
      [⟨5, .ofSeconds 0⟩, ⟨8, .ofSeconds 1000⟩, ⟨6, .ofSeconds 400⟩] := by decide +kernel
  have hoverdue : Overdue defaultStuckThreshold
      [⟨5, .ofSeconds 0⟩, ⟨8, .ofSeconds 1000⟩, ⟨6, .ofSeconds 400⟩] ⟨8, .ofSeconds 2801⟩ :=
    ⟨⟨8, .ofSeconds 1000⟩, ⟨[⟨5, .ofSeconds 0⟩], [⟨6, .ofSeconds 400⟩], rfl, by decide, by decide⟩,
      by decide, by decide⟩
  refine ⟨_, rfl, by decide +kernel, hoverdue, ?_⟩
  have hstuck := (@stuck_iff_overdue _ _ _ _ stalledPasses "p" 3 _ rfl rfl).2
    ⟨8, .ofSeconds 2801⟩ (by decide +kernel)
  rw [hseen] at hstuck
  exact hstuck.2.1 hoverdue

end Passes

end ChainAudit
