import ChainAudit.Proofs.Pass.Verify
import ChainAudit.Proofs.Schedule.Punctual
import ChainAudit.Proofs.Signal
import ChainAudit.Proofs.Tracker
import Mathlib.Data.List.Nodup

/-!
# What a pass reports and remembers

The work of a pass comes to one outcome for each of its projects, unless it breaks down. Then the
pass makes no report and remembers nothing. Otherwise each project has a report or was cancelled,
and what is remembered of it depends on its own report alone.
-/

namespace ChainAudit

open ChainAudit.Clock ChainAudit.Limiter ChainAudit.Schedule ChainAudit.Store

section Names

theorem mem_eachOnce {names : List String} {p : String} : p ∈ eachOnce names ↔ p ∈ names :=
  List.mem_eraseDups

theorem eachOnce_nodup (names : List String) : (eachOnce names).Nodup := eraseDups_nodup names

theorem inOrder_perm (key : α → String) (as : List α) : (inOrder key as).Perm as :=
  List.mergeSort_perm _ _

theorem inOrder_ascending {key : α → String} {as : List α} (hnodup : (as.map key).Nodup) :
    ((inOrder key as).map key).Pairwise (· < ·) := by
  have hle : (inOrder key as).Pairwise fun a b => decide (key a ≤ key b) = true :=
    List.pairwise_mergeSort (by simpa using fun _ _ _ => String.le_trans)
      (by simpa using fun a b => String.le_total (key a) (key b)) as
  have hne : ((inOrder key as).map key).Nodup :=
    ((inOrder_perm key as).map key).nodup_iff.mpr hnodup
  rw [List.Nodup, List.pairwise_map] at hne
  rw [List.pairwise_map]
  exact (hle.and hne).imp fun h => Std.lt_of_le_of_ne (by simpa using h.1) h.2

theorem find?_report {reports : List ProjectReport} {p : String} {r : ProjectReport}
    (hnodup : (reports.map (·.project)).Nodup) :
    reports.find? (·.project == p) = some r ↔ r ∈ reports ∧ r.project = p := by
  constructor
  · intro hfind
    exact ⟨List.mem_of_find?_eq_some hfind, by simpa using List.find?_some hfind⟩
  · rintro ⟨hmem, rfl⟩
    cases hfind : reports.find? (·.project == r.project) with
    | none => exact absurd (List.find?_eq_none.mp hfind r hmem) (by simp)
    | some r' =>
      have hname : r'.project = r.project := by simpa using List.find?_some hfind
      rw [List.inj_on_of_nodup_map hnodup (List.mem_of_find?_eq_some hfind) hmem hname]

theorem report?_eq_some {e : ProjectEnd} {r : ProjectReport} :
    e.report? = some r ↔ e = .finished r := by
  cases e <;> simp [ProjectEnd.report?]

theorem names_split {ends : List ProjectEnd} (h : ∀ e ∈ ends, e.isLost = false) :
    (ends.map ProjectEnd.project).Perm
      ((ends.filterMap ProjectEnd.report?).map (·.project) ++
        ends.filterMap ProjectEnd.cancelled?) := by
  induction ends with
  | nil => exact .nil
  | cons e ends ih =>
    obtain ⟨hfirst, hrest⟩ := List.forall_mem_cons.mp h
    cases e with
    | finished r => exact (ih hrest).cons r.project
    | cancelled p => exact ((ih hrest).cons p).trans List.perm_middle.symm
    | lost p => cases hfirst

end Names

namespace Auditor

/-- The report of a pass on one project, if the pass made a report. -/
def PassEnd.project? (project : String) (e : PassEnd α ω) : Option ProjectReport :=
  e.report.bind (·.project? project)

/-- The pass made a report and left the project out. -/
def PassEnd.Drops (project : String) (e : PassEnd α ω) : Prop :=
  ∃ report, e.report = some report ∧ project ∈ report.cancelled

theorem not_drops_of_all {e : PassEnd α ω} (h : e.report.all (·.cancelled.isEmpty) = true)
    (project : String) : ¬ e.Drops project := by
  rintro ⟨report, hreport, hdropped⟩
  rw [hreport, Option.all_some, List.isEmpty_iff] at h
  rw [h] at hdropped
  exact absurd hdropped List.not_mem_nil

/-- What is remembered of a project after its report. -/
def rememberedAfter (now : Moment) (tracked : Option Tracked) (r : ProjectReport) :
    Option Tracked :=
  match r.headHeight with
  | none => tracked
  | some height => some (Tracker.observed height r.complete now tracked)

theorem get?_remember (now : Moment) {reports : List ProjectReport} (t : Tracker) (p : String)
    (hnodup : (reports.map (·.project)).Nodup) :
    (remember now reports t).get? p =
      match reports.find? (·.project == p) with
      | none => t.get? p
      | some r => rememberedAfter now (t.get? p) r := by
  induction reports generalizing t with
  | nil => rfl
  | cons r rest ih =>
    obtain ⟨hnew, hrest⟩ := List.nodup_cons.mp hnodup
    have hstep : (remember now [r] t).get? p =
        if r.project = p then rememberedAfter now (t.get? p) r else t.get? p := by
      simp only [remember, List.foldl_cons, List.foldl_nil, rememberedAfter]
      cases r.headHeight with
      | none => simp
      | some height =>
        change (t.commit r.project height r.complete now).get? p = _
        rw [Tracker.get?_commit]
        by_cases h : r.project = p
        · simp [h]
        · simp [h, Ne.symm h]
    rw [show remember now (r :: rest) t = remember now rest (remember now [r] t) from rfl,
      ih _ hrest]
    by_cases h : r.project = p
    · have hnone : rest.find? (·.project == p) = none := by
        rw [List.find?_eq_none]
        intro r' hr' hname
        exact hnew (List.mem_map.mpr ⟨r', hr', by simpa [h] using hname⟩)
      rw [hnone, List.find?_cons_of_pos (by simpa using h), hstep, if_pos h]
    · rw [List.find?_cons_of_neg (by simpa using h), hstep, if_neg h]

variable [Quantity α]
variable (a : Auditor ω) (projects : List String) (signal : Signal) (now : Moment)
variable (tracker : Tracker) (start : Instant) (s : Limited α ω)

/-- The instant at which a pass is broken off. -/
def stop : Option Instant := (signal.endingBy (start + a.runTimeout.nanos)).fires?

/-- What the work of a pass on its projects came to, in the order in which it ended. -/
def ends : List ProjectEnd :=
  (runPool ProjectEnd.isLost a.workers (start + a.runTimeout.nanos) start
    ((eachOnce projects).map fun p => a.verify (a.stop signal start) now (tracker.get? p) p)
    s).results

/-- What the work of a pass on a project may come to. -/
def PassOutcome (p : String) (e : ProjectEnd) : Prop :=
  a.Outcome s.behind s.limiter start (a.stop signal start) now (tracker.get? p) p e

/-- The work of a pass on a project, whenever it is taken up. -/
theorem work_ensures {fires : Instant} (hfires : a.stop signal start = some fires) (p : String)
    {t : Instant} (ht : Placed start fires t) :
    (a.verify (a.stop signal start) now (tracker.get? p) p : Activity (Limited α ω) _).Ensures
      (Activity.Ticking (some fires)) (Known s.limiter (a.Reaches s.behind))
      (fun e _ => a.PassOutcome signal now tracker start s p e) t := by
  unfold PassOutcome
  rw [hfires]
  rcases ht.2 with hplace | hfired
  · exact a.verify_ensures s.behind s.limiter (some fires) now (tracker.get? p) p hplace
  · exact a.verify_fired s.behind s.limiter start hfired now (tracker.get? p) p

/-- A pass does its jobs until one is lost, and its sources get to where their answers take them. -/
private theorem pool_outcomes :
    ResultsOf ProjectEnd.isLost (a.PassOutcome signal now tracker start s) (eachOnce projects)
        (a.ends projects signal now tracker start s) ∧
      Known s.limiter (a.Reaches s.behind)
        (a.run projects signal now tracker start s).state := by
  obtain ⟨fires, hfires, hle⟩ := signal.fires?_endingBy (start + a.runTimeout.nanos)
  have hknown : Known s.limiter (a.Reaches s.behind) s := ⟨.start, .start⟩
  have hjobs : ∀ p ∈ eachOnce projects, WillDoJob start fires (Known s.limiter (a.Reaches s.behind))
      (a.PassOutcome signal now tracker start s) p
        (a.verify (a.stop signal start) now (tracker.get? p) p) :=
    fun p _ _ ht => a.work_ensures signal now tracker start s hfires p ht
  obtain ⟨hresults, hstate⟩ := runPool_results hle hknown hjobs
  refine ⟨hresults, ?_⟩
  unfold run
  dsimp only
  split
  · exact hstate
  · exact hstate

theorem ends_outcomes :
    ResultsOf ProjectEnd.isLost (a.PassOutcome signal now tracker start s) (eachOnce projects)
      (a.ends projects signal now tracker start s) :=
  (a.pool_outcomes projects signal now tracker start s).1

theorem reaches_run :
    a.Reaches s.behind (a.run projects signal now tracker start s).state.behind :=
  (a.pool_outcomes projects signal now tracker start s).2.2

/-- A pass is over at its start or at the instant at which it is broken off. -/
theorem run_endsAt {fires : Instant} (hfires : a.stop signal start = some fires) :
    start ≤ (a.run projects signal now tracker start s).endsAt ∧
      (a.run projects signal now tracker start s).endsAt ≤ max start fires := by
  have hknown : Known s.limiter (a.Reaches s.behind) s := ⟨.start, .start⟩
  have hkeeps : ∀ work ∈ (eachOnce projects).map
      (fun p => a.verify (a.stop signal start) now (tracker.get? p) p), ∀ t,
      KeepsTo fires (Known s.limiter (a.Reaches s.behind)) work t := by
    intro work hwork t
    obtain ⟨p, _, rfl⟩ := List.mem_map.mp hwork
    rw [hfires]
    have hverify := a.verify_ensures s.behind s.limiter (some fires) now (tracker.get? p) p
      (rfl : t % 1000000 = t % 1000000)
    exact Activity.ensures_mono hverify fun _ _ _ => trivial
  unfold run
  dsimp only
  split
  · exact runPool_endsAt hknown hkeeps
  · exact runPool_endsAt hknown hkeeps

/-- A pass whose work came to `ends` makes a report on it and remembers that. -/
structure Reported (ends : List ProjectEnd) (now : Moment) (before : Tracker) (report : Report)
    (after : Tracker) : Prop where
  unbroken : ∀ e ∈ ends, e.isLost = false
  startedAt : report.startedAt = now
  projects : report.projects = inOrder ProjectReport.project (ends.filterMap ProjectEnd.report?)
  cancelled : report.cancelled = inOrder id (ends.filterMap ProjectEnd.cancelled?)
  summary : report.summary = summaryOf report.projects
  remembered : after = remember now report.projects before

/-- A pass breaks down with the work on a project, or it makes its report. -/
theorem run_cases :
    ((∃ e ∈ a.ends projects signal now tracker start s, e.isLost = true) ∧
        (a.run projects signal now tracker start s).report = none ∧
        (a.run projects signal now tracker start s).tracker = tracker) ∨
      ∃ report, (a.run projects signal now tracker start s).report = some report ∧
        Reported (a.ends projects signal now tracker start s) now tracker report
          (a.run projects signal now tracker start s).tracker := by
  unfold run
  dsimp only
  split
  · rename_i hlost
    exact .inl ⟨List.any_eq_true.mp hlost, rfl, rfl⟩
  · rename_i hkept
    refine .inr ⟨_, rfl, ?_, rfl, rfl, rfl, rfl, rfl⟩
    intro e he
    exact Bool.eq_false_iff.mpr fun hlost => hkept (List.any_eq_true.mpr ⟨e, he, hlost⟩)

/-- Where no wait for a token is beyond the clock, a pass makes a report. -/
theorem exists_run_report (hclock : s.limiter.OnClock) :
    ∃ report, (a.run projects signal now tracker start s).report = some report := by
  rcases a.run_cases projects signal now tracker start s with
    ⟨⟨e, he, hlost⟩, _⟩ | ⟨report, hreport, _⟩
  · obtain ⟨p, _, houtcome⟩ := (a.ends_outcomes projects signal now tracker start s).exists_key he
    exact absurd hclock (outcome_lost houtcome hlost)
  · exact ⟨report, hreport⟩

variable {a projects signal now tracker start s}
variable {p : String} {r : ProjectReport} {report : Report}

theorem run_tracker_of_none (hnone : (a.run projects signal now tracker start s).report = none) :
    (a.run projects signal now tracker start s).tracker = tracker := by
  rcases a.run_cases projects signal now tracker start s with ⟨_, _, hkept⟩ | ⟨_, hreport, _⟩
  · exact hkept
  · rw [hnone] at hreport
    cases hreport

section Reports

variable (hreport : (a.run projects signal now tracker start s).report = some report)
include hreport

theorem reported : Reported (a.ends projects signal now tracker start s) now tracker report
    (a.run projects signal now tracker start s).tracker := by
  rcases a.run_cases projects signal now tracker start s with
    ⟨_, hnone, _⟩ | ⟨report', hreport', hends⟩
  · rw [hreport] at hnone
    cases hnone
  · obtain rfl := Option.some.inj (hreport.symm.trans hreport')
    exact hends

theorem ends_names :
    ((a.ends projects signal now tracker start s).map ProjectEnd.project).Perm
      (eachOnce projects) := by
  have hall := (a.ends_outcomes projects signal now tracker start s).complete
    (reported hreport).unbroken
  have h := hall.mono fun _ _ _ _ houtcome => (outcome_project houtcome).symm
  rw [← Multiset.coe_eq_coe, ← Multiset.map_coe, eq_comm, ← Multiset.rel_eq,
    Multiset.rel_map_right]
  exact h

theorem reports_perm : report.projects.Perm
    ((a.ends projects signal now tracker start s).filterMap ProjectEnd.report?) :=
  (reported hreport).projects ▸ inOrder_perm _ _

theorem cancelled_perm : report.cancelled.Perm
    ((a.ends projects signal now tracker start s).filterMap ProjectEnd.cancelled?) :=
  (reported hreport).cancelled ▸ inOrder_perm _ _

/-- The reports and the cancelled projects of a pass are on its projects, each of them once. -/
theorem run_names :
    (report.projects.map (·.project) ++ report.cancelled).Perm (eachOnce projects) := by
  have hreports := (reports_perm hreport).map (·.project)
  have hsplit := names_split (reported hreport).unbroken
  exact (hreports.append (cancelled_perm hreport)).trans (hsplit.symm.trans (ends_names hreport))

theorem run_names_nodup : (report.projects.map (·.project) ++ report.cancelled).Nodup :=
  (run_names hreport).nodup_iff.mpr (eachOnce_nodup projects)

theorem reports_nodup : (report.projects.map (·.project)).Nodup :=
  (List.nodup_append.mp (run_names_nodup hreport)).1

theorem mem_projects_iff :
    p ∈ projects ↔ p ∈ report.projects.map (·.project) ∨ p ∈ report.cancelled := by
  rw [← List.mem_append, (run_names hreport).mem_iff, mem_eachOnce]

theorem project?_run :
    (a.run projects signal now tracker start s).project? p = some r ↔
      r ∈ report.projects ∧ r.project = p := by
  rw [PassEnd.project?, hreport, Option.bind_some]
  exact find?_report (reports_nodup hreport)

end Reports

theorem exists_mem_report (h : (a.run projects signal now tracker start s).project? p = some r) :
    ∃ report, (a.run projects signal now tracker start s).report = some report ∧
      r ∈ report.projects ∧ r.project = p := by
  obtain ⟨report, hreport, _⟩ := Option.bind_eq_some_iff.mp h
  exact ⟨report, hreport, (project?_run hreport).mp h⟩

theorem mem_ends_of_project?
    (h : (a.run projects signal now tracker start s).project? p = some r) :
    ProjectEnd.finished r ∈ a.ends projects signal now tracker start s := by
  obtain ⟨report, hreport, hmem, _⟩ := exists_mem_report h
  rw [(reports_perm hreport).mem_iff, List.mem_filterMap] at hmem
  obtain ⟨e, he, hr⟩ := hmem
  exact report?_eq_some.mp hr ▸ he

theorem project?_outcome (h : (a.run projects signal now tracker start s).project? p = some r) :
    a.PassOutcome signal now tracker start s p (.finished r) := by
  obtain ⟨_, _, _, hname⟩ := exists_mem_report h
  obtain ⟨p', _, houtcome⟩ := (a.ends_outcomes projects signal now tracker start s).exists_key
    (mem_ends_of_project? h)
  have hsame : p' = p := (outcome_project houtcome).symm.trans hname
  exact hsame ▸ houtcome

/-- Every project of a pass is dropped or has a report, where no wait is beyond the clock. -/
theorem exists_project (hclock : s.limiter.OnClock) (hp : p ∈ projects)
    (hrun : ¬ (a.run projects signal now tracker start s).Drops p) :
    ∃ r, (a.run projects signal now tracker start s).project? p = some r := by
  obtain ⟨report, hreport⟩ :=
    a.exists_run_report projects signal now tracker start s hclock
  have hkept : p ∉ report.cancelled := fun hdropped => hrun ⟨report, hreport, hdropped⟩
  obtain ⟨r, hr, hname⟩ := List.mem_map.mp (((mem_projects_iff hreport).mp hp).resolve_right hkept)
  exact ⟨r, (project?_run hreport).mpr ⟨hr, hname⟩⟩

theorem get?_run_tracker :
    (a.run projects signal now tracker start s).tracker.get? p =
      match (a.run projects signal now tracker start s).project? p with
      | none => tracker.get? p
      | some r => rememberedAfter now (tracker.get? p) r := by
  cases hreport : (a.run projects signal now tracker start s).report with
  | none =>
    rw [run_tracker_of_none hreport, PassEnd.project?, hreport]
    rfl
  | some report =>
    rw [(reported hreport).remembered, PassEnd.project?, hreport]
    exact get?_remember now tracker p (reports_nodup hreport)

end Auditor

end ChainAudit
