import ChainAudit.Proofs.Chain.Exact
import ChainAudit.Proofs.Pass.Run
import ChainAudit.Proofs.Store.Memory

/-!
# Reports are coherent

A report is put together from a walk, or says why there was none. However it came about, its fields
agree with one another: what is said of the end fits what is said of the head, of the nodes and of
the error, and the issues are those that so many nodes can have.
-/

namespace ChainAudit

open ChainAudit.Chain ChainAudit.Clock ChainAudit.Limiter ChainAudit.Schedule ChainAudit.Store

/-- The fields of a report agree, for walks of a limited depth. -/
structure ProjectReport.Coherent (depth : Nat) (r : ProjectReport) : Prop where
  complete : r.complete = true ↔
    r.stop = "genesis" ∨ r.stop = "reached_verified" ∨ r.stop = "no_chain"
  error : r.error.isSome = true ↔ r.stop = "failed" ∨ r.stop = "head_unresolved"
  headHeight : r.headHeight.isSome = true ↔ 1 ≤ r.nodesWalked
  head : r.head = none ↔ r.stop = "no_chain" ∨ r.stop = "head_unresolved"
  bounded : r.nodesWalked ≤ depth
  cutOff : r.stop = "depth_exceeded" → r.nodesWalked = depth
  unwalked : r.nodesWalked = 0 → r.issues = []
  single : r.nodesWalked = 1 → ∀ i ∈ r.issues, i.kind ≠ .gap ∧ i.kind ≠ .duplicate
  stuckLast : ∃ found, (∀ i ∈ found, i.kind ≠ .stuck) ∧
    (r.issues = found ∨ ∃ i, i.kind = .stuck ∧ r.headHeight = some i.height ∧
      r.issues = found ++ [i])

section Reports

variable {depth : Nat} {w : Walk}

theorem noChain_coherent (depth : Nat) (project : String) :
    (ProjectReport.noChain project).Coherent depth := by
  constructor <;> simp [ProjectReport.noChain]

theorem unresolved_coherent (depth : Nat) (project error : String) :
    (ProjectReport.unresolved project error).Coherent depth := by
  constructor <;> simp [ProjectReport.unresolved]

/-- The names under which walks are reported that are not cancelled. -/
theorem label?_cases {ending : WalkEnd} {stop : String} (hstop : ending.label? = some stop)
    (hend : ending ≠ .cancelled) :
    ((stop = "genesis" ∨ stop = "reached_verified") ∧ ending.isComplete = true ∧
        ending.error? = none) ∨
      (stop = "depth_exceeded" ∧ ending.isComplete = false ∧ ending.error? = none) ∨
      (stop = "failed" ∧ ending.isComplete = false ∧ ending.error?.isSome = true) := by
  cases ending with
  | genesis => exact .inl ⟨.inl (Option.some.inj hstop).symm, rfl, rfl⟩
  | reachedVerified _ => exact .inl ⟨.inr (Option.some.inj hstop).symm, rfl, rfl⟩
  | depthExceeded _ => exact .inr (.inl ⟨(Option.some.inj hstop).symm, rfl, rfl⟩)
  | failed _ => exact .inr (.inr ⟨(Option.some.inj hstop).symm, rfl, rfl⟩)
  | cancelled => exact absurd rfl hend
  | lost => cases hstop

theorem walkReport_coherent {stop : String} (hstop : w.ending.label? = some stop)
    (hend : w.ending ≠ .cancelled) (hbounded : w.heights.length ≤ depth)
    (hcutOff : w.ending.label? = some "depth_exceeded" → w.heights.length = depth)
    (threshold : Span) (previous : Option KnownHead) (now : Moment) (project head : String) :
    (walkReport threshold previous now project head stop w).Coherent depth where
  complete := by
    rcases label?_cases hstop hend with ⟨rfl | rfl, hc, _⟩ | ⟨rfl, hc, _⟩ | ⟨rfl, hc, _⟩ <;>
      simp [walkReport, hc]
  error := by
    rcases label?_cases hstop hend with ⟨rfl | rfl, _, he⟩ | ⟨rfl, _, he⟩ | ⟨rfl, _, he⟩ <;>
      simp [walkReport, he]
  headHeight := by
    cases h : w.heights <;> simp [walkReport, Walk.headHeight?, h]
  head := by
    rcases label?_cases hstop hend with ⟨rfl | rfl, _⟩ | ⟨rfl, _⟩ | ⟨rfl, _⟩ <;>
      simp [walkReport]
  bounded := hbounded
  cutOff := fun h => hcutOff (hstop.trans (congrArg some h))
  unwalked := by
    intro hnone
    have hnil : w.heights = [] := List.length_eq_zero_iff.mp hnone
    simp [walkReport, issuesOf, Walk.headHeight?, hnil, analyzeWalk_short]
  single := by
    intro hsingle i hi
    have hnothing := analyzeWalk_short (Nat.le_of_eq hsingle) now
    rcases issuesOf_stuckLast threshold previous now w with hissues | ⟨i', hkind, _, hissues⟩
    · rw [walkReport, hissues, hnothing] at hi
      cases hi
    · rw [walkReport, hissues, hnothing] at hi
      rw [List.mem_singleton.mp hi, hkind]
      decide
  stuckLast := by
    refine ⟨analyzeWalk w.heights now, ?_, issuesOf_stuckLast threshold previous now w⟩
    intro i hi
    rcases analyzeWalk_kind hi with h | h <;> simp [h]

end Reports

namespace Auditor

variable [Quantity α]

/-- Whatever the sources answer, whatever was remembered before, and however the work is
interleaved, every report of a pass is coherent. -/
theorem reports_coherent (a : Auditor ω) (projects : List String) (signal : Signal) (now : Moment)
    (tracker : Tracker) (start : Instant) (s : Limited α ω) :
    ∀ report, (a.run projects signal now tracker start s).report = some report →
      ∀ r ∈ report.projects, r.Coherent a.maxDepth := by
  intro report hreport r hr
  have hfound := (project?_run hreport).mpr ⟨hr, rfl⟩
  rcases outcome_report (project?_outcome hfound) with ⟨_, _, _, _, hreport⟩ |
    ⟨_, _, _, hreport⟩ | ⟨_, _, _, _, _, _, hwalk, hend, hlabel, hreport⟩
  · rw [hreport]
    exact unresolved_coherent ..
  · rw [hreport]
    exact noChain_coherent ..
  · obtain ⟨hbounded, hcutOff⟩ := walked_depth hwalk
    rw [List.length_nil, Nat.zero_add] at hbounded hcutOff
    rw [hreport]
    exact walkReport_coherent hlabel hend hbounded hcutOff ..

/-- An auditor that visits one node of a chain only. -/
def shallowAuditor : Auditor Memory := { Auditor.ofMemory [("p", "b")] with maxDepth := 1 }

/-- A head that fell back a day ago, cut off from the node below it. -/
theorem reports_coherent_shallow :
    let e := shallowAuditor.run ["p"] .never (.ofSeconds 90000) [("p", ⟨⟨9, .ofSeconds 0⟩, none⟩)] 0
      (⟨.unlimited, .ofNodes [("a", 3, ""), ("b", 7, "a")]⟩ : Limited Rat Memory)
    ∃ report, e.report = some report ∧ ∃ r ∈ report.projects, r.stop = "depth_exceeded" ∧
      r.issues = [.stuck 7 90000] ∧ r.Coherent 1 := by
  intro e
  have hreports : e.report.map (·.projects) =
      some [⟨"p", some "b", some 7, 1, "depth_exceeded", false, [.stuck 7 90000], none⟩] := by
    decide +kernel
  obtain ⟨report, hreport, hprojects⟩ := Option.map_eq_some_iff.mp hreports
  have hcoherent := shallowAuditor.reports_coherent ["p"] .never (.ofSeconds 90000)
    [("p", ⟨⟨9, .ofSeconds 0⟩, none⟩)] 0
    (⟨.unlimited, .ofNodes [("a", 3, ""), ("b", 7, "a")]⟩ : Limited Rat Memory) report hreport
  have hr := hprojects ▸ List.mem_singleton_self _
  exact ⟨report, hreport, _, hr, rfl, rfl, hcoherent _ hr⟩

end Auditor

end ChainAudit
