import ChainAudit.Pass.Run
import ChainAudit.Proofs.Chain.Head
import ChainAudit.Proofs.Walk

/-!
# What the work on a project comes to

The head of the project is looked up and its chain is walked. What comes of it is one of a few
outcomes, which depend on what the sources of the auditor answer in the states they may get to.
-/

namespace ChainAudit

open ChainAudit.Chain ChainAudit.Clock ChainAudit.Limiter ChainAudit.Schedule
open ChainAudit.Schedule.Activity ChainAudit.Store

def ProjectEnd.project : ProjectEnd → String
  | .finished r => r.project
  | .cancelled project | .lost project => project

theorem issuesOf_stuckLast (threshold : Span) (previous : Option KnownHead) (now : Moment)
    (w : Walk) :
    issuesOf threshold previous now w = analyzeWalk w.heights now ∨
      ∃ i, i.kind = .stuck ∧ w.headHeight? = some i.height ∧
        issuesOf threshold previous now w = analyzeWalk w.heights now ++ [i] := by
  unfold issuesOf
  cases w.headHeight? with
  | none => exact .inl (List.append_nil _)
  | some height =>
    dsimp only
    cases hstuck : stuckIssue? threshold height previous now with
    | none => exact .inl (List.append_nil _)
    | some i =>
      exact .inr ⟨i, stuckIssue?_kind hstuck, by rw [eq_stuck_of_stuckIssue? hstuck]; rfl, rfl⟩

namespace Auditor

/-- The states that the sources of an auditor may get to by what they are asked. -/
inductive Reaches (a : Auditor ω) (start : ω) : ω → Prop
  | start : Reaches a start start
  | read {t : ω} (cid : String) (ht : Reaches a start t) : Reaches a start (a.store.read cid t).2
  | lookup {t : ω} (project : String) (ht : Reaches a start t) :
      Reaches a start (a.heads.lookup project t).2

section Outcomes

variable [Quantity α]

/-- What may become of a fetch of a pass that starts at the place of an instant. -/
def Answers (a : Auditor ω) (start : ω) (l : Limiter α) (place : Instant) :
    String → Fetched → Prop :=
  MayFetch a.store (a.Reaches start) a.fetchTimeout l place

/-- What the work on a project may come to. -/
inductive Outcome (a : Auditor ω) (start : ω) (l : Limiter α) (place : Instant)
    (stop : Option Instant) (now : Moment) (tracked : Option Tracked) (project : String) :
    ProjectEnd → Prop
  | cancelled (hstop : stop ≠ none) :
      Outcome a start l place stop now tracked project (.cancelled project)
  | unresolved {t e} (ht : a.Reaches start t)
      (hlookup : (a.heads.lookup project t).1.value = .error e) :
      Outcome a start l place stop now tracked project
        (.finished (.unresolved project e.message))
  | noChain {t} (ht : a.Reaches start t) (hlookup : (a.heads.lookup project t).1.value = .ok none) :
      Outcome a start l place stop now tracked project (.finished (.noChain project))
  | walked {t head w} (ht : a.Reaches start t)
      (hlookup : (a.heads.lookup project t).1.value = .ok (some head))
      (hwalk : Walked (a.Answers start l place) stop a.maxDepth (tracked.bind (·.verified))
        a.maxDepth head [] w) :
      Outcome a start l place stop now tracked project
        (outcomeOf a.stuckThreshold (tracked.map (·.head)) now project head w)

end Outcomes

/-- A walk is cancelled, breaks down or is reported under the name of its end. -/
theorem outcomeOf_cases (w : Walk) (threshold : Span) (previous : Option Chain.KnownHead)
    (now : Moment) (project head : String) :
    (w.ending = .cancelled ∧
        outcomeOf threshold previous now project head w = .cancelled project) ∨
      (w.ending = .lost ∧ outcomeOf threshold previous now project head w = .lost project) ∨
      w.ending ≠ .cancelled ∧ ∃ stop, w.ending.label? = some stop ∧
        outcomeOf threshold previous now project head w =
          .finished (walkReport threshold previous now project head stop w) := by
  unfold outcomeOf
  cases w.ending with
  | cancelled => exact .inl ⟨rfl, rfl⟩
  | lost => exact .inr (.inl ⟨rfl, rfl⟩)
  | _ => exact .inr (.inr ⟨nofun, _, rfl, rfl⟩)

variable [Quantity α]
variable {a : Auditor ω} {start : ω} {l : Limiter α} {place : Instant} {stop : Option Instant}
variable {now : Moment} {tracked : Option Tracked} {project : String}

theorem outcome_project {e : ProjectEnd}
    (h : a.Outcome start l place stop now tracked project e) : e.project = project := by
  cases h with
  | @walked _ head w _ _ _ =>
    rcases outcomeOf_cases w a.stuckThreshold (tracked.map (·.head)) now project head with
      ⟨_, he⟩ | ⟨_, he⟩ | ⟨_, _, _, he⟩
    · rw [he]
      rfl
    · rw [he]
      rfl
    · rw [he]
      rfl
  | _ => rfl

theorem outcome_report {r : ProjectReport}
    (h : a.Outcome start l place stop now tracked project (.finished r)) :
    (∃ t e, a.Reaches start t ∧ (a.heads.lookup project t).1.value = .error e ∧
        r = .unresolved project e.message) ∨
      (∃ t, a.Reaches start t ∧ (a.heads.lookup project t).1.value = .ok none ∧
        r = .noChain project) ∨
      ∃ t head w label, a.Reaches start t ∧
        (a.heads.lookup project t).1.value = .ok (some head) ∧
        Walked (a.Answers start l place) stop a.maxDepth (tracked.bind (·.verified)) a.maxDepth
          head [] w ∧
        w.ending ≠ .cancelled ∧ w.ending.label? = some label ∧
        r = walkReport a.stuckThreshold (tracked.map (·.head)) now project head label w := by
  generalize he : ProjectEnd.finished r = e at h
  cases h with
  | cancelled _ => cases he
  | @unresolved t e ht hlookup => exact .inl ⟨t, e, ht, hlookup, ProjectEnd.finished.inj he⟩
  | @noChain t ht hlookup => exact .inr (.inl ⟨t, ht, hlookup, ProjectEnd.finished.inj he⟩)
  | @walked t head w ht hlookup hwalk =>
    rcases outcomeOf_cases w a.stuckThreshold (tracked.map (·.head)) now project head with
      ⟨_, hw⟩ | ⟨_, hw⟩ | ⟨hend, label, hlabel, hw⟩
    · rw [hw] at he
      cases he
    · rw [hw] at he
      cases he
    · rw [hw] at he
      exact .inr (.inr ⟨t, head, w, label, ht, hlookup, hwalk, hend, hlabel,
        ProjectEnd.finished.inj he⟩)

/-- The work on a project breaks down only where waits for a token may be beyond the clock. -/
theorem outcome_lost {e : ProjectEnd} (h : a.Outcome start l place stop now tracked project e)
    (he : e.isLost = true) : ¬ l.OnClock := by
  cases h with
  | @walked t head w ht hlookup hwalk =>
    rcases outcomeOf_cases w a.stuckThreshold (tracked.map (·.head)) now project head with
      ⟨_, hw⟩ | ⟨hend, _⟩ | ⟨_, _, _, hw⟩
    · rw [hw] at he
      cases he
    · obtain ⟨cid, hanswer⟩ := walked_lost hwalk hend
      exact hanswer.lost rfl
    · rw [hw] at he
      cases he
  | _ => cases he

/-- In whatever state the store gets to, it answers in time with the node of a block. -/
def Holds (a : Auditor ω) (start : ω) (b : Block) : Prop :=
  ∀ t t', a.Reaches start t → a.Reaches start t' →
    (∀ span, (a.store.read b.cid t).1.delay = some span → span.nanos ≤ a.fetchTimeout.nanos) ∧
      ∃ bytes, (a.store.read b.cid t).1.value t' = .ok bytes ∧
        Chain.Node.ofBytes bytes = .ok b.node

theorem answers_of_holds {b : Block} {r : Fetched} (hb : a.Holds start b) (hl : l = .unlimited)
    (hr : a.Answers start l place b.cid r) :
    ∃ bytes, r = .answered (.ok bytes) ∧ Chain.Node.ofBytes bytes = .ok b.node := by
  obtain ⟨t, t', ht, ht', rfl⟩ := hr.passed hl
  obtain ⟨hdelay, bytes, hread, hnode⟩ := hb t t' ht ht'
  have hin : InTime a.fetchTimeout place (a.store.answer b.cid t t') := inTime_of_le hdelay place
  refine ⟨bytes, ?_, hnode⟩
  rw [answerAt, if_pos hin]
  exact congrArg _ hread

theorem verify_ensures (a : Auditor ω) (start : ω) (l : Limiter α) (stop : Option Instant)
    (now : Moment) (tracked : Option Tracked) (project : String) {t : Instant}
    (ht : t % 1000000 = place % 1000000) :
    (a.verify stop now tracked project : Activity (Limited α ω) ProjectEnd).Ensures (Ticking stop)
      (Known l (a.Reaches start))
      (fun e _ => a.Outcome start l place stop now tracked project e) t := by
  have hlookup : (Limited.onBehind (.await fun _ => a.heads.lookup project) :
      Activity (Limited α ω) _).Ensures (Ticking none) (Known l (a.Reaches start))
        (fun r ends => (∃ s, a.Reaches start s ∧ (a.heads.lookup project s).1.value = r) ∧
          ends % 1000000 = place % 1000000) t :=
    ensures_within (fun _ hs => hs.2) (fun _ _ hs hbehind => ⟨hs.1, hbehind⟩)
      (ensures_await fun s hs =>
        ⟨.lookup project hs, ⟨s, hs, rfl⟩, (Delayed.comesAt_place t _).trans ht⟩)
  refine ensures_bind (ensures_mono (ensures_breakOff hlookup) ?_)
  intro r t' hr
  match r with
  | none =>
    obtain ⟨fires, hstop, _⟩ := hr
    exact ensures_pure (.cancelled (by simp [hstop]))
  | some (.error e) =>
    obtain ⟨⟨s, hs, hanswer⟩, _⟩ := hr
    exact ensures_pure (.unresolved hs hanswer)
  | some (.ok none) =>
    obtain ⟨⟨s, hs, hanswer⟩, _⟩ := hr
    exact ensures_pure (.noChain hs hanswer)
  | some (.ok (some head)) =>
    obtain ⟨⟨s, hs, hanswer⟩, hplace⟩ := hr
    have hfetch : ∀ cid now, now % 1000000 = place % 1000000 →
        (fetch a.store a.fetchTimeout cid : Activity (Limited α ω) _).Ensures (Ticking none)
          (Known l (a.Reaches start))
          (fun r ends => a.Answers start l place cid r ∧ ends % 1000000 = place % 1000000) now :=
      fun cid now hnow => fetch_ensures a.fetchTimeout l cid hnow fun _ hs => .read cid hs
    refine ensures_bind (ensures_mono (walk_ensures hfetch stop _ _ head hplace) ?_)
    intro w _ hw
    exact ensures_pure (.walked hs hanswer hw)

/-- Once the stop has come, a project is cancelled before anything is asked for it. -/
theorem verify_fired (a : Auditor ω) (start : ω) (l : Limiter α) (place : Instant)
    {fires t : Instant} (hfires : fires ≤ t) (now : Moment) (tracked : Option Tracked)
    (project : String) :
    (a.verify (some fires) now tracked project : Activity (Limited α ω) ProjectEnd).Ensures
      (Ticking (some fires)) (Known l (a.Reaches start))
      (fun e _ => a.Outcome start l place (some fires) now tracked project e) t := by
  refine ensures_bind (ensures_mono (ensures_breakOff_fired hfires) ?_)
  rintro _ t' rfl
  exact ensures_pure (.cancelled nofun)

end Auditor

end ChainAudit
