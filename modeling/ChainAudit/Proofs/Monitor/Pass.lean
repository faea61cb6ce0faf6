import ChainAudit.Monitor
import ChainAudit.Proofs.Notice.Delivery
import ChainAudit.Proofs.Pass.Run

/-!
# Passes of a monitor

A monitor that is stopped at an instant breaks off the pass under way and its delivery then, and a
pass that has come to its own time limit is delivered nonetheless. A pass that breaks down delivers
nothing.
-/

namespace ChainAudit

open ChainAudit.Clock ChainAudit.Limiter ChainAudit.Notice ChainAudit.Schedule ChainAudit.Store

/-- The signal of a monitor that is stopped at an instant. -/
def stoppedAt (stop : Instant) : Signal := ⟨.cancelled stop, none⟩

namespace Monitor

variable [Quantity α]
variable (m : Monitor ω ν) (stop : Instant) (now : Moment) (start : Instant)
variable (s : MonitorState α ω ν)

/-- What the auditor of a monitor comes to in a pass. -/
def audited : Auditor.PassEnd α ω :=
  m.auditor.run m.projects (stoppedAt stop) now s.tracker start s.limited

/-- The delivery of the summary of a pass as it would be if nothing broke it off: its result, when
it is over, and what it leaves of the notifier. There is none without a report or a notifier. -/
def undisturbed? : Option (Except DeliveryError Receipt × Instant × ν) :=
  (m.audited stop now start s).report.bind fun report =>
    m.notifier.map fun (notifier, policy) =>
      (deliver notifier policy report.summary).run (m.audited stop now start s).endsAt s.notifier

/-- What a pass of a monitor that is stopped at an instant comes to. -/
structure Passed (entry : PassEntry) (after : MonitorState α ω ν) : Prop where
  startedAt : entry.startedAt = start
  report : entry.outcome.map (·.report) = (m.audited stop now start s).report
  committed : after.tracker = (m.audited stop now start s).tracker
  limited : after.limited = (m.audited stop now start s).state
  bounds : start ≤ entry.endedAt ∧ entry.endedAt ≤ max start stop
  tried : ∀ n ∈ m.notifier, n.1.Tried stop s.notifier after.notifier
  broken : entry.outcome = none → after.tracker = s.tracker ∧ after.notifier = s.notifier
  undelivered : ∀ o ∈ entry.outcome, o.delivery = none ↔
    m.notifier = none ∨ ∃ d ∈ m.undisturbed? stop now start s, stop ≤ d.2.1
  delivered : ∀ o ∈ entry.outcome, ∀ d ∈ m.undisturbed? stop now start s, d.2.1 < stop →
    o.delivery = some d.1 ∧ entry.endedAt = d.2.1 ∧ after.notifier = d.2.2

theorem undisturbed?_eq {m : Monitor ω ν} {stop : Instant} {now : Moment} {start : Instant}
    {s : MonitorState α ω ν} {report : Report} {n : Notifier ν} {policy : Policy}
    (hreport : (m.audited stop now start s).report = some report)
    (hnotifier : m.notifier = some (n, policy)) :
    m.undisturbed? stop now start s = some
      ((deliver n policy report.summary).run (m.audited stop now start s).endsAt s.notifier) := by
  rw [undisturbed?, hreport, hnotifier]
  rfl

theorem audited_endsAt :
    start ≤ (m.audited stop now start s).endsAt ∧
      (m.audited stop now start s).endsAt ≤ max start stop := by
  obtain ⟨fires, hfires, hle⟩ := Signal.fires?_of_cancelled
    (show (stoppedAt stop).cancelledAt? = some stop from rfl)
    (start + m.auditor.runTimeout.nanos)
  obtain ⟨hlater, hbound⟩ := m.auditor.run_endsAt m.projects (stoppedAt stop) now s.tracker start
    s.limited hfires
  refine ⟨hlater, Nat.le_trans hbound ?_⟩
  exact Nat.max_le.mpr ⟨Nat.le_max_left _ _, Nat.le_trans hle (Nat.le_max_right _ _)⟩

section Broken

variable {m stop now start s}

theorem pass_broken (h : (m.audited stop now start s).report = none) :
    m.pass (stoppedAt stop) now start s =
      (⟨start, (m.audited stop now start s).endsAt, none⟩,
        ⟨(m.audited stop now start s).tracker, (m.audited stop now start s).state, s.notifier⟩) := by
  unfold audited at h ⊢
  simp only [pass, h]

theorem passed_broken (h : (m.audited stop now start s).report = none) :
    m.Passed stop now start s (m.pass (stoppedAt stop) now start s).1
      (m.pass (stoppedAt stop) now start s).2 := by
  have htracker : (m.audited stop now start s).tracker = s.tracker :=
    Auditor.run_tracker_of_none h
  rw [pass_broken h]
  exact ⟨rfl, h.symm, rfl, rfl, m.audited_endsAt stop now start s, fun _ _ => .start,
    fun _ => ⟨htracker, rfl⟩, (fun _ ho => nomatch ho), (fun _ ho => nomatch ho)⟩

end Broken

section Undelivered

variable {m stop now start s} {report : Report}

theorem pass_undelivered (hreport : (m.audited stop now start s).report = some report)
    (h : m.notifier = none ∨ stop ≤ (m.audited stop now start s).endsAt) :
    m.pass (stoppedAt stop) now start s =
      (⟨start, (m.audited stop now start s).endsAt, some ⟨report, none⟩⟩,
        ⟨(m.audited stop now start s).tracker, (m.audited stop now start s).state, s.notifier⟩) := by
  unfold audited at hreport h ⊢
  cases hnotifier : m.notifier with
  | none => simp only [pass, hreport, hnotifier]
  | some n =>
    have hstopped := h.resolve_left (by simp [hnotifier])
    simp only [pass, hreport, hnotifier]
    exact if_pos (decide_eq_true hstopped)

theorem passed_undelivered (hreport : (m.audited stop now start s).report = some report)
    (h : m.notifier = none ∨ stop ≤ (m.audited stop now start s).endsAt) :
    m.Passed stop now start s (m.pass (stoppedAt stop) now start s).1
      (m.pass (stoppedAt stop) now start s).2 := by
  have hlate : ∀ d ∈ m.undisturbed? stop now start s, stop ≤ d.2.1 := by
    intro d hd
    rw [undisturbed?, hreport, Option.bind_some] at hd
    obtain ⟨n, hn, rfl⟩ := Option.map_eq_some_iff.mp hd
    have hstopped : stop ≤ (m.audited stop now start s).endsAt := h.resolve_left (by simp [hn])
    exact Nat.le_trans hstopped (Activity.le_run _ _ _)
  rw [pass_undelivered hreport h]
  refine ⟨rfl, hreport.symm, rfl, rfl, m.audited_endsAt stop now start s, fun _ _ => .start,
    (fun hnone => nomatch hnone), ?_, ?_⟩
  · intro o ho
    obtain rfl := Option.some.inj ho
    refine iff_of_true rfl ?_
    cases hnotifier : m.notifier with
    | none => exact .inl rfl
    | some n =>
      have hd := undisturbed?_eq hreport hnotifier
      exact .inr ⟨_, hd, hlate _ hd⟩
  · intro o _ d hd hbefore
    exact absurd (hlate d hd) (Nat.not_le_of_lt hbefore)

end Undelivered

section Delivering

variable {m stop now start s} {report : Report} {n : Notifier ν} {policy : Policy}

/-- The delivery of the summary of a pass, broken off when the monitor is stopped. -/
private def deliveryRun (m : Monitor ω ν) (stop : Instant) (now : Moment) (start : Instant)
    (s : MonitorState α ω ν) (report : Report) (n : Notifier ν) (policy : Policy) :
    Option (Except DeliveryError Receipt) × Instant × ν :=
  ((deliver n policy report.summary).breakOff (some stop)).run (m.audited stop now start s).endsAt
    s.notifier

theorem pass_delivering (hreport : (m.audited stop now start s).report = some report)
    (hnotifier : m.notifier = some (n, policy))
    (hbefore : (m.audited stop now start s).endsAt < stop) :
    m.pass (stoppedAt stop) now start s =
      (⟨start, (m.deliveryRun stop now start s report n policy).2.1,
          some ⟨report, (m.deliveryRun stop now start s report n policy).1⟩⟩,
        ⟨(m.audited stop now start s).tracker, (m.audited stop now start s).state,
          (m.deliveryRun stop now start s report n policy).2.2⟩) := by
  unfold deliveryRun audited at *
  simp only [pass, hreport, hnotifier]
  exact if_neg fun hfired => Nat.not_le_of_lt hbefore (of_decide_eq_true hfired)

theorem passed_delivering (hreport : (m.audited stop now start s).report = some report)
    (hnotifier : m.notifier = some (n, policy))
    (hbefore : (m.audited stop now start s).endsAt < stop) :
    m.Passed stop now start s (m.pass (stoppedAt stop) now start s).1
      (m.pass (stoppedAt stop) now start s).2 := by
  have hd := undisturbed?_eq hreport hnotifier
  have hnotified : m.notifier ≠ none := by simp [hnotifier]
  obtain ⟨hlater, _⟩ := m.audited_endsAt stop now start s
  have htried : ∀ k ∈ m.notifier, k.1.Tried stop s.notifier
      (m.deliveryRun stop now start s report n policy).2.2 := by
    intro k hk
    obtain rfl := Option.some.inj (hnotifier.symm.trans hk)
    exact deliver_tried n policy _ stop _ s.notifier
  rw [pass_delivering hreport hnotifier hbefore]
  -- the delivery is over before the stop, or it is broken off by it
  rcases Nat.lt_or_ge ((deliver n policy report.summary).run
    (m.audited stop now start s).endsAt s.notifier).2.1 stop with hover | hcut
  · have hrun : m.deliveryRun stop now start s report n policy = _ :=
      Activity.run_breakOff_before hover
    refine ⟨rfl, hreport.symm, rfl, rfl, ?_, htried, (fun hnone => nomatch hnone), ?_, ?_⟩
    · rw [hrun]
      exact ⟨Nat.le_trans hlater (Activity.le_run _ _ _),
        Nat.le_trans (Nat.le_of_lt hover) (Nat.le_max_right _ _)⟩
    · intro o ho
      obtain rfl := Option.some.inj ho
      rw [hrun]
      refine iff_of_false (by simp) ?_
      rintro (hnone | ⟨d, hmem, hlate⟩)
      · exact hnotified hnone
      · obtain rfl := Option.some.inj (hd.symm.trans hmem)
        exact Nat.not_le_of_lt hover hlate
    · intro o ho d hmem _
      obtain rfl := Option.some.inj ho
      obtain rfl := Option.some.inj (hd.symm.trans hmem)
      rw [hrun]
      exact ⟨rfl, rfl, rfl⟩
  · obtain ⟨hnone, hends⟩ : (m.deliveryRun stop now start s report n policy).1 = none ∧
        (m.deliveryRun stop now start s report n policy).2.1 = _ := Activity.run_breakOff_after hcut
    refine ⟨rfl, hreport.symm, rfl, rfl, ?_, htried, (fun hnone => nomatch hnone), ?_, ?_⟩
    · rw [hends, Nat.max_eq_right (Nat.le_of_lt hbefore)]
      exact ⟨Nat.le_trans hlater (Nat.le_of_lt hbefore), Nat.le_max_right _ _⟩
    · intro o ho
      obtain rfl := Option.some.inj ho
      exact iff_of_true hnone (.inr ⟨_, hd, hcut⟩)
    · intro o _ d hmem hover
      obtain rfl := Option.some.inj (hd.symm.trans hmem)
      exact absurd hcut (Nat.not_le_of_lt hover)

end Delivering

theorem pass_passed :
    m.Passed stop now start s (m.pass (stoppedAt stop) now start s).1
      (m.pass (stoppedAt stop) now start s).2 := by
  cases hreport : (m.audited stop now start s).report with
  | none => exact passed_broken hreport
  | some report =>
    cases hnotifier : m.notifier with
    | none => exact passed_undelivered hreport (.inl hnotifier)
    | some n =>
      rcases Nat.lt_or_ge (m.audited stop now start s).endsAt stop with hbefore | hstopped
      · exact passed_delivering hreport hnotifier hbefore
      · exact passed_undelivered hreport (.inr hstopped)

end Monitor

end ChainAudit
