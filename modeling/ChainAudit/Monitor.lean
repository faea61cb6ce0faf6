import ChainAudit.Pass.Run

/-!
# Monitors

A monitor runs a pass at each tick of an interval and delivers the summary of each. Passes do not
overlap. The first tick is at the start; a tick that is due during a pass follows right after it,
and if it is more than a few milliseconds late, the ticks after it are counted from there. A
monitor that is stopped breaks off what it is about, and does nothing more. If a pass breaks down,
so does the monitor.
-/

namespace ChainAudit
open ChainAudit.Clock ChainAudit.Limiter ChainAudit.Notice ChainAudit.Schedule ChainAudit.Store

/-- A monitor of projects; summaries are delivered if it has a notifier. -/
structure Monitor (ω ν : Type) where
  auditor : Auditor ω
  projects : List String
  interval : Span
  notifier : Option (Notifier ν × Policy)

/-- A pass and the delivery of its summary: none if there is no notifier or if the monitor was
stopped before the delivery was over. -/
structure PassResult where
  report : Report
  delivery : Option (Except DeliveryError Receipt)

/-- What a monitor works on: what is remembered, the limiter and what lies behind it, and the
notifier. -/
structure MonitorState (α ω ν : Type) where
  tracker : Tracker
  limited : Limited α ω
  notifier : ν

/-- A pass in the log of a monitor; it has no outcome if it broke down. -/
structure PassEntry where
  startedAt : Instant
  endedAt : Instant
  outcome : Option PassResult

variable [Quantity α]

namespace Monitor

/-- Runs one pass from the instant `start` on and delivers its summary. -/
def pass (m : Monitor ω ν) (signal : Signal) (now : Moment) (start : Instant)
    (s : MonitorState α ω ν) : PassEntry × MonitorState α ω ν :=
  let ended := m.auditor.run m.projects signal now s.tracker start s.limited
  let s := { s with tracker := ended.tracker, limited := ended.state }
  match ended.report, m.notifier with
  | none, _ => (⟨start, ended.endsAt, none⟩, s)
  | some report, none => (⟨start, ended.endsAt, some ⟨report, none⟩⟩, s)
  | some report, some (notifier, policy) =>
      if signal.isFired ended.endsAt then (⟨start, ended.endsAt, some ⟨report, none⟩⟩, s)
      else
        let (delivery, endsAt, n) :=
          ((deliver notifier policy report.summary).breakOff signal.fires?).run ended.endsAt
            s.notifier
        (⟨start, endsAt, some ⟨report, delivery⟩⟩, { s with notifier := n })

/-- How late a tick may be without moving the ticks after it. -/
def tolerance : Span := .ofMillis 5

/-- The instant of the tick after one that was due at `due` and came at `came`. -/
def nextTick (interval : Span) (due came : Instant) : Instant :=
  if due + tolerance.nanos < came then came + interval.nanos else due + interval.nanos

/-- The span between ticks, at least a millisecond. -/
def period (m : Monitor ω ν) : Span := ⟨max m.interval.nanos (Span.ofMillis 1).nanos⟩

/-- Runs passes until the instant `stop`, at most `ticks` of them; the next tick is due at `due`. -/
def passesUntil (m : Monitor ω ν) (stop : Instant) (wall : Instant → Moment) :
    (ticks : Nat) → (due now : Instant) → MonitorState α ω ν → List PassEntry × MonitorState α ω ν
  | 0, _, _, s => ([], s)
  | ticks + 1, due, now, s =>
      let came := timerFrom now due
      if stop ≤ came then ([], s)
      else
        let passed := m.pass ⟨.cancelled stop, none⟩ (wall came) came s
        if passed.1.outcome.isNone then ([passed.1], passed.2)
        else
          let later :=
            passesUntil m stop wall ticks (nextTick m.period due came) passed.1.endedAt passed.2
          (passed.1 :: later.1, later.2)

/-- Runs a monitor from the instant `start` until the instant `stop`. Every tick is due at
least a millisecond later than the one before it and before the stop, so there are ticks enough. -/
def run (m : Monitor ω ν) (start stop : Instant) (wall : Instant → Moment)
    (s : MonitorState α ω ν) : List PassEntry × MonitorState α ω ν :=
  m.passesUntil stop wall ((stop - start) / 1000000 + 1) start start s

/-- The outcomes of the passes of a log that are over before an instant. -/
def outcomesBefore (instant : Instant) (log : List PassEntry) : List PassResult :=
  (log.filter (·.endedAt < instant)).filterMap (·.outcome)

/-- Whether a monitor with a log is still at work at an instant if it is not stopped by then. -/
def isAtWork (instant : Instant) (log : List PassEntry) : Bool :=
  log.all fun entry => entry.outcome.isSome || instant ≤ entry.endedAt

end Monitor

end ChainAudit
