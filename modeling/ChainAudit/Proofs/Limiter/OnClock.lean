import ChainAudit.Proofs.Limiter.Callers
import ChainAudit.Proofs.Schedule.Yields

/-!
# Limiters whose waits are on the clock

A call for a token breaks down when the wait for the next one is beyond the clock. That depends on
what has become of the limiter by then, so it is said of all that a limiter may become. A limiter
that lets everything pass stays as it is, and calls on it are granted at once.
-/

namespace ChainAudit.Limiter

open ChainAudit.Clock ChainAudit.Schedule ChainAudit.Schedule.Activity

variable [Quantity α]

/-- The limiters that one may become as it is asked for tokens. -/
inductive Reaches (l : Limiter α) : Limiter α → Prop
  | start : Reaches l l
  | ask {l' : Limiter α} (deadline now : Instant) (h : Reaches l l') :
      Reaches l (l'.ask deadline now).2

/-- No wait for a token is ever beyond the clock, so no call for one breaks down. -/
def OnClock (l : Limiter α) : Prop :=
  ∀ l', l.Reaches l' → ∀ deadline now, (l'.ask deadline now).1 ≠ .ends .lost

variable {l l' : Limiter α} {deadline now : Instant}

theorem Reaches.eq_unlimited (h : l.Reaches l') (hl : l = .unlimited) : l' = .unlimited := by
  induction h with
  | start => exact hl
  | ask deadline now _ ih =>
    rw [ih]
    rfl

theorem onClock_unlimited (hl : l = .unlimited) : l.OnClock := by
  intro l' h deadline now
  rw [h.eq_unlimited hl]
  nofun

theorem acquire_keeps (l : Limiter α) (deadline : Instant) :
    (acquire deadline).Keeps l.Reaches := by
  have hask : ∀ times, (askUpTo deadline times).Keeps l.Reaches := by
    intro times
    induction times with
    | zero => trivial
    | succ times ih =>
      have hreply : (access fun now (l : Limiter α) => l.ask deadline now).Keeps l.Reaches :=
        yields_access fun now l' h => ⟨h.ask deadline now, trivial⟩
      refine keeps_bind hreply fun reply => ?_
      cases reply with
      | ends r => trivial
      | wait due => exact keeps_bind (yields_sleepUntil due) fun _ => ih
  exact keeps_bind yields_clock fun _ => hask _

/-- What a call comes to that was made at an instant. -/
structure Acquired (l : Limiter α) (called : Instant) (r : Result) (now : Instant) : Prop where
  place : now % 1000000 = called % 1000000
  atOnce : l = .unlimited → r = .granted ∧ now = called
  lost : r = .lost → ¬ l.OnClock

private theorem askUpTo_acquired (times : Nat) (hl : l = .unlimited → 0 < times) (now : Instant) :
    (askUpTo deadline times).Ensures (Ticking none) l.Reaches (Acquired l now) now := by
  induction times generalizing now with
  | zero => exact ensures_pure ⟨rfl, fun h => absurd (hl h) (Nat.lt_irrefl 0), nofun⟩
  | succ times ih =>
    refine ensures_bind (ensures_access fun l' hreached => ⟨hreached.ask deadline now, ?_⟩)
    have hgranted : l = .unlimited → (l'.ask deadline now).1 = .ends .granted := by
      intro h
      rw [hreached.eq_unlimited h]
      rfl
    cases hreply : (l'.ask deadline now).1 with
    | ends r =>
      refine ensures_pure ⟨rfl, fun h => ⟨?_, rfl⟩, ?_⟩
      · exact Reply.ends.inj (hreply.symm.trans (hgranted h))
      · rintro rfl hclock
        exact hclock l' hreached deadline now hreply
    | wait due =>
      have hlimited : l ≠ .unlimited := by
        intro h
        cases hreply.symm.trans (hgranted h)
      refine ensures_bind (ensures_sleepUntil (ensures_mono (ih (absurd · hlimited) _) ?_))
      intro r t hr
      exact ⟨hr.place.trans (timerFrom_place now due), fun h => absurd h hlimited, hr.lost⟩

theorem acquire_ensures (l : Limiter α) (deadline now : Instant) :
    (acquire deadline).Ensures (Ticking none) l.Reaches (Acquired l now) now :=
  ensures_bind (ensures_clock (askUpTo_acquired _ (fun _ => Nat.succ_pos _) now))

end ChainAudit.Limiter
