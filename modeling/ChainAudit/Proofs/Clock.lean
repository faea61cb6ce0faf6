import ChainAudit.Clock.Span

/-!
# Timers and sleeps

A timer goes off at a whole millisecond. A sleep until then lasts a whole number of milliseconds, so
who sleeps keeps its place within a millisecond and may wake some time after the timer. From one
place sleeps end in the order in which their timers are set.
-/

namespace ChainAudit.Clock

section Timers

variable {t set set' : Nat}

theorem timer_whole (set : Instant) : timer set % 1000000 = 0 := by
  unfold timer Instant
  exact Nat.mul_mod_left _ _

theorem le_timer (set : Nat) : set ≤ timer set := by
  unfold timer Instant
  omega

theorem timer_of_whole (h : t % 1000000 = 0) : timer t = t := by
  unfold timer Instant
  omega

theorem max_whole (ht : t % 1000000 = 0) (hset : set % 1000000 = 0) :
    max t set % 1000000 = 0 := by
  omega

theorem timer_mono (h : set ≤ set') : timer set ≤ timer set' := by
  unfold timer Instant
  omega

end Timers

section Sleeps

variable {now now' set set' span : Nat}

theorem le_timerFrom (now set : Nat) : now ≤ timerFrom now set := Nat.le_add_right _ _

theorem timer_le_timerFrom (now set : Nat) : timer set ≤ timerFrom now set := by
  unfold timerFrom Instant
  omega

theorem set_le_timerFrom (now set : Nat) : set ≤ timerFrom now set :=
  Nat.le_trans (le_timer set) (timer_le_timerFrom now set)

theorem timerFrom_place (now set : Nat) : timerFrom now set % 1000000 = now % 1000000 := by
  unfold timerFrom Instant
  omega

theorem timerFrom_mono (now : Nat) (h : set ≤ set') : timerFrom now set ≤ timerFrom now set' := by
  unfold timerFrom timer Instant at *
  omega

theorem timerFrom_whole (h : now % 1000000 = 0) (set : Nat) :
    timerFrom now set = max now (timer set) := by
  unfold timerFrom timer Instant at *
  omega

/-- Who wakes up before a sleep would be over that began with its own may go on sleeping. -/
theorem timerFrom_later (hlater : now ≤ now') (hplace : now' % 1000000 = now % 1000000)
    (h : now' ≤ timerFrom now set) : timerFrom now' set = timerFrom now set := by
  unfold timerFrom timer Instant at *
  omega

theorem timerFrom_late (hplace : now' % 1000000 = now % 1000000) (span : Nat) :
    timerFrom now' (now' + span) =
      now' + (span + (timerFrom now (now + span) - (now + span))) := by
  unfold timerFrom timer Instant at *
  omega

theorem timerFrom_late_lt (now span : Nat) :
    timerFrom now (now + span) - (now + span) < 2000000 := by
  unfold timerFrom timer Instant
  omega

theorem timerFrom_late_whole (h : now % 1000000 = 0) (hspan : span % 1000000 = 0) :
    timerFrom now (now + span) - (now + span) = 0 := by
  unfold timerFrom timer Instant
  omega

theorem timerFrom_add_le_iff (hplace : now' % 1000000 = now % 1000000) (span limit : Nat) :
    timerFrom now' (now' + span) ≤ timerFrom now' (now' + limit) ↔
      timerFrom now (now + span) ≤ timerFrom now (now + limit) := by
  unfold timerFrom timer Instant at *
  omega

end Sleeps

/-- The whole millisecond that has come last. -/
def lastTick (now : Instant) : Instant := now / 1000000 * 1000000

theorem lastTick_le (now : Instant) : lastTick now ≤ now := Nat.div_mul_le_self now 1000000

/-- The end of a sleep shows when its timer has gone off. -/
theorem lastTick_timerFrom {now set : Nat} (h : now < set) :
    lastTick (timerFrom now set) = timer set := by
  unfold lastTick timerFrom timer Instant at *
  omega

end ChainAudit.Clock
