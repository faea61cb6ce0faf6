import ChainAudit.Proofs.Clock
import ChainAudit.Schedule.Activity

/-!
# Activities that run alone

What an activity yields, when it ends and what state it leaves if nobody else acts on the state.
There is one equation for each construction that activities are put together with.
-/

namespace ChainAudit.Schedule

open ChainAudit.Clock

theorem Delayed.le_comesAt (now : Instant) (answer : Delayed α) : now ≤ answer.comesAt now := by
  unfold comesAt
  split
  · exact Nat.le_refl now
  · exact le_timerFrom now _

theorem Delayed.comesAt_place (now : Instant) (answer : Delayed α) :
    answer.comesAt now % 1000000 = now % 1000000 := by
  unfold comesAt
  split
  · rfl
  · exact timerFrom_place now _

namespace Activity

@[simp]
theorem run_pure (r : α) (now : Instant) (s : σ) :
    (pure r : Activity σ α).run now s = (r, now, s) := rfl

@[simp]
theorem run_bind (a : Activity σ α) (f : α → Activity σ β) (now : Instant) (s : σ) :
    (a >>= f).run now s = (f (a.run now s).1).run (a.run now s).2.1 (a.run now s).2.2 := by
  change (a.bind f).run now s = _
  induction a generalizing now s with
  | done r => rfl
  | act change next ih => exact ih now s now (change now s)
  | sleep wake next ih => exact ih (max now wake) s

@[simp]
theorem run_clock (now : Instant) (s : σ) : clock.run now s = (now, now, s) := rfl

@[simp]
theorem run_access (f : Instant → σ → α × σ) (now : Instant) (s : σ) :
    (access f).run now s = ((f now s).1, now, (f now s).2) := rfl

@[simp]
theorem run_sleepUntil (set now : Instant) (s : σ) :
    (sleepUntil set).run now s = ((), timerFrom now set, s) := by
  simp only [sleepUntil, run, Nat.max_eq_right (le_timerFrom now set)]

@[simp]
theorem run_await (ask : Instant → σ → Delayed α × σ) (now : Instant) (s : σ) :
    (await ask).run now s = ((ask now s).1.value, (ask now s).1.comesAt now, (ask now s).2) := by
  simp only [await, run, Nat.max_eq_right (Delayed.le_comesAt now _)]

@[simp]
theorem run_inquire (ask : Instant → σ → Delayed (σ → α) × σ) (now : Instant) (s : σ) :
    (inquire ask).run now s =
      ((ask now s).1.value (ask now s).2, (ask now s).1.comesAt now, (ask now s).2) := by
  simp only [inquire, run, Nat.max_eq_right (Delayed.le_comesAt now _)]

/-- An activity on a part of a state leaves the rest as it is. -/
theorem run_within {get : σ → τ} {set : τ → σ → σ} (hget : ∀ t s, get (set t s) = t)
    (hset : ∀ s, set (get s) s = s) (hlast : ∀ t u s, set t (set u s) = set t s)
    (a : Activity τ α) (now : Instant) (s : σ) :
    (a.within get set).run now s =
      ((a.run now (get s)).1, (a.run now (get s)).2.1, set (a.run now (get s)).2.2 s) := by
  induction a generalizing now s with
  | done r => simp [within, run, hset]
  | act change next ih =>
    have hnext := ih now (get s) now (set (change now (get s)) s)
    rw [hget, hlast] at hnext
    exact hnext
  | sleep wake next ih => exact ih (max now wake) s

theorem le_run (a : Activity σ α) (now : Instant) (s : σ) : now ≤ (a.run now s).2.1 := by
  induction a generalizing now s with
  | done r => exact Nat.le_refl now
  | act change next ih => exact ih now s now (change now s)
  | sleep wake next ih => exact Nat.le_trans (Nat.le_max_left now wake) (ih (max now wake) s)

section BreakingOff

variable {fires now : Instant} {s : σ}

private theorem run_cutAt_before {a : Activity σ α} (h : (a.run now s).2.1 < fires) :
    (a.cutAt fires).run now s = (some (a.run now s).1, (a.run now s).2) := by
  induction a generalizing now s with
  | done r => rfl
  | act change next ih => exact ih now s h
  | sleep wake next ih =>
    have hwake : wake < fires :=
      Nat.lt_of_le_of_lt (Nat.le_trans (Nat.le_max_right now wake) (le_run next _ s)) h
    rw [cutAt, if_neg (Nat.not_le_of_lt hwake)]
    exact ih h

private theorem run_cutAt_after {a : Activity σ α} (hnow : now < fires)
    (h : fires ≤ (a.run now s).2.1) :
    ((a.cutAt fires).run now s).1 = none ∧ ((a.cutAt fires).run now s).2.1 = fires := by
  induction a generalizing now s with
  | done r => exact absurd h (Nat.not_le_of_lt hnow)
  | act change next ih => exact ih now s hnow h
  | sleep wake next ih =>
    rw [cutAt]
    split
    · exact ⟨rfl, Nat.max_eq_right (Nat.le_of_lt hnow)⟩
    · rename_i hwake
      exact ih (Nat.max_lt.mpr ⟨hnow, Nat.lt_of_not_le hwake⟩) h

theorem run_breakOff_none (a : Activity σ α) (now : Instant) (s : σ) :
    (a.breakOff none).run now s = (some (a.run now s).1, (a.run now s).2) :=
  run_bind a (fun r => .done (some r)) now s

theorem run_breakOff_fired (a : Activity σ α) (h : fires ≤ now) :
    (a.breakOff (some fires)).run now s = (none, now, s) := by
  simp only [breakOff, run, if_pos h]

private theorem run_breakOff_unfired (a : Activity σ α) (h : now < fires) :
    (a.breakOff (some fires)).run now s = (a.cutAt fires).run now s := by
  simp only [breakOff, run, if_neg (Nat.not_le_of_lt h)]

theorem run_breakOff_before {a : Activity σ α} (h : (a.run now s).2.1 < fires) :
    (a.breakOff (some fires)).run now s = (some (a.run now s).1, (a.run now s).2) := by
  rw [run_breakOff_unfired a (Nat.lt_of_le_of_lt (le_run a now s) h)]
  exact run_cutAt_before h

theorem run_breakOff_after {a : Activity σ α} (h : fires ≤ (a.run now s).2.1) :
    ((a.breakOff (some fires)).run now s).1 = none ∧
      ((a.breakOff (some fires)).run now s).2.1 = max now fires := by
  rcases Nat.lt_or_ge now fires with hnow | hnow
  · rw [run_breakOff_unfired a hnow, Nat.max_eq_right (Nat.le_of_lt hnow)]
    exact run_cutAt_after hnow h
  · rw [run_breakOff_fired a hnow, Nat.max_eq_left hnow]
    exact ⟨rfl, rfl⟩

/-- Whatever an activity does before an instant keeps `inv`. -/
def KeepsUntil (fires : Instant) (inv : σ → Prop) : Activity σ α → Prop
  | .done _ => True
  | .act change next => ∀ now s,
      (now < fires → inv s → inv (change now s)) ∧ (next now s).KeepsUntil fires inv
  | .sleep _ next => next.KeepsUntil fires inv

theorem keepsUntil_bind {inv : σ → Prop} {a : Activity σ α} {f : α → Activity σ β}
    (ha : a.KeepsUntil fires inv) (hf : ∀ r, (f r).KeepsUntil fires inv) :
    (a >>= f).KeepsUntil fires inv := by
  change (a.bind f).KeepsUntil fires inv
  induction a with
  | done r => exact hf r
  | act change next ih => exact fun now s => ⟨(ha now s).1, ih now s (ha now s).2⟩
  | sleep wake next ih => exact ih ha

theorem run_breakOff_keeps {inv : σ → Prop} {a : Activity σ α} (ha : a.KeepsUntil fires inv)
    (hs : inv s) : inv ((a.breakOff (some fires)).run now s).2.2 := by
  rcases Nat.lt_or_ge now fires with hnow | hnow
  · rw [run_breakOff_unfired a hnow]
    induction a generalizing now s with
    | done r => exact hs
    | act change next ih => exact ih now s (ha now s).2 ((ha now s).1 hnow hs) hnow
    | sleep wake next ih =>
      rw [cutAt]
      split
      · exact hs
      · rename_i hwake
        exact ih ha hs (Nat.max_lt.mpr ⟨hnow, Nat.lt_of_not_le hwake⟩)
  · rw [run_breakOff_fired a hnow]
    exact hs

end BreakingOff

theorem run_limit_inquire (ask : Instant → σ → Delayed (σ → α) × σ) (deadline now : Instant)
    (s : σ) :
    ((inquire ask).limit deadline).run now s =
      if (ask now s).1.comesAt now ≤ timerFrom now deadline then
        (some ((ask now s).1.value (ask now s).2), (ask now s).1.comesAt now, (ask now s).2)
      else (none, timerFrom now deadline, (ask now s).2) := by
  simp only [inquire, limit, run]
  split
  · simp only [run, Nat.max_eq_right (Delayed.le_comesAt now _)]
  · simp only [run, Nat.max_eq_right (le_timerFrom now _)]

end Activity

end ChainAudit.Schedule
