import ChainAudit.Notice.Delivery
import ChainAudit.Proofs.Schedule.Alone
import ChainAudit.Proofs.Schedule.Ensures
import Mathlib.Algebra.BigOperators.Intervals

/-!
# Deliveries that follow a script

If the attempts of a notifier are known in advance, so is every delivery: it makes attempts up to
the first one that is not to be repeated, or as many as it may, and takes as long as these attempts
and the waits between them. In whole milliseconds that is exact; elsewhere an answer comes, and a
wait is over, within two milliseconds after it is due.
-/

namespace ChainAudit.Notice

open ChainAudit.Clock ChainAudit.Schedule ChainAudit.Schedule.Activity
open scoped BigOperators

/-- How many attempts may be made; it is one at least. -/
def Policy.most (policy : Policy) : Nat := max policy.maxAttempts 1

theorem Backoff.delay_whole (b : Backoff) (i : Nat) : (b.delay i).nanos % 1000000 = 0 := by
  cases b with
  | none => rfl
  | fixed ms => exact Nat.mul_mod_left ms 1000000
  | exponential initial limit factor => exact Nat.mul_mod_left _ 1000000

/-- The attempts of a notifier, counted from one, and the time that each of them takes. -/
abbrev Script := Nat → Delayed Attempt

namespace Script

def inMillis (tries : Nat → Attempt × Nat) : Script :=
  fun i => ⟨(tries i).1, some (.ofMillis (tries i).2)⟩

/-- The notifier that follows a script. Its state is the number of attempts it has made. -/
def notifier (script : Script) : Notifier Nat where
  attempt _ _ made := (script (made + 1), made + 1)

def decision (script : Script) (i : Nat) : Decision := (script i).value.decision

def detail (script : Script) (i : Nat) : String := (script i).value.detail

/-- The time that an attempt takes by the script. -/
def duration (script : Script) (i : Nat) : Nat := ((script i).delay.getD ⟨0⟩).nanos

/-- The decisions of the first attempts. -/
def decisions (script : Script) (k : Nat) : List Decision := (List.range' 1 k).map script.decision

def Undecided (script : Script) (k : Nat) : Prop :=
  ∀ i, 1 ≤ i → i ≤ k → (script.decision i).isRetry = true

def FirstFinal (script : Script) (k : Nat) : Prop :=
  1 ≤ k ∧ (script.decision k).isRetry = false ∧ script.Undecided (k - 1)

/-- A wait follows an attempt that is to be repeated later, unless it was the last one. -/
def Pauses (script : Script) (policy : Policy) (i : Nat) : Prop :=
  script.decision i = .retryLater ∧ i < policy.most

instance (script : Script) (policy : Policy) : DecidablePred (script.Pauses policy) :=
  fun i => inferInstanceAs (Decidable (script.decision i = .retryLater ∧ i < policy.most))

/-- The time of the first attempts of a delivery and of the waits after them, if the answer to an
attempt and the end of the wait after it are late by the given times. -/
def elapsed (script : Script) (policy : Policy) (answerLate waitLate : Nat → Nat) (k : Nat) : Nat :=
  ∑ i ∈ Finset.Icc 1 k, (script.duration i + answerLate i) +
    ∑ i ∈ Finset.Icc 1 k with script.Pauses policy i,
      ((policy.backoff.delay i).nanos + waitLate i)

/-- The delivery of a summary follows a script, and its first `k` attempts with the waits after them
take the time `elapsed k`. -/
structure Followed (script : Script) (policy : Policy) (summary : Summary) (start : Instant)
    (elapsed : Nat → Nat) : Prop where
  delivered : ∀ k ≤ policy.most, script.FirstFinal k → script.decision k = .delivered →
    (deliver script.notifier policy summary).run start 0 =
      (.ok ⟨k, script.decisions k⟩, start + elapsed k, k)
  rejected : ∀ k ≤ policy.most, script.FirstFinal k → script.decision k = .giveUp →
    (deliver script.notifier policy summary).run start 0 =
      (.error (.rejected (script.detail k)), start + elapsed k, k)
  exhausted : (∀ k ≤ policy.most, ¬ script.FirstFinal k) →
    (deliver script.notifier policy summary).run start 0 =
      (.error (.exhausted policy.most (script.detail policy.most)), start + elapsed policy.most,
        policy.most)

/-- What a delivery yields that ends with the `k`-th attempt. -/
def result (script : Script) (k : Nat) : Except DeliveryError Receipt :=
  match script.decision k with
  | .delivered => .ok ⟨k, script.decisions k⟩
  | .giveUp => .error (.rejected (script.detail k))
  | .retryNow | .retryLater => .error (.exhausted k (script.detail k))

variable {script : Script} {policy : Policy} {start k : Nat}

theorem decisions_succ (script : Script) (k : Nat) :
    script.decisions (k + 1) = script.decisions k ++ [script.decision (k + 1)] := by
  rw [decisions, List.range'_concat, List.map_append, Nat.one_mul, Nat.add_comm 1 k]
  rfl

@[simp]
theorem length_decisions (script : Script) (k : Nat) : (script.decisions k).length = k := by
  simp [decisions]

theorem Undecided.succ (h : script.Undecided k)
    (hretry : (script.decision (k + 1)).isRetry = true) : script.Undecided (k + 1) := by
  intro i hone hi
  rcases Nat.lt_or_eq_of_le hi with hbefore | rfl
  · exact h i hone (Nat.le_of_lt_succ hbefore)
  · exact hretry

theorem Undecided.before (h : script.Undecided (k + 1)) : script.Undecided k :=
  fun i hone hi => h i hone (Nat.le_succ_of_le hi)

theorem FirstFinal.lt_of_undecided {made : Nat} (hk : script.FirstFinal k)
    (h : script.Undecided made) : made < k := by
  refine Nat.lt_of_not_le fun hle => ?_
  have hretry := h k hk.1 hle
  rw [hk.2.1] at hretry
  cases hretry

theorem undecided_of_not_firstFinal {n : Nat} (h : ∀ k ≤ n, ¬ script.FirstFinal k) :
    script.Undecided n := by
  induction n with
  | zero => exact fun i hone hi => absurd (Nat.le_trans hone hi) (Nat.not_succ_le_zero 0)
  | succ n ih =>
    have hbefore : script.Undecided n := ih fun k hk => h k (Nat.le_succ_of_le hk)
    refine hbefore.succ ?_
    cases hretry : (script.decision (n + 1)).isRetry with
    | true => rfl
    | false => exact absurd ⟨Nat.le_add_left 1 n, hretry, hbefore⟩ (h (n + 1) (Nat.le_refl _))

theorem not_pauses_of_ne (h : script.decision k ≠ .retryLater) : ¬ script.Pauses policy k :=
  fun hpause => h hpause.1

private theorem elapsed_succ (script : Script) (policy : Policy) (answerLate waitLate : Nat → Nat)
    (k : Nat) :
    script.elapsed policy answerLate waitLate (k + 1) =
      script.elapsed policy answerLate waitLate k + (script.duration (k + 1) + answerLate (k + 1)) +
        if script.Pauses policy (k + 1) then
          (policy.backoff.delay (k + 1)).nanos + waitLate (k + 1) else 0 := by
  unfold elapsed
  rw [Finset.sum_filter, Finset.sum_filter, Finset.sum_Icc_succ_top (Nat.le_add_left 1 k),
    Finset.sum_Icc_succ_top (Nat.le_add_left 1 k)]
  omega

section Timers

/-- How late the answer to an attempt is in a delivery that starts at the given instant. It is the
place of that instant within its millisecond that counts, and a delivery keeps it. -/
def answerLate (script : Script) (start : Instant) (i : Nat) : Nat :=
  (script i).comesAt start - (start + script.duration i)

/-- How late the wait after an attempt is over in a delivery that starts at the given instant. -/
def waitLate (policy : Policy) (start : Instant) (i : Nat) : Nat :=
  timerFrom start (start + (policy.backoff.delay i).nanos) -
    (start + (policy.backoff.delay i).nanos)

/-- What the first attempts and the waits after them take in a delivery that starts at the given
instant. -/
def took (script : Script) (policy : Policy) (start : Instant) : Nat → Nat :=
  script.elapsed policy (script.answerLate start) (waitLate policy start)

theorem took_pauses (start : Instant) (h : script.Pauses policy (k + 1)) :
    start + script.took policy start (k + 1) = start + script.took policy start k +
      (script.duration (k + 1) + script.answerLate start (k + 1)) +
        ((policy.backoff.delay (k + 1)).nanos + waitLate policy start (k + 1)) := by
  rw [took, elapsed_succ, if_pos h, Nat.add_assoc start, Nat.add_assoc start]

theorem took_not_pauses (start : Instant) (h : ¬ script.Pauses policy (k + 1)) :
    start + script.took policy start (k + 1) = start + script.took policy start k +
      (script.duration (k + 1) + script.answerLate start (k + 1)) := by
  rw [took, elapsed_succ, if_neg h, Nat.add_zero, ← Nat.add_assoc]

variable {now : Nat}

theorem comesAt_late (script : Script) (i : Nat) (hplace : now % 1000000 = start % 1000000) :
    (script i).comesAt now = now + (script.duration i + script.answerLate start i) := by
  unfold answerLate duration Delayed.comesAt
  cases hdelay : (script i).delay with
  | none => simp
  | some span => exact timerFrom_late hplace span.nanos

theorem timerFrom_waitLate (policy : Policy) (i : Nat) (hplace : now % 1000000 = start % 1000000) :
    timerFrom now (now + (policy.backoff.delay i).nanos) =
      now + ((policy.backoff.delay i).nanos + waitLate policy start i) :=
  timerFrom_late hplace (policy.backoff.delay i).nanos

theorem took_place (script : Script) (policy : Policy) (start k : Nat) :
    (start + script.took policy start k) % 1000000 = start % 1000000 := by
  induction k with
  | zero => rfl
  | succ k ih =>
    have hanswer := Delayed.comesAt_place (start + script.took policy start k) (script (k + 1))
    rw [script.comesAt_late (k + 1) ih, ih] at hanswer
    by_cases hpause : script.Pauses policy (k + 1)
    · have hwait := timerFrom_place (start + script.took policy start k +
        (script.duration (k + 1) + script.answerLate start (k + 1)))
        (start + script.took policy start k +
          (script.duration (k + 1) + script.answerLate start (k + 1)) +
            (policy.backoff.delay (k + 1)).nanos)
      rw [timerFrom_waitLate policy (k + 1) hanswer, hanswer] at hwait
      rw [took_pauses start hpause]
      exact hwait
    · rw [took_not_pauses start hpause]
      exact hanswer

theorem answerLate_lt (script : Script) (start i : Nat) : script.answerLate start i < 2000000 := by
  unfold answerLate duration Delayed.comesAt
  cases (script i).delay with
  | none => simp
  | some span => exact timerFrom_late_lt start span.nanos

theorem waitLate_lt (policy : Policy) (start i : Nat) : waitLate policy start i < 2000000 :=
  timerFrom_late_lt start (policy.backoff.delay i).nanos

theorem answerLate_whole {script : Script} {i : Nat} (hstart : start % 1000000 = 0)
    (hwhole : script.duration i % 1000000 = 0) : script.answerLate start i = 0 := by
  unfold duration at hwhole
  unfold answerLate duration Delayed.comesAt
  cases hdelay : (script i).delay with
  | none => simp
  | some span =>
    rw [hdelay, Option.getD_some] at hwhole
    exact timerFrom_late_whole hstart hwhole

theorem waitLate_whole (policy : Policy) (hstart : start % 1000000 = 0) (i : Nat) :
    waitLate policy start i = 0 :=
  timerFrom_late_whole hstart (policy.backoff.delay_whole i)

end Timers

end Script

section Deliveries

variable {script : Script} {policy : Policy} {summary : Summary} {start : Instant}

/-- What a delivery does after some attempts, with some of them left. -/
def onward (script : Script) (policy : Policy) (summary : Summary) (made left : Nat) :
    Activity Nat (Except DeliveryError Receipt) :=
  attemptUpTo script.notifier policy summary left (script.decisions made) (script.detail made)

def underWay (script : Script) (policy : Policy) (summary : Summary) (start : Instant)
    (made left : Nat) : Except DeliveryError Receipt × Instant × Nat :=
  (onward script policy summary made left).run (start + script.took policy start made) made

theorem underWay_attempt (script : Script) (policy : Policy) (summary : Summary)
    (start : Instant) (made left : Nat) :
    underWay script policy summary start made (left + 1) =
      (match script.decision (made + 1) with
        | .delivered => pure (.ok ⟨made + 1, script.decisions (made + 1)⟩)
        | .giveUp => pure (.error (.rejected (script.detail (made + 1))))
        | .retryNow => onward script policy summary (made + 1) left
        | .retryLater =>
            if left = 0 then onward script policy summary (made + 1) left
            else do
              let now ← Activity.clock
              Activity.sleepUntil (now + (policy.backoff.delay (made + 1)).nanos)
              onward script policy summary (made + 1) left :
          Activity Nat (Except DeliveryError Receipt)).run
        (start + script.took policy start made +
          (script.duration (made + 1) + script.answerLate start (made + 1))) (made + 1) := by
  have hanswer : (script.notifier.attempt summary (start + script.took policy start made)
        made).1.comesAt (start + script.took policy start made) =
      start + script.took policy start made +
        (script.duration (made + 1) + script.answerLate start (made + 1)) :=
    script.comesAt_late (made + 1) (script.took_place policy start made)
  have hvalue : (script.notifier.attempt summary (start + script.took policy start made)
      made).1.value = ⟨script.decision (made + 1), script.detail (made + 1)⟩ := rfl
  unfold underWay onward
  rw [attemptUpTo, run_bind, run_await, hanswer, hvalue]
  dsimp only
  rw [← Script.decisions_succ, Script.length_decisions]
  rfl

theorem underWay_retry {made left : Nat} (hmost : made + (left + 1) = policy.most)
    (hretry : (script.decision (made + 1)).isRetry = true) :
    underWay script policy summary start made (left + 1) =
      underWay script policy summary start (made + 1) left := by
  rw [underWay_attempt]
  cases hd : script.decision (made + 1) with
  | delivered => rw [hd] at hretry; cases hretry
  | giveUp => rw [hd] at hretry; cases hretry
  | retryNow =>
    have hpause : ¬ script.Pauses policy (made + 1) :=
      Script.not_pauses_of_ne (by rw [hd]; nofun)
    dsimp only
    rw [underWay, Script.took_not_pauses start hpause]
  | retryLater =>
    dsimp only
    split
    · rename_i hlast
      have hpause : ¬ script.Pauses policy (made + 1) := fun h => by have := h.2; omega
      rw [underWay, Script.took_not_pauses start hpause]
    · rename_i hmore
      have hpause : script.Pauses policy (made + 1) := ⟨hd, by omega⟩
      have hplace : (start + script.took policy start made +
          (script.duration (made + 1) + script.answerLate start (made + 1))) % 1000000 =
          start % 1000000 := by
        rw [← script.comesAt_late (made + 1) (script.took_place policy start made)]
        exact (Delayed.comesAt_place _ _).trans (script.took_place policy start made)
      rw [underWay, Script.took_pauses start hpause, run_bind, run_clock, run_bind,
        run_sleepUntil, Script.timerFrom_waitLate policy (made + 1) hplace]

theorem underWay_undecided {j : Nat} (hmost : j ≤ policy.most) (h : script.Undecided j) :
    underWay script policy summary start 0 policy.most =
      underWay script policy summary start j (policy.most - j) := by
  induction j with
  | zero => rfl
  | succ j ih =>
    have hleft : policy.most - j = policy.most - (j + 1) + 1 := by omega
    rw [ih (Nat.le_of_succ_le hmost) h.before, hleft]
    exact underWay_retry (by omega) (h (j + 1) (Nat.le_add_left 1 j) (Nat.le_refl _))

theorem underWay_final {made left : Nat} (hfinal : (script.decision (made + 1)).isRetry = false) :
    underWay script policy summary start made (left + 1) =
      (script.result (made + 1), start + script.took policy start (made + 1), made + 1) := by
  have hpause : ¬ script.Pauses policy (made + 1) :=
    Script.not_pauses_of_ne fun hlater => by rw [hlater] at hfinal; cases hfinal
  rw [underWay_attempt, Script.took_not_pauses start hpause, Script.result]
  cases hd : script.decision (made + 1) with
  | delivered => rfl
  | giveUp => rfl
  | retryNow => rw [hd] at hfinal; cases hfinal
  | retryLater => rw [hd] at hfinal; cases hfinal

/-- At the start no attempt has been made, and what the last one was like does not matter. -/
theorem run_deliver (script : Script) (policy : Policy) (summary : Summary) (start : Instant) :
    (deliver script.notifier policy summary).run start 0 =
      underWay script policy summary start 0 policy.most := by
  obtain ⟨left, hleft⟩ : ∃ left, policy.most = left + 1 :=
    ⟨policy.most - 1, (Nat.sub_add_cancel (Nat.le_max_right policy.maxAttempts 1)).symm⟩
  have hmax : max policy.maxAttempts 1 = left + 1 := hleft
  rw [deliver, underWay, onward, hmax, hleft, attemptUpTo, attemptUpTo]
  rfl

theorem run_deliver_firstFinal {k : Nat} (hmost : k ≤ policy.most) (hk : script.FirstFinal k) :
    (deliver script.notifier policy summary).run start 0 =
      (script.result k, start + script.took policy start k, k) := by
  obtain ⟨made, rfl⟩ : ∃ made, k = made + 1 := ⟨k - 1, (Nat.sub_add_cancel hk.1).symm⟩
  have hleft : policy.most - made = policy.most - (made + 1) + 1 := by omega
  rw [run_deliver, underWay_undecided (Nat.le_of_succ_le hmost) hk.2.2, hleft]
  exact underWay_final hk.2.1

theorem run_deliver_undecided (h : script.Undecided policy.most) :
    (deliver script.notifier policy summary).run start 0 =
      (.error (.exhausted policy.most (script.detail policy.most)),
        start + script.took policy start policy.most, policy.most) := by
  rw [run_deliver, underWay_undecided (Nat.le_refl _) h, Nat.sub_self, underWay, onward,
    attemptUpTo, run_pure, Script.length_decisions]

/-- A delivery follows its script, with the answers and the ends of waits as late as they are. -/
theorem followed_took (script : Script) (policy : Policy) (summary : Summary) (start : Instant) :
    script.Followed policy summary start (script.took policy start) where
  delivered := fun k hmost hk hdelivered => by
    rw [run_deliver_firstFinal hmost hk, Script.result, hdelivered]
  rejected := fun k hmost hk hgiven => by
    rw [run_deliver_firstFinal hmost hk, Script.result, hgiven]
  exhausted := fun hnone => run_deliver_undecided (Script.undecided_of_not_firstFinal hnone)

/-- In whole milliseconds nothing is late. -/
theorem took_inMillis (tries : Nat → Attempt × Nat) (policy : Policy) (ms : Nat) :
    (Script.inMillis tries).took policy (ms * 1000000) = fun k =>
      ∑ i ∈ Finset.Icc 1 k, (tries i).2 * 1000000 +
        ∑ i ∈ Finset.Icc 1 k with (tries i).1.decision = .retryLater ∧ i < policy.most,
          (policy.backoff.delay i).nanos := by
  have hstart : ms * 1000000 % 1000000 = 0 := Nat.mul_mod_left ms 1000000
  have hanswer : ∀ i, (Script.inMillis tries).answerLate (ms * 1000000) i = 0 :=
    fun i => Script.answerLate_whole hstart (Nat.mul_mod_left (tries i).2 1000000)
  funext k
  unfold Script.took Script.elapsed
  simp only [hanswer, Script.waitLate_whole policy hstart, Nat.add_zero]
  rfl

end Deliveries

end ChainAudit.Notice
