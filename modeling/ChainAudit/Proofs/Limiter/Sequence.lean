import ChainAudit.Proofs.Limiter.Callers
import ChainAudit.Proofs.Limiter.Timely
import ChainAudit.Proofs.Schedule.Alone

/-!
# Calls one after another

A call for a token that runs alone is a chain of requests, and the requests it may still make are
always enough. Where a call fails, all calls after it fail at the same instant.
-/

namespace ChainAudit.Limiter

open ChainAudit.Clock ChainAudit.Schedule

section Calls

variable [Quantity α] {deadline now : Instant} {times times' : Nat}

theorem run_askUpTo (deadline now : Instant) (times : Nat) (b : Bucket α) :
    (askUpTo deadline (times + 1)).run now (.bucket b) =
      match (b.take now).1.reply deadline now with
      | .ends r => (r, now, .bucket (b.take now).2)
      | .wait due => (askUpTo deadline times).run (timerFrom now due) (.bucket (b.take now).2) := by
  rw [askUpTo, Activity.run_bind, Activity.run_access, ask_bucket]
  cases hreply : (b.take now).1.reply deadline now with
  | ends r => rfl
  | wait due => simp only [Activity.run_bind, Activity.run_sleepUntil]

theorem run_askUpTo_enough {b : Bucket α} (h : (deadline - now) / 1000000 < times)
    (h' : (deadline - now) / 1000000 < times') :
    (askUpTo deadline times).run now (.bucket b) =
      (askUpTo deadline times').run now (.bucket b) := by
  induction times generalizing times' now b with
  | zero => cases h
  | succ times ih =>
    cases times' with
    | zero => cases h'
    | succ times' =>
      rw [run_askUpTo, run_askUpTo]
      cases hreply : (b.take now).1.reply deadline now with
      | ends r => rfl
      | wait due =>
        obtain ⟨hdue, hend⟩ := reply_wait hreply
        exact ih (requests_left (Nat.le_refl now) h hdue hend (set_le_timerFrom now due))
          (requests_left (Nat.le_refl now) h' hdue hend (set_le_timerFrom now due))

/-- After a wait a call goes on as if it began then. -/
theorem run_acquire (deadline now : Instant) (b : Bucket α) :
    (acquire deadline).run now (.bucket b) =
      match (b.take now).1.reply deadline now with
      | .ends r => (r, now, .bucket (b.take now).2)
      | .wait due => (acquire deadline).run (timerFrom now due) (.bucket (b.take now).2) := by
  have hfirst : ∀ (now : Instant) (b : Bucket α), (acquire deadline).run now (.bucket b) =
      (askUpTo deadline ((deadline - now) / 1000000 + 1)).run now (.bucket b) := by
    intro now b
    rw [acquire, Activity.run_bind, Activity.run_clock]
  rw [hfirst, run_askUpTo]
  cases hreply : (b.take now).1.reply deadline now with
  | ends r => rfl
  | wait due =>
    obtain ⟨hdue, hend⟩ := reply_wait hreply
    have hleft :=
      requests_left (Nat.le_refl now) (Nat.lt_succ_self _) hdue hend (set_le_timerFrom now due)
    simp only [hfirst]
    exact run_askUpTo_enough hleft (Nat.lt_succ_self _)

/-- Calls one after another with one deadline, each result with the instant at which it comes. -/
def acquireEach (deadline : Instant) :
    (calls : Nat) → Activity (Limiter α) (List (Result × Instant))
  | 0 => return []
  | calls + 1 => do
      let result ← acquire deadline
      let now ← Activity.clock
      return (result, now) :: (← acquireEach deadline calls)

/-- What calls one after another come to. -/
def acquired (deadline : Instant) (calls : Nat) (now : Instant) (l : Limiter α) :
    List (Result × Instant) :=
  ((acquireEach deadline calls).run now l).1

theorem acquired_succ (deadline : Instant) (calls : Nat) (now : Instant) (l : Limiter α) :
    acquired deadline (calls + 1) now l =
      (((acquire deadline).run now l).1, ((acquire deadline).run now l).2.1) ::
        acquired deadline calls ((acquire deadline).run now l).2.1
          ((acquire deadline).run now l).2.2 := by
  rw [acquired, acquireEach]
  simp only [Activity.run_bind, Activity.run_clock, Activity.run_pure]
  rfl

end Calls

section Outcomes

variable {deadline now t : Instant} {b : Bucket Rat} {e : Result}

/-- What holds of a waiter because it will hold after its next wait always holds: its waits come to
an end. -/
theorem wait_induction (deadline : Instant) {inv : Instant → Bucket Rat → Prop}
    (step : ∀ now b, (∀ due, (b.take now).1.reply deadline now = .wait due →
      inv (timerFrom now due) (b.take now).2) → inv now b) (now : Instant) (b : Bucket Rat) :
    inv now b := by
  induction hleft : (deadline - now) / 1000000 using Nat.strong_induction_on
    generalizing now b with
  | _ left ih =>
    refine step now b ?_
    intro due hdue
    obtain ⟨hmin, hend⟩ := reply_wait hdue
    refine ih _ ?_ _ _ rfl
    rw [← hleft]
    exact requests_left (Nat.le_refl now) (Nat.lt_succ_self _) hmin hend (set_le_timerFrom now due)

/-- A call that fails does so at an instant at which it would fail again. -/
structure Failed (deadline : Instant) (e : Result) (t : Instant) (b : Bucket Rat) : Prop where
  again : (acquire deadline).run t (.bucket b) = (e, t, .bucket b)
  timely : b.Timely → e = .tooLate

theorem run_acquire_outcome (deadline now : Instant) (b : Bucket Rat) :
    ∃ r t b', (acquire deadline).run now (.bucket b) = (r, t, .bucket b') ∧
      (b.Timely → b'.Timely) ∧ (r ≠ .granted → Failed deadline r t b') := by
  induction now, b using wait_induction deadline with
  | step now b ih =>
    rw [run_acquire]
    cases hreply : (b.take now).1.reply deadline now with
    | ends r =>
      refine ⟨r, now, _, rfl, fun h => h.take now, ?_⟩
      intro hr
      have hnone : (b.take now).1 ≠ .taken := by
        intro htaken
        rw [(reply_granted deadline now _).mpr htaken] at hreply
        exact hr (Reply.ends.inj hreply).symm
      have hagain := Bucket.take_again hnone
      refine ⟨?_, ?_⟩
      · rw [run_acquire, hagain, hreply]
      · intro htimely
        have hshort := htimely.take_ne_endless now
        rw [hagain] at hshort
        exact reply_tooLate hreply hr hshort
    | wait due =>
      obtain ⟨r, t, b', hrun, htimely, hfailed⟩ := ih due hreply
      exact ⟨r, t, b', hrun, fun h => htimely (h.take now), hfailed⟩

theorem Failed.acquired (h : Failed deadline e t b) (calls : Nat) :
    acquired deadline calls t (.bucket b) = List.replicate calls (e, t) := by
  induction calls with
  | zero => rfl
  | succ calls ih =>
    rw [acquired_succ, h.again, List.replicate_succ]
    exact congrArg _ ih

theorem acquired_outcome (deadline : Instant) (calls : Nat) (now : Instant) (b : Bucket Rat) :
    ∃ (granted : List Instant) (failed : Nat) (e : Result) (t : Instant),
      acquired deadline calls now (.bucket b) =
        granted.map (fun t => (.granted, t)) ++ List.replicate failed (e, t) ∧
      e ≠ .granted ∧ (b.Timely → e = .tooLate) := by
  induction calls generalizing now b with
  | zero => exact ⟨[], 0, .tooLate, now, rfl, by decide, fun _ => rfl⟩
  | succ calls ih =>
    obtain ⟨r, t, b', hrun, htimely, hfailed⟩ := run_acquire_outcome deadline now b
    rw [acquired_succ, hrun]
    by_cases hr : r = .granted
    · obtain ⟨granted, failed, e, u, hrest, hne, he⟩ := ih t b'
      refine ⟨t :: granted, failed, e, u, ?_, hne, fun h => he (htimely h)⟩
      dsimp only
      rw [hrest, hr]
      rfl
    · have hfail := hfailed hr
      refine ⟨[], calls + 1, r, t, ?_, hr, fun h => hfail.timely (htimely h)⟩
      dsimp only
      rw [hfail.acquired calls]
      rfl

end Outcomes

end ChainAudit.Limiter
