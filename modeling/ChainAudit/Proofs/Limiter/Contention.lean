import ChainAudit.Proofs.Limiter.Sequence

/-!
# Contention for tokens

Callers that begin together and have one deadline wait in rounds. All of them ask at one instant;
while there are tokens each gets one, and the others, who find the bucket as it was left, are told
to come back at the same instant. So it goes on as if they had called one after another.
-/

namespace ChainAudit.Limiter

open ChainAudit.Clock ChainAudit.Schedule

section Rounds

variable {κ : Type} {call : Call} {b : Bucket Rat} {w : Instant}
variable {c c' e : Crowd κ (Limiter Rat) Result} {who : κ}
variable {f : Option (Finish κ Result)}
variable {turns : List (Turn κ)} {log : List (Finish κ Result)}

def outcomes (log : List (Finish κ Result)) :
    List (Result × Instant) :=
  log.map fun g => (g.result, g.instant)

/-- A round: everybody wakes at one instant, or has asked then and waits for the next one. -/
structure Round (call : Call) (w : Instant) (b : Bucket Rat)
    (c : Crowd κ (Limiter Rat) Result) : Prop where
  waiting : Waiting (fun _ => call) b c
  now : c.now ≤ w
  wake : ∀ who x, c.asleep who = some x → x.wake = w ∨
    c.now = w ∧ (b.take w).2 = b ∧
      ∃ due, (b.take w).1.reply call.deadline w = .wait due ∧ x.wake = timerFrom w due

theorem round_callers (start deadline : Instant) (b : Bucket Rat) :
    Round ⟨start, deadline⟩ start b (callers start (fun _ : κ => ⟨start, deadline⟩) b) := by
  refine ⟨waiting_callers _ _ b, Nat.le_refl start, ?_⟩
  intro who x hx
  obtain rfl := Option.some.inj hx
  exact .inl rfl

theorem ne_taken_of_wait {found : Taking} {deadline now due : Instant}
    (h : found.reply deadline now = .wait due) : found ≠ .taken := by
  rintro rfl
  cases h

theorem acquired_congr {deadline t t' : Instant} {l l' : Limiter Rat}
    (h : (acquire deadline).run t l = (acquire deadline).run t' l') (calls : Nat) :
    acquired deadline calls t l = acquired deadline calls t' l' := by
  cases calls with
  | zero => rfl
  | succ calls => rw [acquired_succ, acquired_succ, h]

/-- When nobody is left to ask in a round, the next one begins. -/
theorem Round.next (h : Round call w b c) {x : Resting (Limiter Rat) Result}
    (hx : c.asleep who = some x) (hnone : ∀ other y, c.asleep other = some y → y.wake ≠ w)
    (calls : Nat) :
    Round call x.wake b c ∧
      acquired call.deadline calls x.wake (.bucket b) =
        acquired call.deadline calls w (.bucket b) := by
  rcases h.wake who x hx with hwake | ⟨hnow, hb, due, hreply, hwake⟩
  · exact absurd hwake (hnone who x hx)
  · refine ⟨⟨h.waiting, ?_, ?_⟩, ?_⟩
    · rw [hnow, hwake]
      exact (lt_timerFrom_of_wait hreply).le
    · intro other y hy
      rcases h.wake other y hy with hother | ⟨-, -, due', hreply', hother⟩
      · exact absurd hother (hnone other y hy)
      · rw [hreply] at hreply'
        obtain rfl := Reply.wait.inj hreply'
        exact .inl (hother.trans hwake.symm)
    · refine acquired_congr ?_ calls
      rw [run_acquire _ w b, hreply, hb, hwake]

variable [DecidableEq κ] [Fintype κ]

/-- In a round everybody who asks is told the same as somebody who calls alone. -/
theorem Round.turn (h : Round call w b c) {x : Resting (Limiter Rat) Result}
    (hx : c.asleep who = some x) (hwake : x.wake = w)
    (hturn : c.turn? (.goesOn who none) = some (f, c')) :
    ∃ b', Round call w b' c' ∧
      outcomes f.toList ++ acquired call.deadline c'.size w (.bucket b') =
        acquired call.deadline c.size w (.bucket b) := by
  obtain ⟨y, rest, hy, hnow, hinstant, -, hf, hasleep, hwaiting⟩ := h.waiting.goesOn hturn
  obtain rfl := Option.some.inj (hx.symm.trans hy)
  have hw : c'.now = w := hinstant.trans hwake
  rw [hw] at hf hasleep hwaiting
  refine ⟨_, ⟨hwaiting, hw.le, ?_⟩, ?_⟩
  · intro other y hy
    rw [hasleep, Function.update_apply] at hy
    split at hy
    · obtain ⟨due, hreply, rfl⟩ := resting?_progress hy
      -- Who has to wait leaves a bucket that tells the next one in the round the same.
      have hagain := Bucket.take_again (ne_taken_of_wait hreply)
      rw [hagain]
      exact .inr ⟨hw, rfl, due, hreply, rfl⟩
    · rcases h.wake other y hy with hsame | ⟨-, hb, hdue⟩
      · exact .inl hsame
      · rw [hb]
        exact .inr ⟨hw, hb, hdue⟩
  · cases hreply : (b.take w).1.reply call.deadline w with
    | ends r =>
      rw [hreply] at hf hasleep
      rw [Crowd.size_of_leaves hx hasleep, acquired_succ, run_acquire, hreply, hf]
      rfl
    | wait due =>
      rw [hreply] at hf hasleep
      have hsame : (acquire call.deadline).run w (.bucket (b.take w).2) =
          (acquire call.deadline).run w (.bucket b) := by
        rw [run_acquire, run_acquire _ w b, Bucket.take_again (ne_taken_of_wait hreply), hreply]
      rw [Crowd.size_of_stays hx hasleep, hf]
      exact acquired_congr hsame c'.size

theorem Round.replay (h : Round call w b c) (hpunctual : Punctual turns)
    (hrun : c.replay? turns = some (log, e)) (hover : e.IsOver) :
    outcomes log = acquired call.deadline c.size w (.bucket b) := by
  induction turns generalizing c b w log with
  | nil =>
    obtain ⟨rfl, rfl⟩ := Crowd.replay?_nil hrun
    rw [Crowd.size_of_isOver hover]
    rfl
  | cons t turns ih =>
    obtain ⟨f, c', rest, hturn, hrest, rfl⟩ := Crowd.replay?_cons hrun
    obtain ⟨⟨who, rfl⟩, hturns⟩ := punctual_cons.mp hpunctual
    obtain ⟨x, hx, hnow, hinstant, -⟩ := Crowd.turn?_goesOn hturn
    have hround : ∀ w b, Round call w b c → x.wake = w →
        outcomes (f.toList ++ rest) = acquired call.deadline c.size w (.bucket b) := by
      intro w b h hwake
      obtain ⟨b', hround, hsame⟩ := h.turn hx hwake hturn
      rw [← hsame, ← ih hround hturns hrest]
      exact List.map_append
    by_cases hwake : x.wake = w
    · exact hround w b h hwake
    · -- Who had not asked by now would never ask.
      have hnone : ∀ other y, c.asleep other = some y → y.wake ≠ w := by
        intro other y hy hyw
        have hother : other ≠ who := by
          rintro rfl
          obtain rfl := Option.some.inj (hx.symm.trans hy)
          exact hwake hyw
        have hpast : y.wake < c'.now := by
          rcases h.wake who x hx with hsame | ⟨hround, -⟩
          · exact absurd hsame hwake
          · rw [hyw, ← hround]
            exact lt_of_le_of_ne hnow fun heq => hwake (hinstant.symm.trans (heq.symm.trans hround))
        have hleft := Crowd.replay?_overslept hturns
          ((Crowd.turn?_asleep hturn hother).trans hy) hpast hrest
        rw [hover other] at hleft
        cases hleft
      obtain ⟨hnext, hsame⟩ := h.next hx hnone c.size
      rw [← hsame]
      exact hround x.wake b hnext rfl

end Rounds

theorem exists_end {n : Nat} (c : Crowd (Fin n) (Limiter Rat) Result)
    (turns : List (Turn (Fin n))) (results : List (Result × Instant))
    (h : (c.replay? turns).map
      (fun r => (outcomes r.1, decide (∀ who, (r.2.asleep who).isNone))) = some (results, true)) :
    ∃ log e, c.replay? turns = some (log, e) ∧ e.IsOver ∧ outcomes log = results := by
  obtain ⟨⟨log, e⟩, hrun, heq⟩ := Option.map_eq_some_iff.mp h
  obtain ⟨hlog, hnone⟩ := Prod.mk.inj heq
  refine ⟨log, e, hrun, ?_, hlog⟩
  intro who
  exact Option.isNone_iff_eq_none.mp (of_decide_eq_true hnone who)

/-- Calls that begin together and have one deadline, if nobody is ever late: whoever of those that
wake together goes first, everybody finishes once, and the results and their instants are those of
as many calls one after another. When the first fails the others fail too, for the same reason. -/
theorem together_as_in_turn (b : Bucket Rat) (n : Nat) (start deadline : Instant) :
    (∃ turns log e, Punctual turns ∧
      (callers start (fun _ : Fin n => ⟨start, deadline⟩) b).replay? turns = some (log, e) ∧
      e.IsOver) ∧
    ∀ turns log e, Punctual turns →
      (callers start (fun _ : Fin n => ⟨start, deadline⟩) b).replay? turns = some (log, e) →
      e.IsOver →
        (log.map Finish.who).Nodup ∧
        outcomes log = ((acquireEach deadline n).run start (.bucket b)).1 ∧
        ∃ (granted : List Instant) (failed : Nat) (reason : Result) (t : Instant),
          outcomes log =
            granted.map (fun t => (.granted, t)) ++ List.replicate failed (reason, t) ∧
          reason ≠ .granted ∧ (b.Timely → reason = .tooLate) := by
  have hwaiting := waiting_callers start (fun _ : Fin n => ⟨start, deadline⟩) b
  refine ⟨hwaiting.ends ?_, ?_⟩
  · intro who x hx
    obtain rfl := Option.some.inj hx
    exact Nat.le_refl start
  · intro turns log e hpunctual hrun hover
    have hsame := (round_callers start deadline b).replay hpunctual hrun hover
    rw [size_callers, Fintype.card_fin] at hsame
    obtain ⟨granted, failed, reason, t, hshape, hne, htimely⟩ :=
      acquired_outcome deadline n start b
    exact ⟨(Crowd.replay?_once hrun).1, hsame, granted, failed, reason, t, hsame.trans hshape,
      hne, htimely⟩

/-- Of three calls with one and a half seconds one is granted a token at once, one a second later,
and then the third fails, as when they call one after another. -/
theorem three_at_once :
    ∃ log e,
      Punctual [.goesOn (0 : Fin 3) none, .goesOn 1 none, .goesOn 2 none, .goesOn 2 none,
        .goesOn 1 none] ∧
      (callers 0 (fun _ : Fin 3 => ⟨0, 1500000000⟩) (.full 1 (1 : Rat) 0)).replay?
        [.goesOn 0 none, .goesOn 1 none, .goesOn 2 none, .goesOn 2 none, .goesOn 1 none] =
          some (log, e) ∧
      e.IsOver ∧
      (Bucket.full 1 (1 : Rat) 0).Timely ∧
      outcomes log = [(.granted, 0), (.granted, 1000000000), (.tooLate, 1000000000)] ∧
      outcomes log = ((acquireEach 1500000000 3).run 0 (.bucket (.full 1 (1 : Rat) 0))).1 := by
  have hpunctual : Punctual [.goesOn (0 : Fin 3) none, .goesOn 1 none, .goesOn 2 none,
      .goesOn 2 none, .goesOn 1 none] := by
    simp [Punctual]
  obtain ⟨log, e, hrun, hover, hlog⟩ := exists_end
    (callers 0 (fun _ : Fin 3 => ⟨0, 1500000000⟩) (.full 1 (1 : Rat) 0))
    [.goesOn 0 none, .goesOn 1 none, .goesOn 2 none, .goesOn 2 none, .goesOn 1 none]
    [(.granted, 0), (.granted, 1000000000), (.tooLate, 1000000000)] (by decide +kernel)
  have htimely : (Bucket.full 1 (1 : Rat) 0).Timely := by
    refine .inr ?_
    decide +kernel
  exact ⟨log, e, hpunctual, hrun, hover, htimely, hlog,
    ((together_as_in_turn (.full 1 1 0) 3 0 1500000000).2 _ log e hpunctual hrun hover).2.1⟩

/-- At a rate so low that the wait for a token is beyond the clock a call does not fail for its
deadline. -/
theorem second_beyond_clock :
    ∃ log e,
      Punctual [.goesOn (0 : Fin 2) none, .goesOn 1 none] ∧
      (callers 0 (fun _ : Fin 2 => ⟨0, 1000000⟩) (.full 1 (1 / 10 ^ 300 : Rat) 0)).replay?
        [.goesOn 0 none, .goesOn 1 none] = some (log, e) ∧
      e.IsOver ∧ outcomes log = [(.granted, 0), (.lost, 0)] := by
  obtain ⟨log, e, hrun, hover, hlog⟩ := exists_end
    (callers 0 (fun _ : Fin 2 => ⟨0, 1000000⟩) (.full 1 (1 / 10 ^ 300 : Rat) 0))
    [.goesOn 0 none, .goesOn 1 none]
    [(.granted, 0), (.lost, 0)] (by decide +kernel)
  exact ⟨log, e, by simp [Punctual], hrun, hover, hlog⟩

end ChainAudit.Limiter
