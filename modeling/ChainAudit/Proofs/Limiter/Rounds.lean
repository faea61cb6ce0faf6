import ChainAudit.Proofs.Limiter.Callers
import ChainAudit.Proofs.Schedule.Visits

/-!
# Rounds until the deadline

A caller goes round a loop: it asks for a token, sleeps until it is told to ask again, and asks
again. Others may do anything to the limiter meanwhile, and may take every token that it has waited
for. What ends the loop is that each wait is a millisecond long at least and that none goes beyond
the deadline.
-/

namespace ChainAudit.Limiter

open ChainAudit.Clock ChainAudit.Schedule

variable [Quantity α]

/-- The answer to a visitor of a limiter that asks for a token. -/
def replyTo (deadline : Instant) (v : Visit (Limiter α) Result) : Reply :=
  (v.found.ask deadline v.instant).1

/-- In a visit a token is asked for once and nothing else is done; `rest` is what is done after a
wait. -/
def AsksOnce (deadline : Instant) (rest : Activity (Limiter α) Result)
    (v : Visit (Limiter α) Result) : Prop :=
  v.progress = (replyTo deadline v).progress v.instant rest ∧ v.left = (v.found.ask deadline v.instant).2

/-- The visits of somebody that goes round the loop, the first one at an instant or later, up to
some point. Nothing bounds the number of rounds: as long as it is told to wait, it goes round once
more when the timer has gone off. -/
inductive GoesRound (deadline : Instant) : Instant → List (Visit (Limiter α) Result) → Prop
  | pending (since : Instant) : GoesRound deadline since []
  | ends {since : Instant} {v : Visit (Limiter α) Result} {rest : Activity (Limiter α) Result}
      (hsince : since ≤ v.instant) (hasks : AsksOnce deadline rest v)
      (hends : ∀ due, replyTo deadline v ≠ .wait due) : GoesRound deadline since [v]
  | again {since due : Instant} {v : Visit (Limiter α) Result}
      {rest : Activity (Limiter α) Result} {rounds : List (Visit (Limiter α) Result)}
      (hsince : since ≤ v.instant) (hasks : AsksOnce deadline rest v)
      (hwait : replyTo deadline v = .wait due) (hrounds : GoesRound deadline (timer due) rounds) :
      GoesRound deadline since (v :: rounds)

section Loop

variable {deadline since : Instant} {v : Visit (Limiter α) Result}
variable {rounds : List (Visit (Limiter α) Result)}

theorem GoesRound.length_le (h : GoesRound deadline since rounds) :
    rounds.length ≤ (deadline - since) / 1000000 + 1 := by
  induction h with
  | pending since => exact Nat.zero_le _
  | ends => exact Nat.succ_le_succ (Nat.zero_le _)
  | @again since due v rest rounds hsince hasks hwait hrounds ih =>
    obtain ⟨hdue, hend⟩ := ask_wait hwait
    have hfewer : (deadline - timer due) / 1000000 < (deadline - since) / 1000000 :=
      requests_left hsince (Nat.lt_succ_self _) hdue hend (le_timer due)
    exact Nat.succ_le_succ (ih.trans hfewer)

theorem GoesRound.entered (h : GoesRound deadline since (v :: rounds)) :
    since ≤ v.instant ∧ GoesRound deadline v.instant (v :: rounds) := by
  cases h with
  | ends hsince hasks hends => exact ⟨hsince, .ends (Nat.le_refl _) hasks hends⟩
  | again hsince hasks hwait hrounds =>
    exact ⟨hsince, .again (Nat.le_refl _) hasks hwait hrounds⟩

theorem GoesRound.asksOnce (h : GoesRound deadline since rounds) :
    ∀ v ∈ rounds, ∃ rest, AsksOnce deadline rest v := by
  induction h with
  | pending since => exact nofun
  | ends hsince hasks hends => exact List.forall_mem_singleton.mpr ⟨_, hasks⟩
  | again hsince hasks hwait hrounds ih => exact List.forall_mem_cons.mpr ⟨⟨_, hasks⟩, ih⟩

/-- Who falls asleep was told to wait, and not beyond the deadline. -/
theorem AsksOnce.wait {rest left : Activity (Limiter α) Result} {wake : Instant}
    (h : AsksOnce deadline rest v) (hasleep : v.progress = .asleep wake left) :
    ∃ due, replyTo deadline v = .wait due ∧ wake = timerFrom v.instant due ∧ due ≤ deadline := by
  have hsleeper : ((replyTo deadline v).progress v.instant rest).resting? = some (.upTo wake left) := by
    rw [← h.1, hasleep]
    rfl
  obtain ⟨due, hwait, heq⟩ := resting?_progress hsleeper
  exact ⟨due, hwait, congrArg Resting.wake heq, (ask_wait hwait).2⟩

end Loop

section Crowds

variable {κ : Type} [DecidableEq κ] {c : Crowd κ (Limiter α) Result} {who : κ}
variable {deadline : Instant} {x : Resting (Limiter α) Result}

theorem Waits.asksOnce (h : Waits deadline x) (late : Option Span) (l : Limiter α) :
    ∃ rest, AsksOnce deadline rest (x.visit late l) ∧
      ∀ due, replyTo deadline (x.visit late l) = .wait due →
        Waits deadline (.upTo (timerFrom (x.visit late l).instant due) rest) := by
  obtain ⟨rest, hadvance, hwaits⟩ := h.advance (x.timer_le_goesOnAt late)
  refine ⟨rest, ?_, ?_⟩
  · rw [Resting.visit, hadvance]
    exact ⟨rfl, rfl⟩
  · intro due hwait
    exact hwaits due (ask_wait hwait).1 (ask_wait hwait).2

/-- A waiter never runs out of requests: whatever it meets with, its visits are those of a loop that
nothing bounds. -/
theorem Waits.goesRound (h : Waits deadline x) (hx : c.asleep who = some x)
    (turns : List (Turn κ)) : GoesRound deadline x.timer (c.visits who turns) := by
  induction turns generalizing c x with
  | nil => exact .pending _
  | cons t turns ih =>
    cases hturn : c.turn? t with
    | none =>
      rw [Crowd.visits_of_no_turn hturn]
      exact .pending _
    | some next =>
      obtain ⟨f, c'⟩ := next
      rw [Crowd.visits_of_turn hturn]
      rcases Crowd.visit?_cases hx hturn with ⟨late, hvisit, hasleep⟩ | ⟨hvisit, hsame | hgone⟩
      · obtain ⟨rest, hasks, hwaits⟩ := h.asksOnce late c.state
        have hlater : x.timer ≤ (x.visit late c.state).instant := x.timer_le_goesOnAt late
        rw [hasks.1] at hasleep
        rw [hvisit]
        cases hleft : c'.asleep who with
        | none =>
          have hends : ∀ due, replyTo deadline (x.visit late c.state) ≠ .wait due := by
            intro due hwait
            rw [hwait, hleft] at hasleep
            cases hasleep
          rw [Crowd.visits_of_gone hleft]
          exact .ends hlater hasks hends
        | some y =>
          obtain ⟨due, hwait, rfl⟩ := resting?_progress (hasleep.symm.trans hleft)
          have hrounds := ih (hwaits due hwait) hleft
          rw [upTo_timer (ask_wait hwait).1] at hrounds
          exact .again hlater hasks hwait hrounds
      · rw [hvisit]
        exact ih h hsame
      · rw [hvisit, Crowd.visits_of_gone hgone]
        exact .pending _

/-- Whoever calls for a token goes round the loop at most once for each whole millisecond from its
first request up to its deadline, and once more; and it never falls asleep with its timer set to an
instant after the deadline. That holds of every limiter, whatever anybody else does and however late
everybody is. Nor is it for want of requests that a caller stops: if it may make more of them, all
of this holds as well. -/
theorem rounds_before_deadline (c : Crowd κ (Limiter α) Result) (who : κ)
    (called deadline : Instant) (a : Activity (Limiter α) Result)
    (ha : a = acquire deadline ∨
      ∃ times, (deadline - called) / 1000000 < times ∧ a = askUpTo deadline times)
    (hwho : c.asleep who = some (.since called a)) (turns : List (Turn κ)) :
    GoesRound deadline called (c.visits who turns) ∧
    (∀ first ∈ (c.visits who turns).head?, called ≤ first.instant ∧
      (c.visits who turns).length ≤ (deadline - first.instant) / 1000000 + 1) ∧
    ∀ v ∈ c.visits who turns, ∀ wake left, v.progress = .asleep wake left →
      ∃ due, replyTo deadline v = .wait due ∧ wake = timerFrom v.instant due ∧ due ≤ deadline := by
  have hwaits : Waits deadline (.since called a) := by
    rcases ha with rfl | ⟨times, htimes, rfl⟩
    · exact .call called
    · exact .again _ times rfl htimes
  have hrounds := hwaits.goesRound hwho turns
  refine ⟨hrounds, ?_, ?_⟩
  · intro first hfirst
    obtain ⟨later, hlater⟩ := List.head?_eq_some_iff.mp hfirst
    rw [hlater] at hrounds ⊢
    obtain ⟨hcalled, hentered⟩ := hrounds.entered
    exact ⟨hcalled, hentered.length_le⟩
  · intro v hv wake left hasleep
    obtain ⟨rest, hasks⟩ := hrounds.asksOnce v hv
    exact hasks.wait hasleep

/-- Two callers of a bucket that has no room for a token. However high its rate is, they are told
each time to come back a millisecond later, and the first one goes round its loop as often as it can
in two milliseconds. -/
theorem rounds_before_deadline_no_room :
    let c := callers 0 (fun _ : Bool => ⟨0, 2000000⟩) (.full 0 (1000000.0 : Float) 0)
    let turns : List (Turn Bool) := [.goesOn true none, .goesOn false none, .goesOn true none,
      .goesOn false none, .goesOn true none, .goesOn false none]
    c.asleep true = some (.since 0 (acquire 2000000)) ∧
      (c.visits true turns).map Visit.instant = [0, 1000000, 2000000] ∧
      GoesRound 2000000 0 (c.visits true turns) ∧
      (∀ first ∈ (c.visits true turns).head?, 0 ≤ first.instant ∧
        (c.visits true turns).length ≤ (2000000 - first.instant) / 1000000 + 1) ∧
      ∀ v ∈ c.visits true turns, ∀ wake left, v.progress = .asleep wake left →
        ∃ due, replyTo 2000000 v = .wait due ∧ wake = timerFrom v.instant due ∧ due ≤ 2000000 :=
  ⟨rfl, by decide +kernel, rounds_before_deadline _ true 0 2000000 _ (.inl rfl) rfl _⟩

end Crowds

end ChainAudit.Limiter
