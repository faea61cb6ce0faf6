import ChainAudit.Limiter.Acquire
import ChainAudit.Proofs.Schedule.Crowd
import ChainAudit.Proofs.Schedule.Ensures
import Mathlib.Data.Fintype.Card

/-!
# Callers that wait for a token

Callers of one limiter as a crowd. In a turn a caller asks for a token once, and what comes of it
depends on the bucket at that instant only. A caller that waits asks again a millisecond later or
more, so its requests are not used up before its deadline.
-/

namespace ChainAudit.Limiter

open ChainAudit.Clock ChainAudit.Schedule

structure Call where
  start : Instant
  deadline : Instant

variable [Quantity α]

/-- Callers of one bucket that make their calls from an instant on. -/
def callers (since : Instant) (calls : κ → Call) (b : Bucket α) :
    Crowd κ (Limiter α) Result :=
  ⟨since, fun who => some (.since (calls who).start (acquire (calls who).deadline)), .bucket b⟩

/-- The answer to a waiter with a deadline, by what its request finds. -/
def Taking.reply (deadline now : Instant) : Taking → Reply
  | .taken => .ends .granted
  | .never => .ends .tooLate
  | .endless => .ends .lost
  | .short wait =>
      if deadline < now + max wait.nanos leastWait.nanos then .ends .tooLate
      else .wait (now + max wait.nanos leastWait.nanos)

theorem ask_bucket (deadline now : Instant) (b : Bucket α) :
    (bucket b).ask deadline now =
      ((b.take now).1.reply deadline now, .bucket (b.take now).2) := by
  simp only [ask]
  cases (b.take now).1 with
  | taken => rfl
  | never => rfl
  | endless => rfl
  | short wait => rfl

variable {deadline now due : Instant} {found : Taking} {r : Result}

theorem reply_granted (deadline now : Instant) (found : Taking) :
    found.reply deadline now = .ends .granted ↔ found = .taken := by
  cases found with
  | short wait =>
    simp only [Taking.reply]
    split <;> simp
  | _ => simp [Taking.reply]

theorem reply_tooLate (h : found.reply deadline now = .ends r) (hr : r ≠ .granted)
    (hfound : found ≠ .endless) : r = .tooLate := by
  cases found with
  | taken => exact absurd (Reply.ends.inj h).symm hr
  | never => exact (Reply.ends.inj h).symm
  | endless => exact absurd rfl hfound
  | short wait =>
    simp only [Taking.reply] at h
    split at h
    · exact (Reply.ends.inj h).symm
    · cases h

theorem reply_wait (h : found.reply deadline now = .wait due) :
    now + 1000000 ≤ due ∧ due ≤ deadline := by
  cases found with
  | short wait =>
    simp only [Taking.reply] at h
    split at h
    · cases h
    · rename_i hdue
      obtain rfl := Reply.wait.inj h
      exact ⟨Nat.add_le_add_left (Nat.le_max_right wait.nanos leastWait.nanos) now,
        Nat.le_of_not_lt hdue⟩
  | _ => cases h

theorem ask_wait {l : Limiter α} (h : (l.ask deadline now).1 = .wait due) :
    now + 1000000 ≤ due ∧ due ≤ deadline := by
  cases l with
  | unlimited => cases h
  | bucket b =>
    rw [ask_bucket] at h
    exact reply_wait h

theorem lt_due_of_later (h : now + 1000000 ≤ due) : now < due :=
  (Nat.lt_add_of_pos_right (Nat.succ_pos _)).trans_le h

theorem lt_timerFrom_of_later {later : Nat} (h : now + 1000000 ≤ due) : now < timerFrom later due :=
  (lt_due_of_later h).trans_le (set_le_timerFrom later due)

omit [Quantity α] in
theorem upTo_timer (h : now + 1000000 ≤ due) (rest : Activity (Limiter α) Result) :
    (Resting.upTo (timerFrom now due) rest).timer = timer due :=
  lastTick_timerFrom (lt_due_of_later h)

theorem lt_timerFrom_of_wait (h : found.reply deadline now = .wait due) :
    now < timerFrom now due :=
  lt_timerFrom_of_later (reply_wait h).1

/-- How far a caller gets with an answer at an instant; `rest` is what it does after a wait. -/
def Reply.progress (now : Instant) (rest : Activity (Limiter α) Result) :
    Reply → Activity.Progress (Limiter α) Result
  | .ends r => .finished r
  | .wait due => .asleep (timerFrom now due) rest

omit [Quantity α] in
theorem resting?_progress {rest : Activity (Limiter α) Result} {reply : Reply}
    {x : Resting (Limiter α) Result} (h : (reply.progress now rest).resting? = some x) :
    ∃ due, reply = .wait due ∧ x = .upTo (timerFrom now due) rest := by
  cases reply with
  | ends r => cases h
  | wait due => exact ⟨due, rfl, (Option.some.inj h).symm⟩

theorem advance_askUpTo (deadline now : Instant) (times : Nat) (l : Limiter α) :
    (askUpTo deadline (times + 1)).advance now l =
      ((l.ask deadline now).1.progress now (askUpTo deadline times), (l.ask deadline now).2) := by
  rw [askUpTo, Activity.advance_bind, Activity.advance_access]
  simp only [Activity.Progress.bind]
  cases hreply : (l.ask deadline now).1 with
  | ends r => rfl
  | wait due =>
    exact Activity.advance_sleep (lt_timerFrom_of_later (ask_wait hreply).1)
      (askUpTo deadline times) _

theorem advance_acquire (deadline now : Instant) (l : Limiter α) :
    (acquire deadline).advance now l =
      (askUpTo deadline ((deadline - now) / 1000000 + 1)).advance now l := by
  rw [acquire, Activity.advance_bind, Activity.advance_clock]
  rfl

/-- Sleeps until it asks for a token, for the first time or again. -/
inductive Waits (deadline : Instant) : Resting (Limiter α) Result → Prop where
  | call (start : Instant) : Waits deadline (.since start (acquire deadline))
  | again (x : Resting (Limiter α) Result) (times : Nat) (hrest : x.rest = askUpTo deadline times)
      (h : (deadline - x.timer) / 1000000 < times) : Waits deadline x

theorem requests_left {deadline wake now due later times : Nat} (hwake : wake ≤ now)
    (htimes : (deadline - wake) / 1000000 < times + 1) (hdue : now + 1000000 ≤ due)
    (hend : due ≤ deadline) (hlater : due ≤ later) : (deadline - later) / 1000000 < times := by
  omega

/-- In a turn a waiter asks once, and if it has to wait it is a waiter still. -/
theorem Waits.advance {x : Resting (Limiter α) Result} (h : Waits deadline x)
    (hnow : x.timer ≤ now) :
    ∃ rest,
      (∀ l : Limiter α, x.rest.advance now l =
        ((l.ask deadline now).1.progress now rest, (l.ask deadline now).2)) ∧
      ∀ due, now + 1000000 ≤ due → due ≤ deadline →
        Waits deadline (.upTo (timerFrom now due) rest) := by
  have hagain : ∀ wake times, wake ≤ now → (deadline - wake) / 1000000 < times + 1 →
      ∀ due, now + 1000000 ≤ due → due ≤ deadline →
        Waits (α := α) deadline (.upTo (timerFrom now due) (askUpTo deadline times)) := by
    intro wake times hwake htimes due hdue hend
    refine .again _ _ rfl (requests_left hwake htimes hdue hend ?_)
    rw [upTo_timer hdue]
    exact le_timer due
  cases h with
  | call start =>
    refine ⟨askUpTo deadline ((deadline - now) / 1000000), ?_, ?_⟩
    · exact fun l => (advance_acquire deadline now l).trans (advance_askUpTo deadline now _ l)
    · exact hagain now _ (Nat.le_refl now) (Nat.lt_succ_self _)
  | again x times hrest h =>
    cases times with
    | zero => cases h
    | succ times =>
      rw [hrest]
      exact ⟨askUpTo deadline times, advance_askUpTo deadline now times, hagain _ times hnow h⟩

/-- All of a crowd wait for a token of one bucket. -/
structure Waiting (calls : κ → Call) (b : Bucket α)
    (c : Crowd κ (Limiter α) Result) : Prop where
  state : c.state = .bucket b
  waits : ∀ who x, c.asleep who = some x → Waits (calls who).deadline x

theorem waiting_callers (since : Instant) (calls : κ → Call) (b : Bucket α) :
    Waiting calls b (callers since calls b) := by
  refine ⟨rfl, ?_⟩
  intro who x hx
  obtain rfl := Option.some.inj hx
  exact .call (calls who).start

theorem size_callers [Fintype κ] (since : Instant) (calls : κ → Call) (b : Bucket α) :
    (callers since calls b).size = Fintype.card κ := by
  refine congrArg Finset.card (Finset.filter_true_of_mem ?_)
  intro who _
  rfl

section Turns

variable {κ : Type} [DecidableEq κ] {c c' : Crowd κ (Limiter α) Result}
variable {calls : κ → Call} {b b' : Bucket α} {who : κ} {late : Option Span}
variable {f : Option (Finish κ Result)}

theorem Waiting.update (h : Waiting calls b c) (hstate : c'.state = .bucket b')
    {next : Option (Resting (Limiter α) Result)}
    (hasleep : c'.asleep = Function.update c.asleep who next)
    (hnext : ∀ x, next = some x → Waits (calls who).deadline x) : Waiting calls b' c' := by
  refine ⟨hstate, ?_⟩
  intro other x hx
  rw [hasleep] at hx
  by_cases hother : other = who
  · subst hother
    rw [Function.update_self] at hx
    exact hnext x hx
  · rw [Function.update_of_ne hother] at hx
    exact h.waits other x hx

/-- When a waiter goes on, it asks once, and the turn is decided by what its request finds. -/
theorem Waiting.goesOn (h : Waiting calls b c)
    (hturn : c.turn? (.goesOn who late) = some (f, c')) :
    ∃ x rest, c.asleep who = some x ∧ c.now ≤ c'.now ∧ c'.now = x.goesOnAt late ∧
      (∀ b : Bucket α, x.rest.advance c'.now (.bucket b) =
        (((b.take c'.now).1.reply (calls who).deadline c'.now).progress c'.now rest,
          .bucket (b.take c'.now).2)) ∧
      f = (((b.take c'.now).1.reply (calls who).deadline c'.now).progress c'.now rest).finish? who
        c'.now ∧
      c'.asleep = Function.update c.asleep who
        (((b.take c'.now).1.reply (calls who).deadline c'.now).progress c'.now rest).resting? ∧
      Waiting calls (b.take c'.now).2 c' := by
  obtain ⟨x, hx, hnow, hinstant, hf, hasleep, hstate⟩ := Crowd.turn?_goesOn hturn
  have htimer : x.timer ≤ c'.now := hinstant ▸ x.timer_le_goesOnAt late
  obtain ⟨rest, hasks, hwaits⟩ := (h.waits who x hx).advance htimer
  have hadvance : ∀ b : Bucket α, x.rest.advance c'.now (.bucket b) =
      (((b.take c'.now).1.reply (calls who).deadline c'.now).progress c'.now rest,
        .bucket (b.take c'.now).2) := by
    intro b
    rw [hasks, ask_bucket]
  rw [h.state, hadvance b] at hf hasleep hstate
  refine ⟨x, rest, hx, hnow, hinstant, hadvance, hf, hasleep, h.update hstate hasleep ?_⟩
  intro y hy
  obtain ⟨due, hreply, rfl⟩ := resting?_progress hy
  exact hwaits due (reply_wait hreply).1 (reply_wait hreply).2

theorem Waiting.drops {instant : Instant} (h : Waiting calls b c)
    (hturn : c.turn? (.drops who instant) = some (f, c')) :
    c.now ≤ c'.now ∧ c'.now = instant ∧ f = none ∧
      c'.asleep = Function.update c.asleep who none ∧ Waiting calls b c' := by
  obtain ⟨hnow, hinstant, -, hf, hasleep, hstate⟩ := Crowd.turn?_drops hturn
  refine ⟨hnow, hinstant, hf, hasleep, h.update (hstate.trans h.state) hasleep ?_⟩
  intro x hx
  cases hx

theorem Waiting.turn {t : Turn κ} (h : Waiting calls b c) (hturn : c.turn? t = some (f, c')) :
    (Waiting calls b c' ∧ f = none) ∨
      (Waiting calls (b.take c'.now).2 c' ∧
        ((∃ g, f = some g ∧ g.result = .granted) ↔ (b.take c'.now).1 = .taken)) := by
  cases t with
  | drops who instant =>
    obtain ⟨-, -, hf, -, hwaiting⟩ := h.drops hturn
    exact .inl ⟨hwaiting, hf⟩
  | goesOn who late =>
    obtain ⟨x, rest, -, -, -, -, hf, -, hwaiting⟩ := h.goesOn hturn
    refine .inr ⟨hwaiting, ?_⟩
    rw [hf, ← reply_granted (calls who).deadline c'.now]
    cases (b.take c'.now).1.reply (calls who).deadline c'.now with
    | ends r => simp [Reply.progress, Activity.Progress.finish?]
    | wait due => simp [Reply.progress, Activity.Progress.finish?]

end Turns

/-- How often somebody may ask yet. -/
def requests (deadline : Instant) : Option (Resting (Limiter α) Result) → Nat
  | none => 0
  | some x => (deadline - x.wake) / 1000000 + 1

omit [Quantity α] in
theorem requests_progress {deadline : Instant} {x : Resting (Limiter α) Result}
    (found : Taking) (rest : Activity (Limiter α) Result) :
    requests deadline ((found.reply deadline x.wake).progress x.wake rest).resting? <
      requests deadline (some x) := by
  cases hreply : found.reply deadline x.wake with
  | ends r => exact Nat.succ_pos _
  | wait due =>
    obtain ⟨hdue, hend⟩ := reply_wait hreply
    exact Nat.succ_lt_succ (requests_left (Nat.le_refl x.wake) (Nat.lt_succ_self _) hdue hend
      (set_le_timerFrom x.wake due))

theorem Waiting.ends {κ : Type} [DecidableEq κ] [Fintype κ] {calls : κ → Call} {b : Bucket α}
    {c : Crowd κ (Limiter α) Result} (h : Waiting calls b c)
    (hwake : ∀ who x, c.asleep who = some x → c.now ≤ x.wake) :
    ∃ turns log e, Punctual turns ∧ c.replay? turns = some (log, e) ∧ e.IsOver := by
  -- Each turn of who wakes first uses up one of the requests that are left to all together.
  induction hleft : ∑ who, requests (calls who).deadline (c.asleep who)
    using Nat.strong_induction_on generalizing b c with
  | _ left ih =>
    by_cases hover : c.IsOver
    · exact ⟨[], [], c, punctual_nil, rfl, hover⟩
    · obtain ⟨who, x, hx, hfirst⟩ := Crowd.exists_first hover
      obtain ⟨f, c', hturn⟩ : ∃ f c', c.turn? (.goesOn who none) = some (f, c') :=
        ⟨_, _, Crowd.turn?_of_goesOn hx (hwake who x hx)⟩
      obtain ⟨y, rest, hy, -, hinstant, -, -, hasleep, hwaiting⟩ := h.goesOn hturn
      obtain rfl := Option.some.inj (hx.symm.trans hy)
      have hnow : c'.now = x.wake := hinstant
      rw [hnow] at hasleep
      have hfewer : ∑ other, requests (calls other).deadline (c'.asleep other) < left := by
        rw [← hleft]
        exact Crowd.sum_update_lt (fun other => requests (calls other).deadline) hx hasleep
          (requests_progress (b.take x.wake).1 rest)
      have hlater : ∀ other y, c'.asleep other = some y → c'.now ≤ y.wake := by
        intro other y hy
        rw [hasleep, Function.update_apply] at hy
        rw [hnow]
        split at hy
        · obtain ⟨due, hreply, rfl⟩ := resting?_progress hy
          exact (lt_timerFrom_of_wait hreply).le
        · exact hfirst other y hy
      obtain ⟨turns, log, e, hpunctual, hrun, hend⟩ := ih _ hfewer hwaiting hlater rfl
      exact ⟨_, _, e, punctual_cons.mpr ⟨⟨who, rfl⟩, hpunctual⟩,
        Crowd.replay?_cons_of hturn hrun, hend⟩

end ChainAudit.Limiter
