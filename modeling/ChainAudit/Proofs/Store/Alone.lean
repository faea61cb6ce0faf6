import ChainAudit.Proofs.Schedule.Alone
import ChainAudit.Proofs.Schedule.Ensures
import ChainAudit.Store.Basic

/-!
# Fetches that run alone

A fetch that no limiter holds up reads the store at once, and once. What it answers depends on the
answer of the store only, not on the instant at which it is made, as long as that is at the same
place of a millisecond.
-/

namespace ChainAudit.Store

open ChainAudit.Clock ChainAudit.Limiter ChainAudit.Schedule ChainAudit.Schedule.Activity
open ChainAudit.Text

theorem run_onLimiter (a : Activity (Limiter α) β) (now : Instant) (s : Limited α ω) :
    (Limited.onLimiter a).run now s =
      ((a.run now s.limiter).1, (a.run now s.limiter).2.1,
        { s with limiter := (a.run now s.limiter).2.2 }) := by
  unfold Limited.onLimiter
  apply run_within
  · intro l s
    rfl
  · intro s
    rfl
  · intro l l' s
    rfl

variable [Quantity α]

theorem run_acquire_unlimited (deadline now : Instant) :
    (acquire deadline).run now (.unlimited : Limiter α) = (.granted, now, .unlimited) := by
  simp [acquire, askUpTo, ask]

/-- The answer to a read that is asked for in one state and comes in another one. -/
def BlockStore.answer (store : BlockStore ω) (cid : String) (asked found : ω) :
    Delayed (Except FetchError Bytes) :=
  ⟨(store.read cid asked).1.value found, (store.read cid asked).1.delay⟩

/-- The answer to a read if nobody acts on the store meanwhile. -/
def BlockStore.answerAlone (store : BlockStore ω) (cid : String) (s : ω) :
    Delayed (Except FetchError Bytes) :=
  store.answer cid s (store.read cid s).2

/-- Whether an answer comes in time to a fetch that is made at an instant. -/
def InTime (timeout : Span) (now : Instant) (answer : Delayed β) : Prop :=
  answer.comesAt now ≤ timerFrom now (now + timeout.nanos)

instance (timeout : Span) (now : Instant) (answer : Delayed β) :
    Decidable (InTime timeout now answer) :=
  inferInstanceAs (Decidable (_ ≤ _))

/-- The answer of a fetch that is made at an instant. -/
def answerAt (timeout : Span) (cid : String) (now : Instant)
    (answer : Delayed (Except FetchError Bytes)) : Except FetchError Bytes :=
  if InTime timeout now answer then answer.value else .error (.transport (timedOut cid timeout))

/-- The instant at which a fetch ends that is made at an instant. -/
def answeredAt (timeout : Span) (now : Instant) (answer : Delayed (Except FetchError Bytes)) :
    Instant :=
  if InTime timeout now answer then answer.comesAt now else timerFrom now (now + timeout.nanos)

theorem run_fetch_unlimited (store : BlockStore ω) (timeout : Span) (cid : String) (now : Instant)
    (s : ω) :
    (fetch store timeout cid).run now (⟨.unlimited, s⟩ : Limited α ω) =
      (.answered (answerAt timeout cid now (store.answerAlone cid s)),
        answeredAt timeout now (store.answerAlone cid s), ⟨.unlimited, (store.read cid s).2⟩) := by
  have hread : ((Limited.onBehind (store.get cid) :
      Activity (Limited α ω) _).limit (now + timeout.nanos)).run now ⟨.unlimited, s⟩ =
        if InTime timeout now (store.answerAlone cid s) then
          (some (store.answerAlone cid s).value, (store.answerAlone cid s).comesAt now,
            ⟨.unlimited, (store.read cid s).2⟩)
        else (none, timerFrom now (now + timeout.nanos), ⟨.unlimited, (store.read cid s).2⟩) :=
    run_limit_inquire (fun _ (s : Limited α ω) =>
      (⟨fun found => (store.read cid s.behind).1.value found.behind,
        (store.read cid s.behind).1.delay⟩, { s with behind := (store.read cid s.behind).2 }))
      (now + timeout.nanos) now ⟨.unlimited, s⟩
  unfold fetch answerAt answeredAt
  simp only [run_bind, run_clock, run_onLimiter, run_acquire_unlimited, hread]
  by_cases hin : InTime timeout now (store.answerAlone cid s)
  · simp only [hin, if_true, run_pure]
  · simp only [hin, if_false, run_pure]

section Phases

variable {now now' : Nat}

theorem inTime_iff (hnow : now' % 1000000 = now % 1000000) (timeout : Span) (answer : Delayed β) :
    InTime timeout now' answer ↔ InTime timeout now answer := by
  unfold InTime Delayed.comesAt
  cases answer.delay with
  | none => exact iff_of_true (le_timerFrom now' _) (le_timerFrom now _)
  | some span => exact timerFrom_add_le_iff hnow span.nanos timeout.nanos

theorem inTime_of_le {timeout : Span} {answer : Delayed β}
    (h : ∀ span, answer.delay = some span → span.nanos ≤ timeout.nanos) (now : Instant) :
    InTime timeout now answer := by
  unfold InTime Delayed.comesAt
  cases hdelay : answer.delay with
  | none => exact le_timerFrom now _
  | some span => exact timerFrom_mono now (Nat.add_le_add_left (h span hdelay) now)

theorem answerAt_later (hnow : now' % 1000000 = now % 1000000) (timeout : Span) (cid : String)
    (answer : Delayed (Except FetchError Bytes)) :
    answerAt timeout cid now' answer = answerAt timeout cid now answer := by
  have hsame := inTime_iff hnow timeout answer
  unfold answerAt
  by_cases hin : InTime timeout now answer
  · rw [if_pos hin, if_pos (hsame.mpr hin)]
  · rw [if_neg hin, if_neg fun h => hin (hsame.mp h)]

theorem answeredAt_place (timeout : Span) (now : Instant)
    (answer : Delayed (Except FetchError Bytes)) :
    answeredAt timeout now answer % 1000000 = now % 1000000 := by
  unfold answeredAt
  split
  · exact answer.comesAt_place now
  · exact timerFrom_place now _

end Phases

section Likeness

def BlockStore.after (store : BlockStore ω) (cids : List String) (s : ω) : ω :=
  cids.foldl (fun s cid => (store.read cid s).2) s

/-- In one state a store answers as in the other one, whatever has been read since. -/
def BlockStore.Alike (store : BlockStore ω) (s s' : ω) : Prop :=
  ∀ cids cid, store.answerAlone cid (store.after cids s) =
    store.answerAlone cid (store.after cids s')

variable {store : BlockStore ω} {s s' : ω}

theorem BlockStore.alike_refl (store : BlockStore ω) (s : ω) : store.Alike s s := fun _ _ => rfl

theorem BlockStore.Alike.answer (h : store.Alike s s') (cid : String) :
    store.answerAlone cid s = store.answerAlone cid s' := h [] cid

theorem BlockStore.Alike.read (h : store.Alike s s') (cid : String) :
    store.Alike (store.read cid s).2 (store.read cid s').2 := fun cids => h (cid :: cids)

end Likeness

end ChainAudit.Store
