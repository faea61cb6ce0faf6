import ChainAudit.Notice.Backoff
import ChainAudit.Notice.Response
import ChainAudit.Schedule.Activity
import ChainAudit.Summary.Basic

/-!
# Delivery of summaries

Repeated attempts to deliver a summary, as the decision about each one asks for. A delivery is an
activity of a notifier: its attempts take a while, and so does the wait before a later attempt.
-/

namespace ChainAudit.Notice
open ChainAudit.Clock ChainAudit.Schedule ChainAudit.Text

/-- One attempt: what follows from it and what it was like. -/
structure Attempt where
  decision : Decision
  detail : String
  deriving DecidableEq, Repr, Inhabited

def Attempt.ofOutcome (o : Outcome) : Attempt :=
  ⟨o.decision, o.detail⟩

/-- Something that makes attempts and whose state is a `ν`. -/
structure Notifier (ν : Type) where
  attempt : Summary → (now : Instant) → ν → Delayed Attempt × ν

/-- A summary that was delivered: the number of attempts and the decision of each. -/
structure Receipt where
  attempts : Nat
  decisions : List Decision
  deriving DecidableEq, Repr, Inhabited

inductive DeliveryError where
  | rejected (detail : String)
  | exhausted (attempts : Nat) (lastDetail : String)
  deriving DecidableEq, Repr, Inhabited

def DeliveryError.message : DeliveryError → String
  | .rejected detail => "Notification rejected: " ++ detail
  | .exhausted attempts lastDetail =>
      "Notification failed after " ++ String.ofList (writeNumber attempts) ++ " attempts: " ++
        lastDetail

/-- Makes attempts while they are to be repeated. `left` attempts remain, and `decisions` are those
of the attempts made. No wait follows the last attempt. -/
def attemptUpTo (n : Notifier ν) (policy : Policy) (summary : Summary) :
    (left : Nat) → (decisions : List Decision) → (lastDetail : String) →
    Activity ν (Except DeliveryError Receipt)
  | 0, decisions, lastDetail => return .error (.exhausted decisions.length lastDetail)
  | left + 1, decisions, _ => do
      let attempt ← Activity.await (n.attempt summary)
      let decisions := decisions ++ [attempt.decision]
      match attempt.decision with
      | .delivered => return .ok ⟨decisions.length, decisions⟩
      | .giveUp => return .error (.rejected attempt.detail)
      | .retryNow => attemptUpTo n policy summary left decisions attempt.detail
      | .retryLater =>
          if left = 0 then attemptUpTo n policy summary left decisions attempt.detail
          else
            let now ← Activity.clock
            Activity.sleepUntil (now + (policy.backoff.delay decisions.length).nanos)
            attemptUpTo n policy summary left decisions attempt.detail

/-- Delivers a summary; at least one attempt is made. -/
def deliver (n : Notifier ν) (policy : Policy) (summary : Summary) :
    Activity ν (Except DeliveryError Receipt) :=
  attemptUpTo n policy summary (max policy.maxAttempts 1) [] ""

end ChainAudit.Notice
