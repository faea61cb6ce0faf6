import ChainAudit.Notice.Delivery
import ChainAudit.Proofs.Schedule.Alone

/-!
# Deliveries that are broken off

All that a delivery does to a notifier is to make attempts. If it is broken off at an instant, each
of them begins before that instant; and it has a result exactly if it would have been over before.
-/

namespace ChainAudit.Notice

open ChainAudit.Clock ChainAudit.Schedule ChainAudit.Schedule.Activity

/-- The states that a notifier may get to by attempts that begin before an instant. -/
inductive Notifier.Tried (n : Notifier ν) (stop : Instant) (start : ν) : ν → Prop
  | start : Tried n stop start start
  | attempt {t : ν} (summary : Summary) {now : Instant} (hnow : now < stop)
      (ht : Tried n stop start t) : Tried n stop start (n.attempt summary now t).2

theorem attemptUpTo_keeps (n : Notifier ν) (policy : Policy) (summary : Summary) (stop : Instant)
    (start : ν) (left : Nat) (decisions : List Decision) (lastDetail : String) :
    (attemptUpTo n policy summary left decisions lastDetail).KeepsUntil stop
      (n.Tried stop start) := by
  induction left generalizing decisions lastDetail with
  | zero => trivial
  | succ left ih =>
    refine keepsUntil_bind ?_ fun attempt => ?_
    · exact fun now s => ⟨fun hnow hs => .attempt summary hnow hs, trivial⟩
    · dsimp only
      split
      · trivial
      · trivial
      · exact ih _ _
      · split
        · exact ih _ _
        · refine keepsUntil_bind (fun now s => ⟨fun _ hs => hs, trivial⟩) fun now => ?_
          exact keepsUntil_bind (fun now s => ⟨fun _ hs => hs, trivial⟩) fun _ => ih _ _

theorem deliver_tried (n : Notifier ν) (policy : Policy) (summary : Summary) (stop now : Instant)
    (s : ν) :
    n.Tried stop s (((deliver n policy summary).breakOff (some stop)).run now s).2.2 :=
  run_breakOff_keeps (attemptUpTo_keeps n policy summary stop s _ _ _) .start

end ChainAudit.Notice
