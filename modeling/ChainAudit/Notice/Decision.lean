import ChainAudit.Json.Reader

/-!
# Decisions about attempts

What follows from one attempt to deliver a summary: it is done, it is tried again at once or after
a while, or it is given up.
-/

namespace ChainAudit.Notice
open ChainAudit.Json

inductive Decision where
  /-- Delivered. -/
  | delivered
  /-- No response came; try again at once. -/
  | retryNow
  /-- The receiver is in trouble; wait and try again. -/
  | retryLater
  /-- The receiver will never take it. -/
  | giveUp
  deriving DecidableEq, Repr, Inhabited

namespace Decision

def name : Decision → String
  | .delivered => "no_retry_success"
  | .retryNow => "retry_immediate"
  | .retryLater => "retry_with_delay"
  | .giveUp => "no_retry_failure"

def isRetry : Decision → Bool
  | .retryNow | .retryLater => true
  | .delivered | .giveUp => false

/-- Whether the summary has arrived. -/
def isDelivered (d : Decision) : Bool := d == .delivered

def all : List Decision := [.delivered, .retryNow, .retryLater, .giveUp]

def read : Reader Decision :=
  readVariant (all.map fun d => (d.name, d))

def toValue (d : Decision) : Value := .string d.name

end Decision

end ChainAudit.Notice
