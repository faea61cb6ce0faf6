import ChainAudit.Pass.Failure
import ChainAudit.Settings.Basic

/-!
# Checking settings

Settings that no pass can run with are refused: bounds that are zero, a rate that lets nothing
through, an address that is none, and projects without a name or with the same name. The first
objection is reported.
-/

namespace ChainAudit.Settings
open ChainAudit.Limiter ChainAudit.Text

/-- The objection to a setting that must not be zero. -/
def notZero (name : String) (n : Nat) : Except Failure Unit :=
  if n = 0 then .error (.settings (name ++ " must be at least 1")) else .ok ()

def checkRate : Rate → Except Failure Unit
  | .unlimited => .ok ()
  | .perSecond rate burst =>
      if !rate.isFinite || rate ≤ 0.0 then
        .error (.settings "store.requests_per_sec must be positive or -1 for unlimited")
      else notZero "store.burst" burst

/-- The objection to a list of projects; `seen` holds the names before it. -/
def checkProjects (seen : List String) : List Project → Except Failure Unit
  | [] => .ok ()
  | p :: rest =>
      if isBlankText p.id then .error (.settings "project id must not be empty")
      else if seen.contains p.id then .error (.settings ("duplicate project id: " ++ p.id))
      else checkProjects (p.id :: seen) rest

def check (s : Settings) : Except Failure Unit := do
  notZero "worker_count" s.workers
  notZero "max_depth" s.maxDepth
  notZero "store.timeout_secs" s.store.timeoutSecs
  notZero "webhook.max_attempts" s.webhook.maxAttempts
  notZero "interval_secs" s.intervalSecs
  checkRate s.store.rate
  match s.store.baseUrl with
  | .error e => .error (.address e)
  | .ok _ => checkProjects [] s.projects

end ChainAudit.Settings
