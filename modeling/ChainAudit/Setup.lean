import ChainAudit.Http.Gateway
import ChainAudit.Http.HeadApi
import ChainAudit.Http.Webhook
import ChainAudit.Monitor
import ChainAudit.Settings.Check

/-!
# Auditors and monitors from settings

The auditor of a network reads the store of the settings and takes heads from the settings first
and from the head interface second. Settings that do not pass the check make none.
-/

namespace ChainAudit.Settings
open ChainAudit.Http ChainAudit.Limiter ChainAudit.Notice ChainAudit.Store ChainAudit.Text

/-- The base URL that the store is read from. -/
def storeBase (s : StoreSettings) : Except Failure String :=
  (s.baseUrl.map baseOf).mapError .address

def headSource (n : Network ω) (s : Settings) : HeadSource ω :=
  match s.headApi with
  | none => .fixed s.fixedHeads
  | some base => .layered s.fixedHeads (Http.headApi n base)

def auditor (n : Network ω) (s : Settings) : Except Failure (Auditor ω) := do
  s.check
  let base ← storeBase s.store
  return {
    store := gateway n base
    heads := s.headSource n
    fetchTimeout := s.store.timeout
    stuckThreshold := s.stuckThreshold
    workers := s.workers
    maxDepth := s.maxDepth
    runTimeout := s.runTimeout }

/-- The notifier of settings and how its attempts are repeated, if summaries are posted. -/
def notifier (n : Network ω) (s : Settings) : Option (Notifier ω × Policy) :=
  s.webhook.target?.map fun url => (Http.webhook n url, s.webhook.policy)

def monitor (n : Network ω) (s : Settings) : Except Failure (Monitor ω ω) := do
  return ⟨← s.auditor n, s.projectIds, s.interval, s.notifier n⟩

/-- A limiter for the store and the state of the network behind it, at the start of a clock. -/
def freshLimited (s : Settings) (behind : ω) : Limited Float ω :=
  ⟨.ofRate 0 s.store.rate, behind⟩

end ChainAudit.Settings
