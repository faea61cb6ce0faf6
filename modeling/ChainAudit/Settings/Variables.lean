import ChainAudit.Decimal.Reading
import ChainAudit.Settings.Basic

/-!
# Settings from variables

Settings given by variables of the environment. A variable that is missing, blank, or not a number
where one is due leaves its setting as it is when nothing is given. Texts are taken as they stand,
numbers without the blanks around them.
-/

namespace ChainAudit.Settings
open ChainAudit.Decimal ChainAudit.Text

/-- What the names of all variables start with. -/
def variableStart : String := "DAG_VERIFIER_"

def variableNames : List String :=
  ["STORE_URL", "STORE_TIMEOUT", "STORE_RPS", "STORE_BURST", "WEBHOOK_URL", "WEBHOOK_TIMEOUT",
    "NOTIFY_MAX_ATTEMPTS", "NOTIFY_RETRY_DELAY_MS", "PROJECTS", "HEAD_API_URL", "WORKERS",
    "MAX_DEPTH", "STUCK_THRESHOLD", "RUN_TIMEOUT", "INTERVAL"].map (variableStart ++ ·)

abbrev Lookup := String → Option String

/-- The text of a variable, unless it is blank. -/
def textOf (lookup : Lookup) (name : String) : Option String :=
  (lookup (variableStart ++ name)).filter fun v => !isBlankText v

/-- The number below a bound that a variable holds. -/
def numberOf (bound : Nat) (lookup : Lookup) (name : String) : Option Nat :=
  (textOf lookup name).bind fun v => readNumber? bound (trimChars v.toList)

def floatOf (lookup : Lookup) (name : String) : Option Float :=
  (textOf lookup name).bind fun v => readFloat? (trimChars v.toList)

def storeOf (lookup : Lookup) : StoreSettings where
  url := (textOf lookup "STORE_URL").getD standard.store.url
  timeoutSecs := (numberOf bound64 lookup "STORE_TIMEOUT").getD standard.store.timeoutSecs
  perSecond := (floatOf lookup "STORE_RPS").getD standard.store.perSecond
  burst := (numberOf bound32 lookup "STORE_BURST").getD standard.store.burst

def webhookOf (lookup : Lookup) : WebhookSettings where
  url := textOf lookup "WEBHOOK_URL"
  timeoutSecs := (numberOf bound64 lookup "WEBHOOK_TIMEOUT").getD standard.webhook.timeoutSecs
  maxAttempts := (numberOf bound32 lookup "NOTIFY_MAX_ATTEMPTS").getD standard.webhook.maxAttempts
  retryDelayMs :=
    (numberOf bound64 lookup "NOTIFY_RETRY_DELAY_MS").getD standard.webhook.retryDelayMs

def projectsOf (lookup : Lookup) : List Project :=
  match textOf lookup "PROJECTS" with
  | none => []
  | some list => Project.ofList list.toList

def ofVariables (lookup : Lookup) : Settings where
  store := storeOf lookup
  webhook := webhookOf lookup
  projects := projectsOf lookup
  headApi := textOf lookup "HEAD_API_URL"
  workers := (numberOf bound64 lookup "WORKERS").getD standard.workers
  maxDepth := (numberOf bound64 lookup "MAX_DEPTH").getD standard.maxDepth
  stuckSecs := (numberOf bound64 lookup "STUCK_THRESHOLD").getD standard.stuckSecs
  runTimeoutSecs := (numberOf bound64 lookup "RUN_TIMEOUT").getD standard.runTimeoutSecs
  intervalSecs := (numberOf bound64 lookup "INTERVAL").getD standard.intervalSecs

end ChainAudit.Settings
