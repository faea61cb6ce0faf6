import ChainAudit.Address
import ChainAudit.Clock.Span
import ChainAudit.Limiter.Acquire
import ChainAudit.Notice.Backoff
import ChainAudit.Settings.Project
import ChainAudit.Text.Numeral

/-!
# Settings

Everything that can be set: the content store, the webhook, the projects, and the bounds and times
of passes. Every setting has a value of its own when it is not given.
-/

namespace ChainAudit
open ChainAudit.Address ChainAudit.Clock ChainAudit.Json ChainAudit.Limiter ChainAudit.Notice
open ChainAudit.Text

structure StoreSettings where
  url : String
  timeoutSecs : Nat
  perSecond : Float
  burst : Nat
  deriving Repr, Inhabited

namespace StoreSettings

def standard : StoreSettings := ⟨"/dns/ipfs/tcp/5001", 30, 10.0, 10⟩

def rate (s : StoreSettings) : Rate := .ofSetting s.perSecond s.burst

def timeout (s : StoreSettings) : Span := .ofSeconds s.timeoutSecs

def baseUrl (s : StoreSettings) : Except AddressError String := normalize s.url

def toValue (s : StoreSettings) : Value :=
  .object [
    ("url", .string s.url),
    ("timeout_secs", .nat s.timeoutSecs),
    ("requests_per_sec", .number (.float s.perSecond)),
    ("burst", .nat s.burst)]

def read : Reader StoreSettings :=
  readRecord "StoreConfig" [
    .optional "url" readString fun u s => { s with url := u },
    .optional "timeout_secs" (readNat bound64 "u64") fun n s => { s with timeoutSecs := n },
    .optional "requests_per_sec" readFloat fun x s => { s with perSecond := x },
    .optional "burst" (readNat bound32 "u32") fun n s => { s with burst := n }] standard

end StoreSettings

structure WebhookSettings where
  url : Option String
  timeoutSecs : Nat
  maxAttempts : Nat
  retryDelayMs : Nat
  deriving DecidableEq, Repr, Inhabited

namespace WebhookSettings

def standard : WebhookSettings := ⟨none, 10, 3, 5000⟩

def timeout (s : WebhookSettings) : Span := .ofSeconds s.timeoutSecs

/-- The URL that summaries are posted to; a blank one does not count. -/
def target? (s : WebhookSettings) : Option String :=
  match s.url with
  | none => none
  | some url => if (trim url).isEmpty then none else some (trim url)

def isEnabled (s : WebhookSettings) : Bool := s.target?.isSome

/-- How attempts are repeated: the wait doubles from the one set up to ten times as much. -/
def policy (s : WebhookSettings) : Policy :=
  ⟨s.maxAttempts, .exponential s.retryDelayMs (min (s.retryDelayMs * 10) (bound64 - 1)) 2.0⟩

def toValue (s : WebhookSettings) : Value :=
  .object [
    ("url", .optional .string s.url),
    ("timeout_secs", .nat s.timeoutSecs),
    ("max_attempts", .nat s.maxAttempts),
    ("retry_delay_ms", .nat s.retryDelayMs)]

def read : Reader WebhookSettings :=
  readRecord "WebhookConfig" [
    .optional "url" (readOption readString) fun u s => { s with url := u },
    .optional "timeout_secs" (readNat bound64 "u64") fun n s => { s with timeoutSecs := n },
    .optional "max_attempts" (readNat bound32 "u32") fun n s => { s with maxAttempts := n },
    .optional "retry_delay_ms" (readNat bound64 "u64") fun n s => { s with retryDelayMs := n }]
    standard

end WebhookSettings

structure Settings where
  store : StoreSettings
  webhook : WebhookSettings
  projects : List Project
  headApi : Option String
  workers : Nat
  maxDepth : Nat
  stuckSecs : Nat
  runTimeoutSecs : Nat
  intervalSecs : Nat
  deriving Repr, Inhabited

namespace Settings

/-- The settings when nothing is given. -/
def standard : Settings :=
  ⟨.standard, .standard, [], none, 8, 10000, 1800, 300, 300⟩

/-- Settings for a store and services on the same machine, with short times. -/
def development : Settings where
  store := ⟨"/ip4/127.0.0.1/tcp/5001", 5, -1.0, 1⟩
  webhook := ⟨none, 5, 2, 500⟩
  projects := []
  headApi := some "http://127.0.0.1:9000"
  workers := 2
  maxDepth := 1000
  stuckSecs := 120
  runTimeoutSecs := 60
  intervalSecs := 30

def projectIds (s : Settings) : List String := s.projects.map (·.id)

def stuckThreshold (s : Settings) : Span := .ofSeconds s.stuckSecs

def runTimeout (s : Settings) : Span := .ofSeconds s.runTimeoutSecs

def interval (s : Settings) : Span := .ofSeconds s.intervalSecs

/-- The heads that are fixed; of several for one project the last. -/
def fixedHeads (s : Settings) : List (String × String) :=
  s.projects.reverse.filterMap fun p => p.head.map fun head => (p.id, head)

def toValue (s : Settings) : Value :=
  .object [
    ("store", s.store.toValue),
    ("webhook", s.webhook.toValue),
    ("projects", .array (s.projects.map Project.toValue)),
    ("head_api_url", .optional .string s.headApi),
    ("worker_count", .nat s.workers),
    ("max_depth", .nat s.maxDepth),
    ("stuck_threshold_secs", .nat s.stuckSecs),
    ("run_timeout_secs", .nat s.runTimeoutSecs),
    ("interval_secs", .nat s.intervalSecs)]

/-- Reads a number of 64 bits that counts things. -/
def readCount : Reader Nat := readNat bound64 "usize"

/-- Reads a number of 64 bits that measures time. -/
def readTime : Reader Nat := readNat bound64 "u64"

/-- Reads settings; every one may be left out. -/
def read : Reader Settings :=
  readRecord "VerifierConfig" [
    .optional "store" StoreSettings.read fun x s => { s with store := x },
    .optional "webhook" WebhookSettings.read fun x s => { s with webhook := x },
    .optional "projects" (readList Project.read) fun ps s => { s with projects := ps },
    .optional "head_api_url" (readOption readString) fun u s => { s with headApi := u },
    .optional "worker_count" readCount fun n s => { s with workers := n },
    .optional "max_depth" readCount fun n s => { s with maxDepth := n },
    .optional "stuck_threshold_secs" readTime fun n s => { s with stuckSecs := n },
    .optional "run_timeout_secs" readTime fun n s => { s with runTimeoutSecs := n },
    .optional "interval_secs" readTime fun n s => { s with intervalSecs := n }] standard

end Settings

end ChainAudit
