import ChainAudit.Limiter.Acquire
import ChainAudit.Text.Utf8

/-!
# Content stores

A store answers a read with the content of an identifier or with an error, at once or after a
while. Reads go through a rate limiter, and the wait for a token and the read share one deadline.
The store may keep a state of its own, such as a count of its reads.
-/

namespace ChainAudit.Store
open ChainAudit.Clock ChainAudit.Limiter ChainAudit.Schedule ChainAudit.Text

inductive FetchError where
  /-- No token was granted in time. -/
  | limit
  /-- The store could not be read. -/
  | transport (reason : String)
  /-- The store has no such content. -/
  | notFound (cid : String)
  deriving DecidableEq, Repr, Inhabited

def FetchError.message : FetchError → String
  | .limit => "Rate limiter wait exceeded deadline"
  | .transport reason => "Transport error: " ++ reason
  | .notFound cid => "CID not found: " ++ cid

/-- A content store whose state is an `ω`. What a read yields is looked up in the state that is
there when the answer comes. -/
structure BlockStore (ω : Type) where
  read : (cid : String) → ω → Delayed (ω → Except FetchError Bytes) × ω

/-- Reads the content of an identifier. -/
def BlockStore.get (store : BlockStore ω) (cid : String) : Activity ω (Except FetchError Bytes) :=
  .inquire fun _ => store.read cid

/-- A rate limiter and what lies behind it. -/
structure Limited (α ω : Type) where
  limiter : Limiter α
  behind : ω

namespace Limited

/-- An activity of the limiter. -/
def onLimiter (a : Activity (Limiter α) β) : Activity (Limited α ω) β :=
  a.within (·.limiter) fun l s => { s with limiter := l }

/-- An activity of what lies behind the limiter. -/
def onBehind (a : Activity ω β) : Activity (Limited α ω) β :=
  a.within (·.behind) fun rest s => { s with behind := rest }

end Limited

def timedOut (cid : String) (timeout : Span) : String :=
  "fetch of " ++ cid ++ " timed out after " ++ timeout.write

/-- What becomes of a fetch. -/
inductive Fetched where
  | answered (r : Except FetchError Bytes)
  /-- The call for a token broke down, and the fetch with it. -/
  | lost
  deriving Repr, Inhabited

/-- Reads the content of an identifier within a time limit, with a token of the limiter. -/
def fetch [Quantity α] (store : BlockStore ω) (timeout : Span) (cid : String) :
    Activity (Limited α ω) Fetched := do
  let deadline := (← Activity.clock) + timeout.nanos
  match ← Limited.onLimiter (acquire deadline) with
  | .lost => return .lost
  | .tooLate => return .answered (.error .limit)
  | .granted =>
      match ← (Limited.onBehind (store.get cid)).limit deadline with
      | some r => return .answered r
      | none => return .answered (.error (.transport (timedOut cid timeout)))

end ChainAudit.Store
