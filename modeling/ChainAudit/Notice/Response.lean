import ChainAudit.Json.Reader
import ChainAudit.Notice.Decision
import ChainAudit.Text.Blank
import ChainAudit.Text.Letters

/-!
# Responses of a webhook

What can come back when a summary is posted, and what is concluded from it. A response whose body
is the document of a webhook is judged by its flag and its error code, any other by its text; known
error codes decide at every status, and the status decides the rest.
-/

namespace ChainAudit.Notice
open ChainAudit.Json ChainAudit.Text

/-- The document a webhook answers with. -/
structure Reply where
  error : String
  ok : Bool
  messages : List String
  deriving DecidableEq, Repr, Inhabited

namespace Reply

/-- The error code of a reply, unless it is blank. -/
def error? (r : Reply) : Option String :=
  let e := trim r.error
  if e.isEmpty then none else some e

def readMessages : Reader (List String) :=
  readRecord "ResponseMetadata" [.optional "messages" (readList readString) fun ms _ => ms] []

/-- Reads a reply; every field may be left out. -/
def read : Reader Reply :=
  readRecord "NotifyResponse" [
    .optional "error" readString fun e r => { r with error := e },
    .optional "ok" readBool fun b r => { r with ok := b },
    .optional "response_metadata" readMessages fun ms r => { r with messages := ms }]
    ⟨"", false, []⟩

def toValue (r : Reply) : Value :=
  .object [
    ("error", .string r.error),
    ("ok", .bool r.ok),
    ("response_metadata", .object [("messages", .array (r.messages.map .string))])]

end Reply

/-- What came back from one attempt. -/
inductive Outcome where
  /-- Nothing came back. -/
  | noResponse (reason : String)
  /-- A reply document. -/
  | reply (status : Nat) (body : Reply)
  /-- Any other body. -/
  | text (status : Nat) (text : String)
  /-- Nothing could be sent. -/
  | unsendable (reason : String)
  deriving DecidableEq, Repr, Inhabited

/-- Error codes that no further attempt will change. -/
def permanentCodes : List String := [
  "invalid_payload", "invalid_json", "invalid_arguments", "invalid_auth", "invalid_token",
  "not_authed", "token_revoked", "account_inactive", "missing_scope", "channel_not_found",
  "channel_is_archived", "no_text", "no_service", "no_service_id", "no_team", "team_disabled",
  "action_prohibited", "posting_to_general_channel_denied", "user_not_found", "msg_too_long"]

/-- Error codes of conditions that pass. -/
def transientCodes : List String := [
  "rate_limited", "ratelimited", "service_unavailable", "temporarily_unavailable",
  "internal_error", "fatal_error", "request_timeout", "timeout"]

/-- The decision for an error code that may be missing. Requests refused by the receiver, apart
from those that came too fast, are given up. -/
def judgeError (status : Nat) (code : Option String) : Decision :=
  match code.map lowercase with
  | some c =>
      if permanentCodes.contains c then .giveUp
      else if transientCodes.contains c then .retryLater
      else judgeStatus status
  | none => judgeStatus status
where
  /-- The decision where the error code is blank or unknown. -/
  judgeStatus (status : Nat) : Decision :=
    if 400 ≤ status ∧ status < 500 ∧ status ≠ 429 then .giveUp else .retryLater

def Outcome.decision : Outcome → Decision
  | .noResponse _ => .retryNow
  | .unsendable _ => .giveUp
  | .reply status body =>
      if body.ok then .delivered else judgeError status body.error?
  | .text status body =>
      let t := trim body
      if 200 ≤ status ∧ status < 300 ∧ (t.isEmpty ∨ sameLetters t "ok") then .delivered
      else judgeError status (if t.isEmpty then none else some t)

def statusDetail (status : Nat) (what : String) : String :=
  "HTTP " ++ String.ofList (writeNumber status) ++ ": " ++ what

def Outcome.detail : Outcome → String
  | .noResponse reason => "no response: " ++ reason
  | .unsendable reason => "unsendable: " ++ reason
  | .text status body => statusDetail status (trim body)
  | .reply status body =>
      match body.error? with
      | none => statusDetail status (if body.ok then "ok=true" else "ok=false")
      | some e =>
          if body.messages.isEmpty then statusDetail status e
          else statusDetail status (e ++ " (" ++ String.intercalate "; " body.messages ++ ")")

/-- The response to a posted summary: a reply if the body is the document of one. -/
def Outcome.ofBody (status : Nat) (body : String) : Outcome :=
  match decodeText Reply.read body with
  | .ok r => .reply status r
  | .error _ => .text status body

end ChainAudit.Notice
