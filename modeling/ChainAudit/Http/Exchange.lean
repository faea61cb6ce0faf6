import ChainAudit.Http.Status
import ChainAudit.Http.Url
import ChainAudit.Schedule.Activity

/-!
# Exchanges

A request is sent over a network, and a response comes back or not; the body of a response may
break off. What a network does is up to it, so it is a function of the request and of a state of
its own.
-/

namespace ChainAudit.Http
open ChainAudit.Schedule ChainAudit.Text

inductive Method where
  | get
  | post
  deriving DecidableEq, Repr, Inhabited

structure Request where
  method : Method
  url : Url
  body : Option String
  deriving DecidableEq, Repr, Inhabited

/-- A response; the body is missing if it broke off. -/
structure Response where
  status : Nat
  body : Option Bytes
  deriving DecidableEq, Repr, Inhabited

/-- A network whose state is an `ω`; none comes back if nobody answers. -/
structure Network (ω : Type) where
  send : Request → ω → Delayed (Option Response) × ω

def Network.unreachable : Network ω := ⟨fun _ s => (⟨none, none⟩, s)⟩

inductive ExchangeError where
  | url (e : UrlError)
  /-- Nobody answered. -/
  | unanswered (url : Url)
  /-- The body broke off or is not what was expected. -/
  | body
  deriving DecidableEq, Repr, Inhabited

def ExchangeError.message : ExchangeError → String
  | .url .malformed => "builder error"
  | .url (.foreign text) => "builder error for url (" ++ text ++ ")"
  | .unanswered target => "error sending request for url (" ++ target.write ++ ")"
  | .body => "error decoding response body"

/-- Sends a request to the URL that a text stands for, if it does. -/
def Network.exchange (n : Network ω) (method : Method) (url : Except UrlError Url)
    (body : Option String) (s : ω) : Delayed (Except ExchangeError Response) × ω :=
  match url with
  | .error e => (⟨.error (.url e), none⟩, s)
  | .ok url =>
      if url.isWeb then
        let (answer, s) := n.send ⟨method, url, body⟩ s
        (⟨match answer.value with
          | none => .error (.unanswered url)
          | some r => .ok r, answer.delay⟩, s)
      else (⟨.error (.url (.foreign url.write)), none⟩, s)

/-- A base URL without slashes at its end. -/
def baseOf (url : String) : String :=
  String.ofList (dropEndWhile (· == '/') url.toList)

end ChainAudit.Http
