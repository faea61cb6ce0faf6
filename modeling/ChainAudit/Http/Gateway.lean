import ChainAudit.Http.Exchange
import ChainAudit.Json.Reader
import ChainAudit.Store.Basic

/-!
# Stores behind gateways

A content store that is reached over a network: a node is posted for by its identifier. A refusal
that says that there is no such node, by its status or by its message, is told from other failures.
-/

namespace ChainAudit.Http
open ChainAudit.Json ChainAudit.Schedule ChainAudit.Store ChainAudit.Text

/-- The URL to post to for a node. -/
def nodeUrl (base cid : String) : Except UrlError Url :=
  (Url.parse (base ++ "/api/v0/dag/get")).map (·.withPair "arg" cid)

def readRefusal : Reader String :=
  readRecord "ApiError" [.optional "Message" readString fun m _ => m] ""

/-- The message of a refusal: that of its document, or all of its text. -/
def refusalMessage (body : Bytes) : String :=
  match decodeBytes readRefusal body with
  | .ok message => message
  | .error _ => ofBytesLossy body

/-- Whether a message says that there is no such node. -/
def saysNotFound (message : String) : Bool :=
  occursIn "not found".toList (message.toList.map lowerAscii)

/-- What a response to a request for a node means. -/
def contentOf (cid : String) (status : Nat) (body : Bytes) : Except FetchError Bytes :=
  if isSuccess status then .ok body
  else if status = 404 then .error (.notFound cid)
  else
    let message := refusalMessage body
    if saysNotFound message then .error (.notFound cid)
    else .error (.transport ("HTTP " ++ statusText status ++ " - " ++ message))

/-- What the answer to a request for a node means. -/
def answerOf (cid : String) : Except ExchangeError Response → Except FetchError Bytes
  | .error e => .error (.transport e.message)
  | .ok ⟨_, none⟩ => .error (.transport ExchangeError.body.message)
  | .ok ⟨status, some body⟩ => contentOf cid status body

def gateway (n : Network ω) (base : String) : BlockStore ω :=
  ⟨fun cid s =>
    let (answer, s) := n.exchange .post (nodeUrl (baseOf base) cid) none s
    (⟨fun _ => answerOf cid answer.value, answer.delay⟩, s)⟩

end ChainAudit.Http
