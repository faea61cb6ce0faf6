import ChainAudit.Chain.Issue
import ChainAudit.Http.Exchange
import ChainAudit.Pass.Heads

/-!
# Heads from an interface

An interface that knows the latest height of each project and the node at each height. A height
that is not positive means that the project has no chain yet; otherwise the answer for the height
must name exactly one node.
-/

namespace ChainAudit.Http
open ChainAudit.Chain ChainAudit.Clock ChainAudit.Json ChainAudit.Schedule ChainAudit.Text

def readHeight : Reader Height :=
  readRecord "HeightResponse" [.mandatory "height" readInt64 fun h _ => h] 0

/-- The document of a response, or what is wrong with it. -/
def documentOf (r : Reader α) (answer : Except ExchangeError Response) : Except String α :=
  match answer with
  | .error e => .error e.message
  | .ok response =>
      if isSuccess response.status then
        match response.body with
        | none => .error ExchangeError.body.message
        | some body =>
            match decodeBytes r body with
            | .ok a => .ok a
            | .error _ => .error ExchangeError.body.message
      else
        let body := (response.body.map ofBytesLossy).getD ""
        .error ("HTTP " ++ statusText response.status ++ " - " ++ body)

/-- The node that an answer for a height names. -/
def namedNode (height : Height) (members : List (String × Value)) : Except String String :=
  if members.any (·.1 == "error") then
    .error ("no block at height " ++ String.ofList (writeInteger height.toInt))
  else
    match (members.map (·.1)).eraseDups with
    | [cid] => .ok cid
    | _ => .error "payload response must map exactly one CID"

def heightUrl (base project : String) : Except UrlError Url :=
  Url.parse (base ++ "/" ++ project ++ "/payloads/height")

def payloadUrl (base project : String) (height : Height) : Except UrlError Url :=
  Url.parse
    (base ++ "/" ++ project ++ "/payload/" ++ String.ofList (writeInteger height.toInt))

def lookupHead (n : Network ω) (base project : String) (s : ω) :
    Delayed (Except String (Option String)) × ω :=
  let (latest, s) := n.exchange .get (heightUrl base project) none s
  match documentOf readHeight latest.value with
  | .error reason => (⟨.error reason, latest.delay⟩, s)
  | .ok height =>
      if height ≤ 0 then (⟨.ok none, latest.delay⟩, s)
      else
        let (block, s) := n.exchange .get (payloadUrl base project height) none s
        let head := (documentOf readMap block.value).bind (namedNode height)
        (⟨head.map some, delayOfBoth latest.delay block.delay⟩, s)

/-- The heads that the interface with a base URL knows. -/
def headApi (n : Network ω) (base : String) : HeadSource ω :=
  ⟨fun project s =>
    let (answer, s) := lookupHead n (baseOf base) project s
    (⟨answer.value.mapError (.headLookup project), answer.delay⟩, s)⟩

end ChainAudit.Http
