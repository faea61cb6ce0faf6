import ChainAudit.Http.Exchange
import ChainAudit.Notice.Delivery

/-!
# Webhooks

Summaries are posted to a URL. What comes back is judged by its status and its body; no answer and
a body that breaks off count as no response.
-/

namespace ChainAudit.Http
open ChainAudit.Notice ChainAudit.Schedule ChainAudit.Text

/-- What an answer to a posted summary means. -/
def outcomeOf : Except ExchangeError Response → Outcome
  | .error e => .noResponse e.message
  | .ok ⟨_, none⟩ => .noResponse ExchangeError.body.message
  | .ok ⟨status, some body⟩ => .ofBody status (ofBytesLossy body)

def postSummary (n : Network ω) (url : String) (summary : Summary) (s : ω) :
    Delayed Outcome × ω :=
  let (answer, s) := n.exchange .post (Url.parse url) (some summary.toRequest.toText) s
  (⟨outcomeOf answer.value, answer.delay⟩, s)

def webhook (n : Network ω) (url : String) : Notifier ω :=
  ⟨fun summary _ s =>
    let (answer, s) := postSummary n url summary s
    (⟨.ofOutcome answer.value, answer.delay⟩, s)⟩

end ChainAudit.Http
