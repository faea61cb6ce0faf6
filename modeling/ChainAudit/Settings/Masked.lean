import ChainAudit.Settings.Basic

/-!
# Settings without secrets

The path of a webhook URL usually carries a secret. Settings are shown with the scheme and the host
of that URL only.
-/

namespace ChainAudit.Settings
open ChainAudit.Text

/-- The scheme of a URL with its mark, if it has one, and the rest. -/
def splitScheme (url : List Char) : List Char × List Char :=
  match cutAt? "://".toList url with
  | some (scheme, rest) => (scheme ++ "://".toList, rest)
  | none => ([], url)

/-- A URL with three stars in place of its path. -/
def maskedUrl (url : String) : String :=
  let (scheme, rest) := splitScheme url.toList
  String.ofList <|
    match cutAt? ['/'] rest with
    | some (host, _) => scheme ++ host ++ "/***".toList
    | none => scheme ++ rest

def masked (s : Settings) : Settings :=
  { s with webhook := { s.webhook with url := s.webhook.url.map maskedUrl } }

end ChainAudit.Settings
