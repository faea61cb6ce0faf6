import ChainAudit.Pass.Failure
import ChainAudit.Settings.Basic

/-!
# Settings from a file

The content of a settings file is UTF-8 and a JSON document of settings.
-/

namespace ChainAudit.Settings
open ChainAudit.Json ChainAudit.Text

def ofText (text : String) : Except Failure Settings :=
  (decodeText read text).mapError fun fault => .document fault.message

/-- The settings that the content of a file describes; the file may be unreadable for a reason. -/
def ofFile : Except String Bytes → Except Failure Settings
  | .error reason => .error (.file reason)
  | .ok bytes =>
      match ofBytes? bytes with
      | none => .error (.file "stream did not contain valid UTF-8")
      | some text => ofText text

end ChainAudit.Settings
