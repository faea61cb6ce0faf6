import ChainAudit.Text.Printable

/-!
# Quoted texts

A text between double quotes for use inside a message. Quotes, backslashes and the usual controls
are written with a backslash, any other character that cannot be shown as its number in
hexadecimal digits between braces.
-/

namespace ChainAudit.Text

def writeHex (n : Nat) : List Char :=
  Nat.toDigits 16 n

/-- One character of a quoted text. -/
def quotedChar (c : Char) : List Char :=
  match c with
  | '\x00' => ['\\', '0']
  | '\t' => ['\\', 't']
  | '\r' => ['\\', 'r']
  | '\n' => ['\\', 'n']
  | '\"' => ['\\', '\"']
  | '\\' => ['\\', '\\']
  | _ =>
      if isPrintable c then [c]
      else '\\' :: 'u' :: '\x7b' :: writeHex c.toNat ++ ['\x7d']

def quoted (s : String) : String :=
  String.ofList ('\"' :: s.toList.flatMap quotedChar ++ ['\"'])

end ChainAudit.Text
