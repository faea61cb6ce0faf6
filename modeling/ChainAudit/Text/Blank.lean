/-!
# Blank characters

Which characters count as blank, and trimming of a text at both ends. The class is the Unicode
property White_Space; it is wider than the blanks of a single line of ASCII, and it leaves out the
zero width space and the byte order mark.
-/

namespace ChainAudit.Text

/-- A character with the property White_Space. -/
def isBlank (c : Char) : Bool :=
  let n := c.toNat
  (0x9 ≤ n && n ≤ 0xD) || n == 0x20 || n == 0x85 || n == 0xA0 || n == 0x1680 ||
    (0x2000 ≤ n && n ≤ 0x200A) || n == 0x2028 || n == 0x2029 || n == 0x202F || n == 0x205F ||
    n == 0x3000

/-- A list of characters without the blanks at its end. -/
def dropBlankEnd : List Char → List Char
  | [] => []
  | c :: cs =>
      match dropBlankEnd cs with
      | [] => if isBlank c then [] else [c]
      | rest => c :: rest

/-- A list of characters without the blanks at either end. -/
def trimChars (cs : List Char) : List Char :=
  dropBlankEnd (cs.dropWhile isBlank)

def trim (s : String) : String :=
  String.ofList (trimChars s.toList)

def isBlankText (s : String) : Bool :=
  s.toList.all isBlank

end ChainAudit.Text
