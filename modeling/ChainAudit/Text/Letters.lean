/-!
# ASCII letters

Case folding of the letters A to Z. All other characters, letters of other alphabets included, are
left alone, which is what comparison of error codes and keywords asks for.
-/

namespace ChainAudit.Text

/-- The small letter for a capital from A to Z, any other character as it is. -/
def lowerAscii (c : Char) : Char :=
  if 'A' ≤ c ∧ c ≤ 'Z' then Char.ofNat (c.toNat + 32) else c

/-- A text with its capitals from A to Z made small. -/
def lowercase (s : String) : String :=
  String.ofList (s.toList.map lowerAscii)

/-- Equality of two texts up to the case of the letters A to Z. -/
def sameLetters (s t : String) : Bool :=
  lowercase s == lowercase t

/-- `part` occurs somewhere in the list. -/
def occursIn (part : List Char) : List Char → Bool
  | [] => part.isEmpty
  | c :: cs => part.isPrefixOf (c :: cs) || occursIn part cs

end ChainAudit.Text
