/-!
# Segments of a text

Cutting a list of characters at a separator: at every occurrence, or at the first one only.
-/

namespace ChainAudit.Text

/-- The pieces between the occurrences of `sep`; one more piece than there are occurrences. -/
def segments (sep : Char) : List Char → List (List Char)
  | [] => [[]]
  | c :: cs =>
      if c = sep then [] :: segments sep cs
      else
        match segments sep cs with
        | [] => [[c]]
        | s :: ss => (c :: s) :: ss

/-- `some rest` when the text is `mark` followed by `rest`. -/
def stripStart? : (mark text : List Char) → Option (List Char)
  | [], cs => some cs
  | _ :: _, [] => none
  | m :: ms, c :: cs => if m = c then stripStart? ms cs else none

/-- What stands before and after the first occurrence of `mark`. -/
def cutAt? (mark : List Char) : List Char → Option (List Char × List Char)
  | [] => (stripStart? mark []).map fun rest => ([], rest)
  | c :: cs =>
      match stripStart? mark (c :: cs) with
      | some rest => some ([], rest)
      | none => (cutAt? mark cs).map fun (before, after) => (c :: before, after)

/-- A list of characters without the copies of `c` at its end. -/
def dropEndWhile (p : Char → Bool) : List Char → List Char
  | [] => []
  | c :: cs =>
      match dropEndWhile p cs with
      | [] => if p c then [] else [c]
      | rest => c :: rest

/-- The pieces put back together with `sep` between neighbours. -/
def joinWith (sep : List Char) : List (List Char) → List Char
  | [] => []
  | [s] => s
  | s :: ss => s ++ sep ++ joinWith sep ss

end ChainAudit.Text
