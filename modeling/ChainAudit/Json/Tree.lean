import ChainAudit.Json.Token

/-!
# Documents as trees

The shape of a JSON text: which tokens are values and how they nest. The tree of a text that breaks
off or goes astray is kept up to that point, because a reader that knows what type it wants may
object to something earlier, and its objection comes first. So a container remembers where it
stopped, and a place where a value is due but none starts is a leaf of its own.

Building the tree is one pass over the tokens with the open containers on a stack.
-/

namespace ChainAudit.Json

/-- How a container ends: with its closing mark, or with the tokens that could not continue it. -/
inductive Tail where
  | closed
  | cut (rest : List Token)
  deriving DecidableEq, Repr, Inhabited

/-- A document, complete or not. -/
inductive Tree where
  | null
  | bool (b : Bool)
  | number (n : NumberLit)
  | string (s : StringLit)
  /-- A number literal that lacks a digit or has one too many. -/
  | badNumber (cut : Bool)
  /-- A misspelt word. -/
  | badWord (cut : Bool)
  | array (items : List Tree) (tail : Tail)
  | object (members : List (StringLit × Tree)) (tail : Tail)
  /-- No value starts here; `atEnd` if the text ends here. -/
  | absent (atEnd : Bool)
  /-- No colon stands between a key and its value; `atEnd` if the text ends here. -/
  | noColon (atEnd : Bool)
  deriving Repr, Inhabited

/-- A container whose end has not been reached, with what was read of it. -/
inductive Frame where
  | array (items : List Tree)
  | object (members : List (StringLit × Tree)) (key : StringLit)
  deriving Repr, Inhabited

/-- The tree of an open container after one more value in it. -/
def Frame.close (t : Tree) (tail : Tail) : Frame → Tree
  | .array items => .array (items ++ [t]) tail
  | .object members key => .object (members ++ [(key, t)]) tail

/-- The whole tree when reading stops inside the innermost open container. -/
def abandon (t : Tree) : List Frame → Tree
  | [] => t
  | f :: outer => abandon (f.close t (.cut [])) outer

/-- The value that a token is by itself. -/
def Token.leaf? : Token → Option Tree
  | .null => some .null
  | .bool b => some (.bool b)
  | .number n => some (.number n)
  | .string s => some (.string s)
  | .badNumber cut => some (.badNumber cut)
  | .badWord cut => some (.badWord cut)
  | _ => none

mutual

/-- Reads a value inside the open containers, then goes on after it. The result is the tree of the
outermost value and the tokens behind it. -/
def readValue (stack : List Frame) : List Token → Tree × List Token
  | [] => (abandon (.absent true) stack, [])
  | .openArray :: .closeArray :: rest => readAfter (.array [] .closed) stack rest
  | [.openArray] => (abandon (.array [] (.cut [])) stack, [])
  | .openArray :: rest => readValue (.array [] :: stack) rest
  | .openObject :: .closeObject :: rest => readAfter (.object [] .closed) stack rest
  | .openObject :: .string key :: rest =>
      if key.ending = .closed then readMember [] key stack rest
      else (abandon (.object [] (.cut [.string key])) stack, [])
  | .openObject :: rest => (abandon (.object [] (.cut rest)) stack, [])
  | t :: rest =>
      match t.leaf? with
      | some leaf => readAfter leaf stack rest
      | none => (abandon (.absent false) stack, [])

/-- Goes on after the key of a member. -/
def readMember (members : List (StringLit × Tree)) (key : StringLit) (stack : List Frame) :
    List Token → Tree × List Token
  | .colon :: rest => readValue (.object members key :: stack) rest
  | rest => (abandon (.noColon rest.isEmpty) (.object members key :: stack), [])

/-- Goes on after a value. -/
def readAfter (t : Tree) (stack : List Frame) (rest : List Token) : Tree × List Token :=
  match stack, rest with
  | [], rest => (t, rest)
  | .array items :: outer, .closeArray :: rest =>
      readAfter (.array (items ++ [t]) .closed) outer rest
  | .array items :: outer, [.comma] =>
      (abandon (.array (items ++ [t]) (.cut [.comma])) outer, [])
  | .array items :: outer, .comma :: .closeArray :: _ =>
      (abandon (.array (items ++ [t]) (.cut [.comma, .closeArray])) outer, [])
  | .array items :: outer, .comma :: rest => readValue (.array (items ++ [t]) :: outer) rest
  | .object members key :: outer, .closeObject :: rest =>
      readAfter (.object (members ++ [(key, t)]) .closed) outer rest
  | .object members key :: outer, .comma :: .string next :: rest =>
      if next.ending = .closed then readMember (members ++ [(key, t)]) next outer rest
      else (abandon (.object (members ++ [(key, t)]) (.cut [.comma, .string next])) outer, [])
  | frame :: outer, rest => (abandon (frame.close t (.cut rest)) outer, [])

end

/-- The tree of a text and the tokens behind it. -/
def treeOf (text : List Token) : Tree × List Token :=
  readValue [] text

end ChainAudit.Json
