/-!
# Octets and characters

The UTF-8 form of a text, and reading of octets that may or may not be UTF-8. Octets that belong
to no character are kept apart as stray, so that a reader of a document can go on past them and
decide later whether they matter.
-/

namespace ChainAudit.Text

abbrev Bytes := List UInt8

/-- One unit of a text of unknown encoding: a character, or an octet that is part of none. -/
inductive Glyph where
  | char (c : Char)
  | stray (octet : UInt8)
  deriving DecidableEq, Repr, Inhabited

def Glyph.width : Glyph → Nat
  | .char c => c.utf8Size
  | .stray _ => 1

/-- The glyphs of a text that is known to consist of characters. -/
def glyphs (s : String) : List Glyph :=
  s.toList.map .char

/-- An octet that continues a character. -/
def isTail (b : UInt8) : Bool :=
  0x80 ≤ b && b ≤ 0xBF

/-- The second octets that may follow a first octet; the bounds rule out overlong forms,
surrogates and numbers above 10FFFF. -/
def secondRange (b : UInt8) : UInt8 × UInt8 :=
  if b == 0xE0 then (0xA0, 0xBF)
  else if b == 0xED then (0x80, 0x9F)
  else if b == 0xF0 then (0x90, 0xBF)
  else if b == 0xF4 then (0x80, 0x8F)
  else (0x80, 0xBF)

/-- The number of octets of the character that starts with `b`, or 0 if none does. -/
def leadLength (b : UInt8) : Nat :=
  if b ≤ 0x7F then 1
  else if 0xC2 ≤ b && b ≤ 0xDF then 2
  else if 0xE0 ≤ b && b ≤ 0xEF then 3
  else if 0xF0 ≤ b && b ≤ 0xF4 then 4
  else 0

/-- Whether `b₁` may follow the first octet `b`. -/
def mayFollow (b b₁ : UInt8) : Bool :=
  let (low, high) := secondRange b
  low ≤ b₁ && b₁ ≤ high

/-- The low six bits of a continuing octet. -/
def tailBits (b : UInt8) : Nat :=
  b.toNat % 64

/-- The glyph at the start of the octets `a :: rest`, and the number of further octets it takes. -/
def firstGlyph (a : UInt8) (rest : Bytes) : Glyph × Nat :=
  match leadLength a, rest with
  | 1, _ => (.char (Char.ofNat a.toNat), 0)
  | 2, b :: _ =>
      if mayFollow a b then (.char (Char.ofNat ((a.toNat % 32) * 64 + tailBits b)), 1)
      else (.stray a, 0)
  | 3, b :: c :: _ =>
      if mayFollow a b && isTail c then
        (.char (Char.ofNat (((a.toNat % 16) * 64 + tailBits b) * 64 + tailBits c)), 2)
      else (.stray a, 0)
  | 4, b :: c :: d :: _ =>
      if mayFollow a b && isTail c && isTail d then
        (.char (Char.ofNat ((((a.toNat % 8) * 64 + tailBits b) * 64 + tailBits c) * 64 +
          tailBits d)), 3)
      else (.stray a, 0)
  | _, _ => (.stray a, 0)

/-- The glyphs of a sequence of octets whose first `skip` octets belong to a glyph already read. -/
def decodeAfter : (skip : Nat) → Bytes → List Glyph
  | _, [] => []
  | skip + 1, _ :: rest => decodeAfter skip rest
  | 0, a :: rest => (firstGlyph a rest).1 :: decodeAfter (firstGlyph a rest).2 rest

/-- The glyphs of a sequence of octets: every well formed character as itself, every other octet
as a stray one. -/
def decodeBytes (bytes : Bytes) : List Glyph :=
  decodeAfter 0 bytes

/-- The characters of a list of glyphs, unless a stray octet is among them. -/
def chars? : List Glyph → Option (List Char)
  | [] => some []
  | .char c :: rest => (chars? rest).map (c :: ·)
  | .stray _ :: _ => none

/-- The text that a sequence of octets is the UTF-8 form of. -/
def ofBytes? (bytes : Bytes) : Option String :=
  (chars? (decodeBytes bytes)).map String.ofList

def toBytes (s : String) : Bytes :=
  s.toUTF8.toList

/-- Whether `later` can still complete a character that starts with the octets `start`. -/
def completes (start : Bytes) (later : UInt8) : Bool :=
  match start with
  | [a] => 2 ≤ leadLength a && mayFollow a later
  | [a, _] => 3 ≤ leadLength a && isTail later
  | [a, _, _] => leadLength a == 4 && isTail later
  | _ => false

/-- The characters of a list of glyphs with the replacement character for each maximal run of
octets that starts a character and does not finish it, and for each other stray octet. `pending`
holds the octets of the run that is open. -/
def replaceStray : (pending : Bytes) → List Glyph → List Char
  | pending, [] => if pending.isEmpty then [] else ['\uFFFD']
  | pending, .char c :: rest =>
      (if pending.isEmpty then [] else ['\uFFFD']) ++ c :: replaceStray [] rest
  | pending, .stray b :: rest =>
      if completes pending b then replaceStray (pending ++ [b]) rest
      else (if pending.isEmpty then [] else ['\uFFFD']) ++ replaceStray [b] rest

/-- The text of a sequence of octets, with replacement characters where it is not UTF-8. -/
def ofBytesLossy (bytes : Bytes) : String :=
  String.ofList (replaceStray [] (decodeBytes bytes))

end ChainAudit.Text
