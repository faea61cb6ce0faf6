import ChainAudit.Text.Letters
import ChainAudit.Text.Numeral
import ChainAudit.Text.Segments
import ChainAudit.Text.Utf8

/-!
# URLs

The URLs that requests are sent to, which are those of the web. A text is taken apart into scheme,
authority, path, query and fragment; the parts are brought to one form: letters of the scheme and
the host are small, the port is left out where it is the usual one, dots are resolved in the path,
and characters that may not stand in a part are written as a percent sign and two hexadecimal
digits for each octet. Names and passwords are dropped.
-/

namespace ChainAudit.Http
open ChainAudit.Text

structure Url where
  scheme : List Char
  authority : List Char
  path : List Char
  query : Option (List Char)
  fragment : Option (List Char)
  deriving DecidableEq, Repr, Inhabited

/-- Why requests cannot be sent to what a text stands for. -/
inductive UrlError where
  | malformed
  /-- A URL, but not one of the web. -/
  | foreign (url : String)
  deriving DecidableEq, Repr, Inhabited

def Url.write (u : Url) : String :=
  String.ofList <|
    u.scheme ++ "://".toList ++ u.authority ++ u.path ++
      (match u.query with
        | none => []
        | some q => '?' :: q) ++
      (match u.fragment with
        | none => []
        | some f => '#' :: f)

/-- A hexadecimal digit, a capital letter above nine. -/
def hexCapital (n : Nat) : Char :=
  if n < 10 then Char.ofNat ('0'.toNat + n) else Char.ofNat ('A'.toNat + n - 10)

def percentOctet (b : UInt8) : List Char :=
  ['%', hexCapital (b.toNat / 16), hexCapital (b.toNat % 16)]

def percentChar (c : Char) : List Char :=
  (toBytes (String.singleton c)).flatMap percentOctet

/-- A text whose characters of a class are written with percent signs. -/
def percentEncode (escaped : Char → Bool) (cs : List Char) : List Char :=
  cs.flatMap fun c => if escaped c then percentChar c else [c]

/-- Characters that stand in no part of a URL. -/
def neverPlain (c : Char) : Bool :=
  c.toNat ≤ 0x20 || 0x7F ≤ c.toNat || "\"<>".toList.contains c

def escapedInPath (c : Char) : Bool :=
  neverPlain c || "\x60#?\x7b\x7d".toList.contains c

def escapedInQuery (c : Char) : Bool :=
  neverPlain c || "#\x27".toList.contains c

def escapedInFragment (c : Char) : Bool :=
  neverPlain c || c == '\x60'

def plainInForm (c : Char) : Bool :=
  ('a' ≤ c && c ≤ 'z') || ('A' ≤ c && c ≤ 'Z') || isDigit c || "*-._".toList.contains c

/-- A value of a form: a blank is a plus sign. -/
def formEncode (cs : List Char) : List Char :=
  cs.flatMap fun c =>
    if c = ' ' then ['+'] else if plainInForm c then [c] else percentChar c

/-- A URL with a name and a value added to its query. -/
def Url.withPair (name value : String) (u : Url) : Url :=
  let pair := formEncode name.toList ++ '=' :: formEncode value.toList
  { u with query := some (match u.query with
      | none | some [] => pair
      | some q => q ++ '&' :: pair) }

/-- What stands before the first character of a class, and the rest from there. -/
def splitBefore (p : Char → Bool) (cs : List Char) : List Char × List Char :=
  (cs.takeWhile fun c => !p c, cs.dropWhile fun c => !p c)

/-- A segment that stands for its own directory. -/
def isDot (s : List Char) : Bool :=
  [".", "%2e"].any fun d => d.toList == s.map lowerAscii

/-- A segment that stands for the directory above. -/
def isDoubleDot (s : List Char) : Bool :=
  ["..", ".%2e", "%2e.", "%2e%2e"].any fun d => d.toList == s.map lowerAscii

/-- The segments of a path with dots resolved; `above` holds those before, the last one first. -/
def resolveDots (above : List (List Char)) : List (List Char) → List (List Char)
  | [] => above.reverse
  | [s] =>
      if isDoubleDot s then (([] : List Char) :: above.tail).reverse
      else if isDot s then (([] : List Char) :: above).reverse
      else (s :: above).reverse
  | s :: rest =>
      if isDoubleDot s then resolveDots above.tail rest
      else if isDot s then resolveDots above rest
      else resolveDots (s :: above) rest

def pathOf (cs : List Char) : List Char :=
  let slashed := cs.map fun c => if c = '\\' then '/' else c
  let relative := match slashed with
    | '/' :: rest => rest
    | other => other
  let resolved := resolveDots [] (segments '/' relative)
  '/' :: joinWith ['/'] (resolved.map (percentEncode escapedInPath))

/-- The schemes whose URLs name a host, and the port that each uses if none is given. -/
def hostSchemes : List (String × Nat) :=
  [("http", 80), ("https", 443), ("ws", 80), ("wss", 443), ("ftp", 21)]

def usualPort? (scheme : List Char) : Option Nat :=
  (hostSchemes.find? fun s => s.1.toList == scheme).map (·.2)

def Url.isWeb (u : Url) : Bool :=
  u.scheme == "http".toList || u.scheme == "https".toList

/-- Host and port of an authority: the port is what follows the last colon outside brackets. -/
def splitPort (authority : List Char) : List Char × List Char :=
  let backwards := authority.reverse
  match splitBefore (fun c => c == ':' || c == ']') backwards with
  | (port, ':' :: host) => (host.reverse, port.reverse)
  | _ => (authority, [])

def barredInHost (c : Char) : Bool :=
  c.toNat ≤ 0x20 || c == '\x7f' || "#%/<>?@\\^|\x60\"\x7b\x7d".toList.contains c

/-- Whether a text can be the name or the address of a host; the latter may stand in brackets. Only
its characters are looked at, not the numbers in an address. -/
def isHost (host : List Char) : Bool :=
  let bare := match host with
    | '[' :: rest => if rest.getLast? = some ']' then rest.dropLast else host
    | other => other
  !bare.isEmpty && !bare.any fun c => barredInHost c || c == '[' || c == ']'

/-- The authority in its one form: without credentials, with a small host. -/
def authorityOf? (scheme authority : List Char) : Option (List Char) :=
  let bare := (segments '@' authority).getLast?.getD []
  let (host, port) := splitPort bare
  if !isHost host then none
  else
    let small := host.map lowerAscii
    match port with
    | [] => some small
    | digits =>
        if !isNumeral digits then none
        else
          let n := numberOfDigits digits
          if bound16 ≤ n then none
          else if usualPort? scheme = some n then some small
          else some (small ++ ':' :: writeNumber n)

/-- The scheme of a URL and what follows its colon. -/
def schemeOf? (cs : List Char) : Option (List Char × List Char) :=
  let isLetter (c : Char) : Bool := ('a' ≤ c && c ≤ 'z') || ('A' ≤ c && c ≤ 'Z')
  match cutAt? [':'] cs with
  | some (c :: scheme, rest) =>
      if isLetter c && scheme.all (fun c => isLetter c || isDigit c || "+-.".toList.contains c) then
        some ((c :: scheme).map lowerAscii, rest)
      else none
  | _ => none

/-- Characters that a URL may be surrounded by. -/
def isMargin (c : Char) : Bool := c.toNat ≤ 0x20

def Url.parse (text : String) : Except UrlError Url :=
  let trimmed := dropEndWhile isMargin (text.toList.dropWhile isMargin)
  let cs := trimmed.filter fun c => !("\t\n\r".toList.contains c)
  match schemeOf? cs with
  | none => .error .malformed
  | some (scheme, rest) =>
      if (usualPort? scheme).isNone then
        .error (.foreign (String.ofList (scheme ++ ':' :: rest)))
      else
        let (beforeFragment, fragment) := splitBefore (· == '#') rest
        let (beforeQuery, query) := splitBefore (· == '?') beforeFragment
        let isSlash (c : Char) : Bool := c == '/' || c == '\\'
        let (authority, path) := splitBefore isSlash (beforeQuery.dropWhile isSlash)
        match authorityOf? scheme authority with
        | none => .error .malformed
        | some authority => .ok {
            scheme := scheme
            authority := authority
            path := pathOf path
            query := match query with
              | [] => none
              | _ :: q => some (percentEncode escapedInQuery q)
            fragment := match fragment with
              | [] => none
              | _ :: f => some (percentEncode escapedInFragment f) }

end ChainAudit.Http
