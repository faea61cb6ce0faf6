import ChainAudit.Text.Numeral
import ChainAudit.Text.Segments

/-!
# Addresses of stores

A store is addressed by a URL or by a path of segments such as `/dns/ipfs/tcp/5001`. Paths are
turned into URLs; everything else is taken as it is.
-/

namespace ChainAudit.Address
open ChainAudit.Text

/-- Why a path is not the address of a store. -/
inductive AddressError where
  | emptySegment (address : String)
  | unsupportedProtocol (protocol address : String)
  | invalidPort (port address : String)
  | unrecognized (address : String)
  deriving DecidableEq, Repr, Inhabited

def AddressError.message : AddressError → String
  | .emptySegment address => "Empty segment in store address: " ++ address
  | .unsupportedProtocol protocol address =>
      "Unsupported protocol '" ++ protocol ++ "' in store address: " ++ address
  | .invalidPort port address => "Invalid port '" ++ port ++ "' in store address: " ++ address
  | .unrecognized address => "Unrecognized store address: " ++ address

/-- The parts of a path. The scheme is `http` where the path does not name one. -/
structure Path where
  protocol : List Char
  host : List Char
  transport : List Char
  port : List Char
  scheme : List Char

def Path.ofSegments? : List (List Char) → Option Path
  | [protocol, host, transport, port] => some ⟨protocol, host, transport, port, "http".toList⟩
  | [protocol, host, transport, port, scheme] => some ⟨protocol, host, transport, port, scheme⟩
  | _ => none

/-- The host of a URL: addresses of the sixth version stand in brackets. -/
def hostOf? (protocol host : List Char) : Option (List Char) :=
  if ["dns".toList, "dns4".toList, "dns6".toList, "ip4".toList].contains protocol then some host
  else if protocol = "ip6".toList then some ('[' :: host ++ [']'])
  else none

/-- Whether a scheme is one a store can be reached by. -/
def isScheme (scheme : List Char) : Bool :=
  scheme == "http".toList || scheme == "https".toList

/-- The URL of a path. The port is kept as it is written. -/
def Path.toUrl (address : String) (p : Path) : Except AddressError String :=
  if p.transport ≠ "tcp".toList then .error (.unrecognized address)
  else if !isScheme p.scheme then .error (.unrecognized address)
  else
    match hostOf? p.protocol p.host with
    | none => .error (.unsupportedProtocol (String.ofList p.protocol) address)
    | some host =>
        match readNumber? bound16 p.port with
        | none => .error (.invalidPort (String.ofList p.port) address)
        | some _ => .ok (String.ofList (p.scheme ++ "://".toList ++ host ++ ':' :: p.port))

/-- The base URL of a store. -/
def normalize (address : String) : Except AddressError String :=
  match address.toList with
  | '/' :: rest =>
      let segments := segments '/' rest
      if segments.any List.isEmpty then .error (.emptySegment address)
      else
        match Path.ofSegments? segments with
        | none => .error (.unrecognized address)
        | some path => path.toUrl address
  | _ => .ok address

end ChainAudit.Address
