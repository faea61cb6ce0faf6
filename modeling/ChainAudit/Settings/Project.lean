import ChainAudit.Json.Reader
import ChainAudit.Text.Blank
import ChainAudit.Text.Segments

/-!
# Projects in settings

A project is given by its name, with the identifier of its head if that is fixed. In a list of
projects the entries are separated by commas and written as `name` or `name=head`; blanks around
the parts do not count, and entries without a name are passed over.
-/

namespace ChainAudit
open ChainAudit.Json ChainAudit.Text

/-- A project to be audited. -/
structure Project where
  id : String
  head : Option String
  deriving DecidableEq, Repr, Inhabited

namespace Project

/-- A text that may be missing: an empty one is. -/
def nonEmpty? (cs : List Char) : Option String :=
  if cs.isEmpty then none else some (String.ofList cs)

/-- The project of an entry without blanks around it. -/
def ofTrimmed? (entry : List Char) : Option Project :=
  match cutAt? ['='] entry with
  | none => (nonEmpty? entry).map fun id => ⟨id, none⟩
  | some (id, head) => (nonEmpty? (trimChars id)).map fun id => ⟨id, nonEmpty? (trimChars head)⟩

def ofEntry? (entry : List Char) : Option Project :=
  ofTrimmed? (trimChars entry)

def ofList (list : List Char) : List Project :=
  (segments ',' list).filterMap ofEntry?

def entry (p : Project) : List Char :=
  match p.head with
  | none => p.id.toList
  | some head => p.id.toList ++ '=' :: head.toList

def toList (ps : List Project) : List Char :=
  joinWith [','] (ps.map entry)

def toValue (p : Project) : Value :=
  .object [("id", .string p.id), ("head_cid", .optional .string p.head)]

/-- Reads a project; the name must be given. -/
def read : Reader Project :=
  readRecord "ProjectConfig" [
    .mandatory "id" readString fun s p => { p with id := s },
    .optional "head_cid" (readOption readString) fun h p => { p with head := h }] ⟨"", none⟩

end Project

end ChainAudit
