import ChainAudit.Json.Value

/-!
# Canonical values

Objects whose members have different names in ascending order. Of several members with one name
the last counts, so a value and its canonical form mean the same.
-/

namespace ChainAudit.Json

/-- Members in ascending order with one more member, unless its name is taken. -/
def insertMember (name : String) (v : Value) : List (String × Value) → List (String × Value)
  | [] => [(name, v)]
  | (k, w) :: rest =>
      if name < k then (name, v) :: (k, w) :: rest
      else if name = k then (k, w) :: rest
      else (k, w) :: insertMember name v rest

mutual

def Value.canonical : Value → Value
  | .array items => .array (canonicalItems items)
  | .object members => .object (canonicalMembers members)
  | .null => .null
  | .bool b => .bool b
  | .number n => .number n
  | .string s => .string s

def canonicalItems : List Value → List Value
  | [] => []
  | v :: rest => v.canonical :: canonicalItems rest

def canonicalMembers : List (String × Value) → List (String × Value)
  | [] => []
  | (k, v) :: rest => insertMember k v.canonical (canonicalMembers rest)

end

end ChainAudit.Json
