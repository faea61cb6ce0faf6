/-!
# Tables

Values stored under names. A name is stored at most once by the operations here; the order of the
entries carries no meaning.
-/

namespace ChainAudit

/-- Values under names. -/
abbrev Table (α : Type) := List (String × α)

namespace Table

def get? (name : String) (t : Table α) : Option α :=
  (t.find? (·.1 == name)).map (·.2)

/-- The table with a value stored under a name, in place of the one that was there. -/
def put (name : String) (a : α) : Table α → Table α
  | [] => [(name, a)]
  | (k, b) :: rest => if k == name then (name, a) :: rest else (k, b) :: put name a rest

def names (t : Table α) : List String := t.map (·.1)

end Table

end ChainAudit
