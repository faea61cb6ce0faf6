import ChainAudit.Json.Tree
import ChainAudit.Json.Value

/-!
# Reading values of known types

Readers turn the tree of a document into a value of a type, in the order of the text, and stop at
the first fault they meet. What a reader has no use for it passes over, and then only its grammar
is checked. Records may be written as objects, with members in any order, or as arrays of their
fields in order of declaration. Containers nest at most 127 deep where they are read.
-/

namespace ChainAudit.Json

def badNumberFault (cut : Bool) : Fault :=
  if cut then .endInValue else .invalidNumber

def badWordFault (cut : Bool) : Fault :=
  if cut then .endInValue else .expectedWord

def absentFault (atEnd : Bool) : Fault :=
  if atEnd then .endInValue else .expectedValue

def noColonFault (atEnd : Bool) : Fault :=
  if atEnd then .endInObject else .expectedColon

/-- What the tree of a value is called where another type was due. Literals are read for that,
containers are not. -/
def Tree.found : Tree → Except Fault Found
  | .null => .ok .null
  | .bool b => .ok (.bool b)
  | .number n => n.number.map Number.found
  | .string s => s.text.map .string
  | .badNumber cut => .error (badNumberFault cut)
  | .badWord cut => .error (badWordFault cut)
  | .array _ _ => .ok .sequence
  | .object _ _ => .ok .map
  | .absent atEnd => .error (absentFault atEnd)
  | .noColon atEnd => .error (noColonFault atEnd)

def mismatch (expected : String) (t : Tree) : Except Fault α :=
  match t.found with
  | .ok f => .error (.invalidType f expected)
  | .error f => .error f

/-- The fault at the end of an array of which every value was read. -/
def Tail.arrayEnd : Tail → Except Fault Unit
  | .closed => .ok ()
  | .cut [] => .error .endInList
  | .cut [.comma] => .error .endInValue
  | .cut (.comma :: .closeArray :: _) => .error .trailingComma
  | .cut _ => .error .expectedListEnd

/-- The fault where a key is due and `rest` stands. -/
def keyFault : List Token → Fault
  | .string s :: _ =>
      match s.text with
      | .error f => f
      | .ok _ => .keyNotString
  | _ => .keyNotString

/-- The fault at the end of an object of which every member was read; `first` if it has none. -/
def Tail.objectEnd (first : Bool) : Tail → Except Fault Unit
  | .closed => .ok ()
  | .cut [] => .error .endInObject
  | .cut (t :: rest) =>
      if first then .error (keyFault (t :: rest))
      else
        match t, rest with
        | .comma, [] => .error .endInValue
        | .comma, .closeObject :: _ => .error .trailingComma
        | .comma, rest => .error (keyFault rest)
        | _, _ => .error .expectedObjectEnd

/-- The fault at the end of an array that is passed over. -/
def Tail.arraySkipped : Tail → Except Fault Unit
  | .closed => .ok ()
  | .cut [] => .error .endInList
  | .cut [.comma] => .error .endInValue
  | .cut (.comma :: _) => .error .expectedValue
  | .cut _ => .error .expectedListEnd

/-- The fault of a string literal that is passed over. -/
def StringLit.skipped (s : StringLit) : Except Fault Unit :=
  match s.ending.fault? with
  | none => .ok ()
  | some f => .error f

/-- The fault where a key is due and `rest` stands in an object that is passed over. -/
def keySkipped : List Token → Except Fault Unit
  | [] => .error .endInObject
  | .string s :: _ => s.skipped
  | _ => .error .keyNotString

/-- The fault at the end of an object that is passed over. -/
def Tail.objectSkipped (first : Bool) : Tail → Except Fault Unit
  | .closed => .ok ()
  | .cut [] => .error .endInObject
  | .cut (t :: rest) =>
      if first then keySkipped (t :: rest)
      else if t = .comma then keySkipped rest
      else .error .expectedObjectEnd

mutual

/-- Passes over a value: only the grammar is checked, at any depth. -/
def Tree.skip : Tree → Except Fault Unit
  | .null | .bool _ | .number _ => .ok ()
  | .string s => s.skipped
  | .badNumber _ => .error .invalidNumber
  | .badWord cut => .error (badWordFault cut)
  | .array items tail => do skipItems items; tail.arraySkipped
  | .object members tail => do skipMembers members; tail.objectSkipped members.isEmpty
  | .absent atEnd => .error (absentFault atEnd)
  | .noColon atEnd => .error (noColonFault atEnd)

def skipItems : List Tree → Except Fault Unit
  | [] => .ok ()
  | t :: rest => do t.skip; skipItems rest

def skipMembers : List (StringLit × Tree) → Except Fault Unit
  | [] => .ok ()
  | (k, t) :: rest => do k.skipped; t.skip; skipMembers rest

end

mutual

/-- Reads a value of any type. `depth` is one more than the number of containers that may still be
entered. -/
def Tree.value (depth : Nat) : Tree → Except Fault Value
  | .null => .ok .null
  | .bool b => .ok (.bool b)
  | .number n => n.number.map .number
  | .string s => s.text.map .string
  | .badNumber cut => .error (badNumberFault cut)
  | .badWord cut => .error (badWordFault cut)
  | .array items tail =>
      if depth ≤ 1 then .error .tooDeep
      else do
        let vs ← itemValues (depth - 1) items
        tail.arrayEnd
        return .array vs
  | .object members tail =>
      if depth ≤ 1 then .error .tooDeep
      else do
        let ms ← memberValues (depth - 1) members
        tail.objectEnd members.isEmpty
        return .object ms
  | .absent atEnd => .error (absentFault atEnd)
  | .noColon atEnd => .error (noColonFault atEnd)

def itemValues (depth : Nat) : List Tree → Except Fault (List Value)
  | [] => .ok []
  | t :: rest => do
      let v ← t.value depth
      let vs ← itemValues depth rest
      return v :: vs

def memberValues (depth : Nat) : List (StringLit × Tree) → Except Fault (List (String × Value))
  | [] => .ok []
  | (k, t) :: rest => do
      let key ← k.text
      let v ← t.value depth
      let ms ← memberValues depth rest
      return (key, v) :: ms

end

/-- A reader of a type. Its number is one more than the number of containers that may still be
entered. -/
abbrev Reader (α : Type) := Nat → Tree → Except Fault α

def readWhole (low high : Int) (expected : String) : Reader Int := fun _ t =>
  match t with
  | .number n =>
      match n.number with
      | .error f => .error f
      | .ok (.float x) => .error (.invalidType (.float x) expected)
      | .ok (.whole i) =>
          if low ≤ i ∧ i ≤ high then .ok i else .error (.invalidValue (.integer i) expected)
  | t => mismatch expected t

def readInt64 : Reader Int64 := fun depth t =>
  (readWhole Int64.minValue.toInt Int64.maxValue.toInt "i64" depth t).map Int64.ofInt

def readNat (bound : Nat) (expected : String) : Reader Nat := fun depth t =>
  (readWhole 0 (bound - 1) expected depth t).map Int.toNat

/-- Reads a double; whole numbers are taken too. -/
def readFloat : Reader Float := fun _ t =>
  match t with
  | .number n => n.number.map Number.toFloat
  | t => mismatch "f64" t

def readString : Reader String := fun _ t =>
  match t with
  | .string s => s.text
  | t => mismatch "a string" t

def readBool : Reader Bool := fun _ t =>
  match t with
  | .bool b => .ok b
  | t => mismatch "a boolean" t

/-- Reads null as nothing and everything else as a value. -/
def readOption (r : Reader α) : Reader (Option α) := fun depth t =>
  match t with
  | .null => .ok none
  | t => (r depth t).map some

def readItems (r : Reader α) (depth : Nat) : List Tree → Except Fault (List α)
  | [] => .ok []
  | t :: rest => do
      let a ← r depth t
      let as ← readItems r depth rest
      return a :: as

def readList (r : Reader α) : Reader (List α) := fun depth t =>
  match t with
  | .array items tail =>
      if depth ≤ 1 then .error .tooDeep
      else do
        let as ← readItems r (depth - 1) items
        tail.arrayEnd
        return as
  | t => mismatch "a sequence" t

def readMap : Reader (List (String × Value)) := fun depth t =>
  match t with
  | .object members tail =>
      if depth ≤ 1 then .error .tooDeep
      else do
        let ms ← memberValues (depth - 1) members
        tail.objectEnd members.isEmpty
        return ms
  | t => mismatch "a map" t

/-- A field of a record: its name, whether it must be given, and how it is read into the record. -/
structure Field (σ : Type) where
  name : String
  required : Bool
  read : Nat → Tree → σ → Except Fault σ

/-- A field that keeps its initial content when it is not given. -/
def Field.optional (name : String) (r : Reader α) (set : α → σ → σ) : Field σ :=
  ⟨name, false, fun depth t s => (r depth t).map fun a => set a s⟩

/-- A field that must be given. -/
def Field.mandatory (name : String) (r : Reader α) (set : α → σ → σ) : Field σ :=
  ⟨name, true, fun depth t s => (r depth t).map fun a => set a s⟩

/-- Reads the members of a record. `seen` holds the names of the fields read so far; a known name
may not come twice, an unknown one is passed over. -/
def readMembers (fields : List (Field σ)) (depth : Nat) :
    List (StringLit × Tree) → (record : σ) → (seen : List String) →
    Except Fault (σ × List String)
  | [], record, seen => .ok (record, seen)
  | (k, t) :: rest, record, seen => do
      let name ← k.text
      match fields.find? (·.name == name) with
      | none =>
          t.skip
          readMembers fields depth rest record seen
      | some f =>
          if seen.contains name then
            .error (.duplicateField name)
          else do
            let record ← f.read depth t record
            readMembers fields depth rest record (name :: seen)

def missingField? (fields : List (Field σ)) (seen : List String) : Option (Field σ) :=
  fields.find? fun f => f.required && !seen.contains f.name

/-- Reads the fields of a record in order from the values of an array, and returns the values left
over. -/
def readPositions (expected : String) (tail : Tail) (depth : Nat) :
    (position : Nat) → List (Field σ) → List Tree → σ → Except Fault (σ × List Tree)
  | _, [], rest, record => .ok (record, rest)
  | position, f :: fields, t :: rest, record => do
      let record ← f.read depth t record
      readPositions expected tail depth (position + 1) fields rest record
  | position, f :: fields, [], record =>
      match tail.arrayEnd with
      | .error e => .error e
      | .ok () =>
          if f.required then .error (.invalidLength position expected)
          else readPositions expected tail depth (position + 1) fields [] record

/-- The fault at the end of an array of which as many values were read as a record has fields. -/
def Tail.recordEnd : List Tree → Tail → Except Fault Unit
  | _ :: _, _ => .error .trailingCharacters
  | [], .closed => .ok ()
  | [], .cut [] => .error .endInList
  | [], .cut (.comma :: .closeArray :: _) => .error .trailingComma
  | [], .cut _ => .error .trailingCharacters

/-- Reads a record called `name`, starting from its initial content. -/
def readRecord (name : String) (fields : List (Field σ)) (initial : σ) : Reader σ := fun depth t =>
  match t with
  | .object members tail =>
      if depth ≤ 1 then .error .tooDeep
      else do
        let (record, seen) ← readMembers fields (depth - 1) members initial []
        tail.objectEnd members.isEmpty
        match missingField? fields seen with
        | some f => .error (.missingField f.name)
        | none => return record
  | .array items tail =>
      if depth ≤ 1 then .error .tooDeep
      else do
        let expected := "struct " ++ name ++ " with " ++
          String.ofList (Text.writeNumber fields.length) ++
          (if fields.length = 1 then " element" else " elements")
        let (record, rest) ← readPositions expected tail (depth - 1) 0 fields items initial
        Tail.recordEnd rest tail
        return record
  | t => mismatch ("struct " ++ name) t

def variantOf (variants : List (String × α)) (name : String) : Except Fault α :=
  match variants.find? (·.1 == name) with
  | some (_, a) => .ok a
  | none => .error (.unknownVariant name (variants.map (·.1)))

/-- The fault where the name of a variant is due. -/
def variantFault : Tail → Fault
  | .closed => .expectedValue
  | .cut [] => .endInValue
  | .cut (t :: _) =>
      let tree : Tree := match t with
        | .openArray => .array [] .closed
        | .openObject => .object [] .closed
        | t => t.leaf?.getD (.absent false)
      match tree.found with
      | .ok f => .invalidType f "variant identifier"
      | .error f => f

/-- Reads one of several names, written as a text or as the only key of an object whose value is
null. -/
def readVariant (variants : List (String × α)) : Reader α := fun depth t =>
  match t with
  | .string s => do variantOf variants (← s.text)
  | .object members tail =>
      if depth ≤ 1 then .error .tooDeep
      else
        match members with
        | [] => .error (variantFault tail)
        | (k, v) :: more => do
            let a ← variantOf variants (← k.text)
            match v with
            | .null => pure ()
            | v => mismatch "unit" v
            match more, tail with
            | [], .closed => return a
            | [], .cut [] => .error .endInObject
            | _, _ => .error .expectedValue
  | .absent true => .error .endInValue
  | .noColon atEnd => .error (noColonFault atEnd)
  | _ => .error .expectedValue

/-- One more than the number of containers that may be open at a time. -/
def depthLimit : Nat := 128

def decode (r : Reader α) (text : List Text.Glyph) : Except Fault α := do
  let (tree, rest) := treeOf (tokens text)
  let a ← r depthLimit tree
  if rest.isEmpty then return a else .error .trailingCharacters

def decodeText (r : Reader α) (text : String) : Except Fault α :=
  decode r (Text.glyphs text)

def decodeBytes (r : Reader α) (bytes : Text.Bytes) : Except Fault α :=
  decode r (Text.decodeBytes bytes)

def readValueOf : Reader Value := Tree.value

end ChainAudit.Json
