import ChainAudit.Proofs.Json.Objects
import ChainAudit.Proofs.Json.Trees

/-!
# Values that readers give back

What the readers of the single types make of the tree of a value. A record is given back field by
field: where the members of an object stand in the order of the fields and every one of them fills
its field, reading the object fills the record.
-/

namespace ChainAudit.Json

open ChainAudit.Text

section Scalars

variable {depth : Nat}

theorem readWhole_tree {low high i : Int} (hi : Fits64 i) (hlow : low ≤ i) (hhigh : i ≤ high)
    (expected : String) : readWhole low high expected depth (Value.int i).tree = .ok i := by
  simp only [Value.int, Value.tree, readWhole, number_wholeLit hi]
  rw [if_pos ⟨hlow, hhigh⟩]

theorem readInt64_tree (h : Int64) : readInt64 depth (Value.int h.toInt).tree = .ok h := by
  have hlow := h.minValue_le_toInt
  have hhigh := h.toInt_le
  have hfits : Fits64 h.toInt := by
    have hge := h.le_toInt
    have hlt := h.toInt_lt
    constructor <;> omega
  rw [readInt64, readWhole_tree hfits hlow hhigh]
  exact congrArg Except.ok (Int64.ofInt_toInt h)

theorem readNat_tree {bound n : Nat} (hbound : bound ≤ bound64) (hn : n < bound)
    (expected : String) : readNat bound expected depth (Value.nat n).tree = .ok n := by
  have hfits : Fits64 n := by
    unfold bound64 at hbound
    constructor <;> omega
  rw [readNat]
  change (readWhole 0 (bound - 1) expected depth (Value.int n).tree).map Int.toNat = _
  rw [readWhole_tree hfits (by omega) (by omega)]
  rfl

theorem readString_tree (s : String) : readString depth (Value.string s).tree = .ok s :=
  text_textLit s

theorem readBool_tree (b : Bool) : readBool depth (Value.bool b).tree = .ok b := rfl

theorem readVariant_tree (variants : List (String × α)) (name : String) :
    readVariant variants depth (Value.string name).tree = variantOf variants name := by
  simp only [Value.tree, readVariant, text_textLit]
  rfl

theorem readList_tree {r : Reader α} {f : α → Value} (hdepth : 1 < depth)
    (hr : ∀ a, r (depth - 1) (f a).tree = .ok a) (as : List α) :
    readList r depth (Value.array (as.map f)).tree = .ok as := by
  have hitems : readItems r (depth - 1) (itemTrees (as.map f)) = .ok as := by
    induction as with
    | nil => rfl
    | cons a as ih =>
      rw [List.map_cons, itemTrees, readItems, hr, ih]
      rfl
  rw [Value.tree, readList, if_neg (Nat.not_le_of_lt hdepth), hitems]
  rfl

theorem exactItems_map {f : α → Value} (hf : ∀ a, (f a).Exact) (as : List α) :
    ExactItems (as.map f) := by
  induction as with
  | nil => exact trivial
  | cons a as ih => exact ⟨hf a, ih⟩

end Scalars

section Records

/-- The members fill the fields one after the other and turn the record `s` into `s'`. -/
inductive Fills (depth : Nat) : List (Field σ) → List (String × Value) → σ → σ → Prop
  | nil {s} : Fills depth [] [] s s
  | cons {f fields v members s t s'} (hread : f.read depth v.tree s = .ok t)
      (hrest : Fills depth fields members t s') :
      Fills depth (f :: fields) ((f.name, v) :: members) s s'

variable {depth : Nat} {fields : List (Field σ)} {members : List (String × Value)}
variable {name : String} {r : Reader α} {set : α → σ → σ} {v : Value} {a : α} {s s' : σ}

theorem Fills.mandatory (hread : r depth v.tree = .ok a)
    (hrest : Fills depth fields members (set a s) s') :
    Fills depth (.mandatory name r set :: fields) ((name, v) :: members) s s' := by
  refine .cons ?_ hrest
  simp only [Field.mandatory, hread]
  rfl

theorem Fills.optional (hread : r depth v.tree = .ok a)
    (hrest : Fills depth fields members (set a s) s') :
    Fills depth (.optional name r set :: fields) ((name, v) :: members) s s' :=
  .cons (Field.read_optional.mpr ⟨a, hread, rfl⟩) hrest

private theorem readMembers_fills {all : List (Field σ)} {seen : List String}
    (hfills : Fills depth fields members s s')
    (hfind : ∀ f ∈ fields, all.find? (·.name == f.name) = some f)
    (hnodup : (fields.map (·.name)).Nodup) (hseen : ∀ f ∈ fields, f.name ∉ seen) :
    readMembers all depth (memberTrees members) s seen =
      .ok (s', (fields.map (·.name)).reverse ++ seen) := by
  induction hfills generalizing seen with
  | nil => rfl
  | @cons f fields v members s t s' hread _ ih =>
    obtain ⟨hnew, hnodup⟩ := List.nodup_cons.mp hnodup
    have hlater : ∀ g ∈ fields, g.name ∉ f.name :: seen := by
      intro g hg hmem
      rcases List.mem_cons.mp hmem with heq | hmem
      · exact hnew (List.mem_map.mpr ⟨g, hg, heq⟩)
      · exact hseen g (List.mem_cons_of_mem f hg) hmem
    have hrest := ih (fun g hg => hfind g (List.mem_cons_of_mem f hg)) hnodup hlater
    have hfirst : seen.contains f.name = false := by
      simpa using hseen f List.mem_cons_self
    rw [memberTrees, readMembers, text_textLit]
    simp only [bind, Except.bind, hfind f List.mem_cons_self, hfirst, hread]
    simpa using hrest

theorem readRecord_tree {expected : String} (hdepth : 1 < depth)
    (hnodup : (fields.map (·.name)).Nodup) (hfills : Fills (depth - 1) fields members s s') :
    readRecord expected fields s depth (Value.object members).tree = .ok s' := by
  have hread := readMembers_fills hfills (fun f hf => find?_field hnodup hf) hnodup
    (fun f _ => List.not_mem_nil)
  have hmissing : missingField? fields ((fields.map (·.name)).reverse ++ []) = none := by
    rw [missingField?, List.find?_eq_none]
    intro f hf
    have hseen : f.name ∈ fields.map (·.name) := List.mem_map_of_mem hf
    simp [hseen]
  rw [Value.tree, readRecord, if_neg (Nat.not_le_of_lt hdepth), hread]
  simp only [bind, Except.bind, Tail.objectEnd, hmissing]
  rfl

end Records

end ChainAudit.Json
