import ChainAudit.Proofs.Json.Forms

/-!
# Documents around a value

What a document holds beside one of its values stays as it is when that value is replaced, left out
or added. So if the document is read as a record, no other slot notices, whatever the order of the
members and whether the record is an object or an array.
-/

namespace ChainAudit.Json

/-- What a document consists of but for one of its values. -/
inductive Around where
  | members (front back : List (StringLit × Tree))
  | items (front back : List Tree)

/-- The documents with the same surroundings of a value that is a member under a name or an item in
a place, or that is not given. -/
inductive Around.Holds (name : String) (place : Nat) : Around → Option Tree → Tree → Prop
  | member {front back : List (StringLit × Tree)} {k : StringLit} {t : Tree}
      (hname : k.text = .ok name) (hothers : ∀ m ∈ front ++ back, m.1.text ≠ .ok name) :
      Holds name place (.members front back) (some t) (.object (front ++ (k, t) :: back) .closed)
  | noMember {front back : List (StringLit × Tree)}
      (hothers : ∀ m ∈ front ++ back, m.1.text ≠ .ok name) :
      Holds name place (.members front back) none (.object (front ++ back) .closed)
  | item {front back : List Tree} {t : Tree} (hplace : front.length = place) :
      Holds name place (.items front back) (some t) (.array (front ++ t :: back) .closed)
  | noItem {front : List Tree} (hplace : front.length = place) :
      Holds name place (.items front []) none (.array front .closed)

/-- What is in a slot for which this value is given, if any. -/
def Slot.Takes (p : Slot σ) (depth : Nat) : Option Tree → p.content → Prop
  | none, a => a = p.empty
  | some t, a => p.reader depth t = .ok a

/-- The value for a slot as an entry, if it is given. -/
def Slot.entry (p : Slot σ) (value : Option Tree) : List (Slot σ × Tree) :=
  value.toList.map fun t => (p, t)

namespace Form

/-- The values of a document that are entered beside the one that it surrounds. -/
def others (F : Form σ) : Around → List (Slot σ × Tree)
  | .members front back => F.entries (front ++ back)
  | .items front back =>
      (F.slots.take front.length).zip front ++ (F.slots.drop (front.length + 1)).zip back

/-- All is well with the surroundings of a value, apart from what is entered. -/
def Admits (F : Form σ) : Around → Prop
  | .members front back => F.Fits (front ++ back)
  | .items front back => front.length + back.length < F.slots.length ∧
      ∀ p ∈ F.slots.drop (front.length + back.length + 1), p.required = false

variable {F : Form σ} {depth place : Nat} {name : String} {p : Slot σ} {s s' : σ}
variable {around : Around} {value value' : Option Tree} {doc doc' : Tree}
variable {ps : List (Slot σ × Tree)}

private theorem entered_anew (hp : p ∈ F.slots) (hapart : ∀ x ∈ ps, p.Apart x.1)
    (h : Entered depth (p.entry value ++ ps) F.blank s) {a : p.content}
    (ha : p.Takes depth value' a) : Entered depth (p.entry value' ++ ps) F.blank (p.put a s) := by
  -- filled anew, the slot is first left empty: that undoes whatever was read from the old value
  have hempty : Entered depth ps F.blank (p.put p.empty s) := by
    cases value with
    | none =>
      have hput := Entered.put h hapart p.empty
      rwa [F.starts p hp] at hput
    | some t => exact entered_rest hp hapart h
  cases value' with
  | none =>
    obtain rfl : a = p.empty := ha
    exact hempty
  | some t =>
    have hput := hempty.put hapart a
    rw [F.replaces p hp] at hput
    exact .cons ha hput

private theorem takes_of_entered (h : Entered depth (p.entry value ++ ps) s s') :
    ∃ a, p.Takes depth value a := by
  cases value with
  | none => exact ⟨p.empty, rfl⟩
  | some t =>
    obtain ⟨a, hread, -⟩ := entered_cons_iff.mp h
    exact ⟨a, hread⟩

private theorem slots_eq (hplace : F.slots[place]? = some p) :
    F.slots = F.slots.take place ++ p :: F.slots.drop (place + 1) := by
  obtain ⟨hlt, rfl⟩ := List.getElem?_eq_some_iff.mp hplace
  rw [List.getElem_cons_drop, List.take_append_drop]

private theorem others_apart (hplace : F.slots[place]? = some p)
    (h : around.Holds p.name place value doc) : ∀ x ∈ F.others around, p.Apart x.1 := by
  have hp : p ∈ F.slots := List.mem_of_getElem? hplace
  have hmembers : ∀ {members : List (StringLit × Tree)}, (∀ m ∈ members, m.1.text ≠ .ok p.name) →
      ∀ x ∈ F.entries members, p.Apart x.1 := by
    intro members hothers x hx
    obtain ⟨hslot, m, hm, hname, -⟩ := mem_slots_of_mem_entries hx
    exact apart_of_ne hp hslot fun hsame => hothers m hm (hsame ▸ hname)
  have hitems : ∀ x ∈ F.slots.take place ++ F.slots.drop (place + 1), p.Apart x := by
    have hslots := slots_eq hplace
    have hpairs := F.apart
    rw [hslots, List.pairwise_append, List.pairwise_cons] at hpairs
    obtain ⟨-, ⟨hback, -⟩, hfront⟩ := hpairs
    exact List.forall_mem_append.mpr
      ⟨fun x hx => Std.Symm.symm _ _ (hfront x hx p List.mem_cons_self), hback⟩
  cases h with
  | member _ hothers => exact hmembers hothers
  | noMember hothers => exact hmembers hothers
  | item hlen | noItem hlen =>
    intro x hx
    subst hlen
    apply hitems
    rcases List.mem_append.mp hx with hx | hx
    · exact List.mem_append_left _ (List.of_mem_zip hx).1
    · exact List.mem_append_right _ (List.of_mem_zip hx).1

private theorem read_member_iff {front back : List (StringLit × Tree)} {k : StringLit} {t : Tree}
    (hslot : F.slot? k = some p) (hr : p.required = false)
    (hothers : ∀ m ∈ front ++ back, m.1.text ≠ .ok p.name) :
    F.read name depth (.object (front ++ (k, t) :: back) .closed) = .ok s ↔
      1 < depth ∧ F.Fits (front ++ back) ∧
        Entered (depth - 1) ((p, t) :: F.entries (front ++ back)) F.blank s := by
  have hperm : (front ++ (k, t) :: back).Perm ((k, t) :: (front ++ back)) := List.perm_middle
  have hnew : p.name ∉ F.entered (front ++ back) := by
    intro hmem
    obtain ⟨m, hm, hname⟩ := (name_mem_entered_iff (slot?_eq_some_iff.mp hslot).1).mp hmem
    exact hothers m hm hname
  have hread : F.read name depth (.object (front ++ (k, t) :: back) .closed) = .ok s ↔
      F.read name depth (.object ((k, t) :: (front ++ back)) .closed) = .ok s :=
    ⟨fun h => read_perm h hperm, fun h => read_perm h hperm.symm⟩
  rw [hread, read_object_iff, fits_cons_some hslot hr hnew, entries_cons_some hslot]

private theorem pairwise_zip {slots : List (Slot σ)} (hapart : slots.Pairwise Slot.Apart)
    (items : List Tree) : (slots.zip items).Pairwise fun x y => x.1.Apart y.1 := by
  induction slots generalizing items with
  | nil => exact .nil
  | cons p slots ih =>
    obtain ⟨hp, hapart⟩ := List.pairwise_cons.mp hapart
    cases items with
    | nil => exact .nil
    | cons t items =>
      rw [List.zip_cons_cons]
      exact List.pairwise_cons.mpr ⟨fun x hx => hp _ (List.of_mem_zip hx).1, ih hapart items⟩

private theorem read_item_iff {front back : List Tree} {t : Tree}
    (hplace : F.slots[front.length]? = some p) :
    F.read name depth (.array (front ++ t :: back) .closed) = .ok s ↔
      1 < depth ∧ F.Admits (.items front back) ∧
        Entered (depth - 1) ((p, t) :: F.others (.items front back)) F.blank s := by
  have hslots := slots_eq hplace
  have hlt : front.length < F.slots.length := (List.getElem?_eq_some_iff.mp hplace).1
  have hzip : F.slots.zip (front ++ t :: back) = (F.slots.take front.length).zip front ++
      (p, t) :: (F.slots.drop (front.length + 1)).zip back := by
    conv_lhs => rw [hslots]
    rw [List.zip_append (by simp [Nat.le_of_lt hlt]), List.zip_cons_cons]
  -- the values are entered in order of their places, but the slots are apart
  have hperm :
      (F.slots.zip (front ++ t :: back)).Perm ((p, t) :: F.others (.items front back)) := by
    rw [hzip]
    exact List.perm_middle
  rw [read_array_iff, entered_perm_iff hperm (pairwise_zip F.apart _)]
  simp only [List.length_append, List.length_cons, Admits, and_assoc]
  rfl

private theorem read_short_iff {front : List Tree} (hplace : F.slots[front.length]? = some p)
    (hr : p.required = false) : F.read name depth (.array front .closed) = .ok s ↔
      1 < depth ∧ F.Admits (.items front []) ∧
        Entered (depth - 1) (F.others (.items front [])) F.blank s := by
  obtain ⟨hlt, hp⟩ := List.getElem?_eq_some_iff.mp hplace
  have hempty : (∀ q ∈ F.slots.drop front.length, q.required = false) ↔
      ∀ q ∈ F.slots.drop (front.length + 1), q.required = false := by
    rw [List.drop_eq_getElem_cons hlt, hp, List.forall_mem_cons]
    exact and_iff_right hr
  have hzip : F.slots.zip front = F.others (.items front []) := by
    conv_lhs => rw [← List.take_append_drop front.length F.slots, ← List.append_nil front]
    rw [List.zip_append (by simp [Nat.le_of_lt hlt])]
    simp [others]
  rw [read_array_iff, hempty, hzip]
  simp [Admits, hlt, Nat.le_of_lt hlt]

/-- A document is read as a record if all is well with the surroundings of a value for a slot, and
the value fills the slot beside the others. -/
theorem read_holds_iff (hplace : F.slots[place]? = some p) (hr : p.required = false)
    (h : around.Holds p.name place value doc) : F.read name depth doc = .ok s ↔
      1 < depth ∧ F.Admits around ∧
        Entered (depth - 1) (p.entry value ++ F.others around) F.blank s := by
  cases h with
  | member hname hothers =>
    exact read_member_iff (slot?_eq_some_iff.mpr ⟨List.mem_of_getElem? hplace, hname⟩) hr hothers
  | noMember => exact read_object_iff
  | item hlen =>
    subst hlen
    exact read_item_iff hplace
  | noItem hlen =>
    subst hlen
    exact read_short_iff hplace hr

private theorem exists_holds_object {members : List (StringLit × Tree)} (hp : p ∈ F.slots)
    (h : F.read name depth (.object members .closed) = .ok s) :
    ∃ around value, Around.Holds p.name place around value (.object members .closed) := by
  by_cases hgiven : ∃ m ∈ members, m.1.text = .ok p.name
  · obtain ⟨⟨k, t⟩, hm, hname⟩ := hgiven
    obtain ⟨front, back, rfl⟩ := List.append_of_mem hm
    have hperm : (front ++ (k, t) :: back).Perm ((k, t) :: (front ++ back)) := List.perm_middle
    have honce := (read_object_iff.mp (read_perm h hperm)).2.1.sorts.once
    rw [entered_cons_some (slot?_eq_some_iff.mpr ⟨hp, hname⟩)] at honce
    have hnew : p.name ∉ F.entered (front ++ back) := (List.nodup_cons.mp honce).1
    refine ⟨_, _, .member hname fun m hm hname => hnew ?_⟩
    exact (name_mem_entered_iff hp).mpr ⟨m, hm, hname⟩
  · refine ⟨.members members [], none, ?_⟩
    have hothers : ∀ m ∈ members ++ [], m.1.text ≠ .ok p.name :=
      fun m hm hname => hgiven ⟨m, by simpa using hm, hname⟩
    have hholds := @Around.Holds.noMember p.name place members [] hothers
    rwa [List.append_nil] at hholds

private theorem exists_holds_array {items : List Tree} (hlen : place ≤ items.length) :
    ∃ around value, Around.Holds p.name place around value (.array items .closed) := by
  rcases Nat.lt_or_eq_of_le hlen with hlt | rfl
  · have hitems : items = items.take place ++ items[place] :: items.drop (place + 1) := by simp
    rw [hitems]
    exact ⟨_, _, .item (List.length_take_of_le hlen)⟩
  · exact ⟨_, _, .noItem rfl⟩

/-- Every document that is read surrounds a value for a slot, or leaves it out, if a slot that has
to be filled stands in front of it. -/
theorem exists_holds {i : Nat} {q : Slot σ} (hp : p ∈ F.slots) (hq : F.slots[i]? = some q)
    (hr : q.required = true) (hi : place ≤ i + 1) (h : F.read name depth doc = .ok s) :
    ∃ around value, Around.Holds p.name place around value doc := by
  obtain ⟨members, rfl⟩ | ⟨items, rfl⟩ := shape_of_read h
  · exact exists_holds_object hp h
  · refine exists_holds_array (Nat.le_of_not_lt fun hlt => ?_)
    obtain ⟨-, -, hneeded, -⟩ := read_array_iff.mp h
    have hmem : q ∈ F.slots.drop items.length := by
      refine List.mem_of_getElem? (i := i - items.length) ?_
      rw [List.getElem?_drop, Nat.add_sub_cancel' (by omega), hq]
    cases hr.symm.trans (hneeded q hmem)

/-- Only the slot of the value notices when the value is another one: it is filled with whatever is
read from that, or nothing is read at all. -/
theorem read_anew (hplace : F.slots[place]? = some p) (hr : p.required = false)
    (h : around.Holds p.name place value doc) (h' : around.Holds p.name place value' doc')
    (hread : F.read name depth doc = .ok s) :
    (∀ a, p.Takes (depth - 1) value' a → F.read name depth doc' = .ok (p.put a s)) ∧
      ((∀ a, ¬ p.Takes (depth - 1) value' a) → ∃ fault, F.read name depth doc' = .error fault) := by
  obtain ⟨hdepth, hadmits, hentered⟩ := (read_holds_iff hplace hr h).mp hread
  constructor
  · intro a ha
    exact (read_holds_iff hplace hr h').mpr ⟨hdepth, hadmits,
      entered_anew (List.mem_of_getElem? hplace) (others_apart hplace h) hentered ha⟩
  · intro hnone
    cases hresult : F.read name depth doc' with
    | error fault => exact ⟨fault, rfl⟩
    | ok u =>
      obtain ⟨-, -, hentered'⟩ := (read_holds_iff hplace hr h').mp hresult
      obtain ⟨a, ha⟩ := takes_of_entered hentered'
      exact absurd ha (hnone a)

end Form

end ChainAudit.Json
