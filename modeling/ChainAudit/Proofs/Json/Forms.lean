import ChainAudit.Proofs.Json.Objects
import Mathlib.Data.List.Nodup
import Mathlib.Data.List.Pairwise

/-!
# Records as forms

A record is a form with a slot for each field, and no slot gets in the way of another one. So the
order in which the members of an object are read does not matter, members for which there is no slot
do not matter, and a slot whose member is taken away is empty, without a trace in the others. The
values of an array are read likewise, each of them into the slot in its place.
-/

namespace ChainAudit.Json

/-- A slot of a form: under which name its content is given, whether it has to be, how it is read
and put into the record, and what is there if it is not given. -/
structure Slot (σ : Type) where
  {content : Type}
  name : String
  required : Bool
  reader : Reader content
  put : content → σ → σ
  empty : content

namespace Slot

def field (p : Slot σ) : Field σ :=
  ⟨p.name, p.required, fun depth t s => (p.reader depth t).map fun a => p.put a s⟩

/-- It does not matter which of two slots is filled first. -/
def Apart (p q : Slot σ) : Prop := ∀ a b s, p.put a (q.put b s) = q.put b (p.put a s)

instance : Std.Symm (@Apart σ) := ⟨fun _ _ h b a s => (h a b s).symm⟩

theorem read_field {p : Slot σ} {depth : Nat} {t : Tree} {s s' : σ} :
    p.field.read depth t s = .ok s' ↔ ∃ a, p.reader depth t = .ok a ∧ p.put a s = s' :=
  @Field.read_optional σ p.content depth s s' p.name p.reader p.put t

end Slot

section Entries

/-- Values are read into slots and put into a record, one after the other. -/
inductive Entered (depth : Nat) : List (Slot σ × Tree) → σ → σ → Prop
  | nil {s : σ} : Entered depth [] s s
  | cons {p : Slot σ} {t : Tree} {a : p.content} {ps : List (Slot σ × Tree)} {s s' : σ}
      (hread : p.reader depth t = .ok a) (hrest : Entered depth ps (p.put a s) s') :
      Entered depth ((p, t) :: ps) s s'

variable {depth : Nat} {ps qs : List (Slot σ × Tree)} {p : Slot σ} {t : Tree} {s s' : σ}

theorem entered_nil_iff : Entered depth [] s s' ↔ s = s' :=
  ⟨fun h => by cases h; rfl, fun h => h ▸ .nil⟩

theorem entered_cons_iff : Entered depth ((p, t) :: ps) s s' ↔
    ∃ a, p.reader depth t = .ok a ∧ Entered depth ps (p.put a s) s' := by
  constructor
  · rintro (_ | ⟨hread, hrest⟩)
    exact ⟨_, hread, hrest⟩
  · rintro ⟨a, hread, hrest⟩
    exact .cons hread hrest

theorem Entered.perm (h : Entered depth ps s s') (hperm : ps.Perm qs)
    (hapart : ps.Pairwise fun x y => x.1.Apart y.1) : Entered depth qs s s' := by
  -- an order is reached from another one by exchanging neighbours, and these are apart
  induction hperm generalizing s with
  | nil => exact h
  | cons x _ ih =>
    obtain ⟨a, hread, hrest⟩ := entered_cons_iff.mp h
    exact .cons hread (ih hrest (List.pairwise_cons.mp hapart).2)
  | swap x y ps =>
    obtain ⟨b, hy, hrest⟩ := entered_cons_iff.mp h
    obtain ⟨a, hx, hrest⟩ := entered_cons_iff.mp hrest
    have hyx : y.1.Apart x.1 := (List.pairwise_cons.mp hapart).1 x List.mem_cons_self
    exact .cons hx (.cons hy (by rwa [hyx]))
  | trans hperm _ ih ih' =>
    exact ih' (ih h hapart) ((hperm.pairwise_iff fun hxy => Std.Symm.symm _ _ hxy).mp hapart)

theorem entered_perm_iff (hperm : ps.Perm qs) (hapart : ps.Pairwise fun x y => x.1.Apart y.1) :
    Entered depth ps s s' ↔ Entered depth qs s s' := by
  refine ⟨fun h => h.perm hperm hapart, fun h => h.perm hperm.symm ?_⟩
  exact (hperm.pairwise_iff fun hxy => Std.Symm.symm _ _ hxy).mp hapart

/-- What is put into a slot beforehand stays there while other slots are filled. -/
theorem Entered.put (h : Entered depth ps s s') (hapart : ∀ x ∈ ps, p.Apart x.1) (a : p.content) :
    Entered depth ps (p.put a s) (p.put a s') := by
  induction h with
  | nil => exact .nil
  | @cons q _ b _ s _ hread _ ih =>
    obtain ⟨hq, hapart⟩ := List.forall_mem_cons.mp hapart
    exact .cons hread (by rw [← hq a b s]; exact ih hapart)

end Entries

/-- A form: slots under different names and apart from each other, each of which can be filled anew,
and the record while all of them are empty. -/
structure Form (σ : Type) where
  slots : List (Slot σ)
  blank : σ
  distinct : (slots.map (·.name)).Nodup
  apart : slots.Pairwise Slot.Apart
  replaces : ∀ p ∈ slots, ∀ a b s, p.put a (p.put b s) = p.put a s
  starts : ∀ p ∈ slots, p.put p.empty blank = blank

namespace Form

/-- Reads a record called `name` into a form. -/
def read (F : Form σ) (name : String) : Reader σ :=
  readRecord name (F.slots.map Slot.field) F.blank

/-- The slot for the member with a key. -/
def slot? (F : Form σ) (k : StringLit) : Option (Slot σ) :=
  match k.text with
  | .ok name => F.slots.find? (·.name == name)
  | .error _ => none

/-- The values of the members that there are slots for. -/
def entries (F : Form σ) (members : List (StringLit × Tree)) : List (Slot σ × Tree) :=
  members.filterMap fun m => (F.slot? m.1).map fun p => (p, m.2)

/-- The names under which members are entered. -/
def entered (F : Form σ) (members : List (StringLit × Tree)) : List String :=
  (F.entries members).map (·.1.name)

variable {F : Form σ} {depth : Nat} {name : String} {members rest : List (StringLit × Tree)}
variable {k : StringLit} {t : Tree} {p : Slot σ} {s s' : σ} {seen seen' : List String}

section Slots

private theorem find?_map_field (name : String) :
    (F.slots.map Slot.field).find? (·.name == name) =
      (F.slots.find? (·.name == name)).map Slot.field := by
  rw [List.find?_map]
  rfl

theorem slot?_eq_some_iff : F.slot? k = some p ↔ p ∈ F.slots ∧ k.text = .ok p.name := by
  unfold slot?
  constructor
  · intro h
    split at h
    · rename_i hname
      obtain rfl : p.name = _ := by simpa using List.find?_some h
      exact ⟨List.mem_of_find?_eq_some h, hname⟩
    · cases h
  · rintro ⟨hp, hname⟩
    rw [hname]
    refine List.find?_eq_some_iff_append.mpr ⟨by simp, ?_⟩
    obtain ⟨front, back, hslots⟩ := List.append_of_mem hp
    refine ⟨front, back, hslots, fun q hq => ?_⟩
    have hdistinct := F.distinct
    rw [hslots, List.map_append, List.nodup_append] at hdistinct
    simpa using hdistinct.2.2 q.name (List.mem_map_of_mem hq) p.name (by simp)

theorem apart_of_ne {q : Slot σ} (hp : p ∈ F.slots) (hq : q ∈ F.slots) (hne : p.name ≠ q.name) :
    p.Apart q := by
  have hdiffer : p ≠ q := fun h => hne (h ▸ rfl)
  exact F.apart.forall hp hq hdiffer

private theorem slot?_eq_none_iff (hname : k.text = .ok name) :
    F.slot? k = none ↔ (F.slots.map Slot.field).find? (·.name == name) = none := by
  rw [find?_map_field, slot?, hname, Option.map_eq_none_iff]

private theorem find?_slot (h : F.slot? k = some p) :
    (F.slots.map Slot.field).find? (·.name == p.field.name) = some p.field := by
  have hname := (slot?_eq_some_iff.mp h).2
  rw [slot?, hname] at h
  exact (find?_map_field p.name).trans (congrArg (Option.map Slot.field) h)

theorem entries_cons_none (h : F.slot? k = none) : F.entries ((k, t) :: rest) = F.entries rest := by
  simp [entries, h]

theorem entries_cons_some (h : F.slot? k = some p) :
    F.entries ((k, t) :: rest) = (p, t) :: F.entries rest := by
  simp [entries, h]

theorem entered_cons_none (h : F.slot? k = none) :
    F.entered ((k, t) :: rest) = F.entered rest := by
  rw [entered, entries_cons_none h, entered]

theorem entered_cons_some (h : F.slot? k = some p) :
    F.entered ((k, t) :: rest) = p.name :: F.entered rest := by
  rw [entered, entries_cons_some h, List.map_cons, entered]

theorem mem_slots_of_mem_entries {x : Slot σ × Tree} (hx : x ∈ F.entries members) :
    x.1 ∈ F.slots ∧ ∃ m ∈ members, m.1.text = .ok x.1.name ∧ m.2 = x.2 := by
  obtain ⟨m, hm, hx⟩ := List.mem_filterMap.mp hx
  obtain ⟨p, hp, rfl⟩ := Option.map_eq_some_iff.mp hx
  obtain ⟨hslot, hname⟩ := slot?_eq_some_iff.mp hp
  exact ⟨hslot, m, hm, hname, rfl⟩

theorem name_mem_entered_iff (hp : p ∈ F.slots) :
    p.name ∈ F.entered members ↔ ∃ m ∈ members, m.1.text = .ok p.name := by
  constructor
  · intro hmem
    obtain ⟨x, hx, hsame⟩ := List.mem_map.mp hmem
    obtain ⟨-, m, hm, hname, -⟩ := mem_slots_of_mem_entries hx
    exact ⟨m, hm, hsame ▸ hname⟩
  · rintro ⟨m, hm, hname⟩
    have hslot : F.slot? m.1 = some p := slot?_eq_some_iff.mpr ⟨hp, hname⟩
    exact List.mem_map.mpr ⟨(p, m.2), List.mem_filterMap.mpr ⟨m, hm, by rw [hslot]; rfl⟩, rfl⟩

theorem entries_apart (h : (F.entered members).Nodup) :
    (F.entries members).Pairwise fun x y => x.1.Apart y.1 := by
  refine (List.pairwise_map.mp h).imp_of_mem fun hx hy hne => ?_
  exact apart_of_ne (mem_slots_of_mem_entries hx).1 (mem_slots_of_mem_entries hy).1 hne

theorem entered_rest {ps : List (Slot σ × Tree)} (hp : p ∈ F.slots)
    (hapart : ∀ x ∈ ps, p.Apart x.1) (h : Entered depth ((p, t) :: ps) F.blank s) :
    Entered depth ps F.blank (p.put p.empty s) := by
  obtain ⟨a, -, hrest⟩ := entered_cons_iff.mp h
  have hput := hrest.put hapart p.empty
  rwa [F.replaces p hp, F.starts p hp] at hput

end Slots

section Objects

/-- The members of an object can be sorted into slots of which some are filled: all their names are
texts, what there is no slot for can be passed over, and no slot is filled twice. -/
structure Sorts (F : Form σ) (seen : List String) (members : List (StringLit × Tree)) : Prop where
  names : ∀ m ∈ members, ∃ name, m.1.text = .ok name
  passed : ∀ m ∈ members, F.slot? m.1 = none → m.2.skip = .ok ()
  once : (F.entered members).Nodup
  anew : ∀ name ∈ F.entered members, name ∉ seen

/-- The members of an object fit a form if they can be sorted into its slots and leave none empty
that has to be filled. -/
structure Fits (F : Form σ) (members : List (StringLit × Tree)) : Prop where
  sorts : F.Sorts [] members
  given : ∀ p ∈ F.slots, p.required = true → p.name ∈ F.entered members

private theorem sorts_cons_none (h : F.slot? k = none) : F.Sorts seen ((k, t) :: rest) ↔
    (∃ name, k.text = .ok name) ∧ t.skip = .ok () ∧ F.Sorts seen rest := by
  constructor
  · rintro ⟨hnames, hpassed, honce, hanew⟩
    rw [entered_cons_none h] at honce hanew
    obtain ⟨hname, hnames⟩ := List.forall_mem_cons.mp hnames
    obtain ⟨hskip, hpassed⟩ := List.forall_mem_cons.mp hpassed
    exact ⟨hname, hskip h, hnames, hpassed, honce, hanew⟩
  · rintro ⟨hname, hskip, hnames, hpassed, honce, hanew⟩
    rw [← @entered_cons_none _ F rest k t h] at honce hanew
    exact ⟨List.forall_mem_cons.mpr ⟨hname, hnames⟩,
      List.forall_mem_cons.mpr ⟨fun _ => hskip, hpassed⟩, honce, hanew⟩

private theorem sorts_cons_some (h : F.slot? k = some p) : F.Sorts seen ((k, t) :: rest) ↔
    p.name ∉ seen ∧ F.Sorts (p.name :: seen) rest := by
  have hname : ∃ name, k.text = .ok name := ⟨_, (slot?_eq_some_iff.mp h).2⟩
  have hslot : F.slot? k = none → t.skip = .ok () := by simp [h]
  constructor
  · rintro ⟨hnames, hpassed, honce, hanew⟩
    rw [entered_cons_some h] at honce hanew
    obtain ⟨hfirst, honce⟩ := List.nodup_cons.mp honce
    obtain ⟨hp, hanew⟩ := List.forall_mem_cons.mp hanew
    refine ⟨hp, (List.forall_mem_cons.mp hnames).2, (List.forall_mem_cons.mp hpassed).2, honce, ?_⟩
    intro name hmem hseen
    rcases List.mem_cons.mp hseen with rfl | hseen
    · exact hfirst hmem
    · exact hanew name hmem hseen
  · rintro ⟨hp, hnames, hpassed, honce, hanew⟩
    refine ⟨List.forall_mem_cons.mpr ⟨hname, hnames⟩,
      List.forall_mem_cons.mpr ⟨hslot, hpassed⟩, ?_, ?_⟩
    · rw [entered_cons_some h]
      exact List.nodup_cons.mpr ⟨fun hmem => hanew _ hmem List.mem_cons_self, honce⟩
    · rw [entered_cons_some h]
      exact List.forall_mem_cons.mpr
        ⟨hp, fun name hmem hseen => hanew name hmem (List.mem_cons_of_mem _ hseen)⟩

private theorem filled_cons_none (h : F.slot? k = none) :
    Filled (F.slots.map Slot.field) depth ((k, t) :: rest) s seen s' seen' ↔
      (∃ name, k.text = .ok name) ∧ t.skip = .ok () ∧
        Filled (F.slots.map Slot.field) depth rest s seen s' seen' := by
  constructor
  · intro hfilled
    cases hfilled with
    | passed hname _ hskip hrest => exact ⟨⟨_, hname⟩, hskip, hrest⟩
    | read hname hfield =>
      rw [(slot?_eq_none_iff hname).mp h] at hfield
      cases hfield
  · rintro ⟨⟨name, hname⟩, hskip, hrest⟩
    exact .passed hname ((slot?_eq_none_iff hname).mp h) hskip hrest

private theorem filled_cons_some (h : F.slot? k = some p) :
    Filled (F.slots.map Slot.field) depth ((k, t) :: rest) s seen s' seen' ↔
      p.name ∉ seen ∧ ∃ a, p.reader depth t = .ok a ∧
        Filled (F.slots.map Slot.field) depth rest (p.put a s) (p.name :: seen) s' seen' := by
  have hname : k.text = .ok p.field.name := (slot?_eq_some_iff.mp h).2
  constructor
  · intro hfilled
    cases hfilled with
    | passed hname' hfield =>
      rw [← Except.ok.inj (hname.symm.trans hname'), find?_slot h] at hfield
      cases hfield
    | read hname' hfield hnew hread hrest =>
      rw [← Except.ok.inj (hname.symm.trans hname'), find?_slot h] at hfield
      obtain rfl := Option.some.inj hfield
      obtain ⟨a, ha, rfl⟩ := Slot.read_field.mp hread
      exact ⟨hnew, a, ha, hrest⟩
  · rintro ⟨hnew, a, ha, hrest⟩
    exact .read hname (find?_slot h) hnew (Slot.read_field.mpr ⟨a, ha, rfl⟩) hrest

private theorem filled_iff : Filled (F.slots.map Slot.field) depth members s seen s' seen' ↔
    F.Sorts seen members ∧ Entered depth (F.entries members) s s' ∧
      seen' = (F.entered members).reverse ++ seen := by
  induction members generalizing s seen with
  | nil =>
    constructor
    · rintro ⟨⟩
      exact ⟨⟨nofun, nofun, .nil, nofun⟩, .nil, rfl⟩
    · rintro ⟨-, hentered, rfl⟩
      obtain rfl := entered_nil_iff.mp hentered
      exact .nil
  | cons m members ih =>
    obtain ⟨k, t⟩ := m
    cases hslot : F.slot? k with
    | none =>
      rw [filled_cons_none hslot, sorts_cons_none hslot, ih, entered_cons_none hslot,
        entries_cons_none hslot]
      simp only [and_assoc]
    | some p =>
      rw [filled_cons_some hslot, sorts_cons_some hslot, entered_cons_some hslot,
        entries_cons_some hslot, entered_cons_iff]
      simp only [ih, List.reverse_cons, List.append_assoc, List.singleton_append]
      constructor
      · rintro ⟨hp, a, ha, hsorts, hentered, hseen⟩
        exact ⟨⟨hp, hsorts⟩, ⟨a, ha, hentered⟩, hseen⟩
      · rintro ⟨⟨hp, hsorts⟩, ⟨a, ha, hentered⟩, hseen⟩
        exact ⟨hp, a, ha, hsorts, hentered, hseen⟩

private theorem missingField?_eq_none_iff :
    missingField? (F.slots.map Slot.field) seen = none ↔
      ∀ p ∈ F.slots, p.required = true → p.name ∈ seen := by
  rw [missingField?, List.find?_eq_none]
  simp [Slot.field]

theorem read_object_iff : F.read name depth (.object members .closed) = .ok s ↔
    1 < depth ∧ F.Fits members ∧ Entered (depth - 1) (F.entries members) F.blank s := by
  rw [read, readRecord_object_eq_ok_iff]
  simp only [filled_iff, missingField?_eq_none_iff, List.append_nil]
  refine and_congr_right fun _ => ⟨?_, ?_⟩
  · rintro ⟨seen, ⟨hsorts, hentered, rfl⟩, hgiven⟩
    exact ⟨⟨hsorts, fun p hp hr => by simpa using hgiven p hp hr⟩, hentered⟩
  · rintro ⟨⟨hsorts, hgiven⟩, hentered⟩
    exact ⟨_, ⟨hsorts, hentered, rfl⟩, fun p hp hr => by simpa using hgiven p hp hr⟩

private theorem Fits.perm (h : F.Fits members) (hperm : members.Perm rest) : F.Fits rest := by
  obtain ⟨⟨hnames, hpassed, honce, -⟩, hgiven⟩ := h
  have hentered : (F.entered members).Perm (F.entered rest) := (hperm.filterMap _).map _
  refine ⟨⟨?_, ?_, ?_, fun _ _ => List.not_mem_nil⟩, ?_⟩
  · exact fun m hm => hnames m (hperm.mem_iff.mpr hm)
  · exact fun m hm => hpassed m (hperm.mem_iff.mpr hm)
  · exact hentered.nodup_iff.mp honce
  · exact fun p hp hr => hentered.mem_iff.mp (hgiven p hp hr)

theorem read_perm (h : F.read name depth (.object members .closed) = .ok s)
    (hperm : members.Perm rest) : F.read name depth (.object rest .closed) = .ok s := by
  obtain ⟨hdepth, hfits, hentered⟩ := read_object_iff.mp h
  exact read_object_iff.mpr ⟨hdepth, hfits.perm hperm,
    hentered.perm (hperm.filterMap _) (entries_apart hfits.sorts.once)⟩

/-- A member for a slot that need not be filled fits if the others do and leave it empty. -/
theorem fits_cons_some (hslot : F.slot? k = some p) (hr : p.required = false)
    (hnew : p.name ∉ F.entered rest) : F.Fits ((k, t) :: rest) ↔ F.Fits rest := by
  constructor
  · rintro ⟨hsorts, hgiven⟩
    obtain ⟨-, hnames, hpassed, honce, -⟩ := (sorts_cons_some hslot).mp hsorts
    refine ⟨⟨hnames, hpassed, honce, fun _ _ => List.not_mem_nil⟩, fun q hq hqr => ?_⟩
    rw [entered_cons_some hslot] at hgiven
    rcases List.mem_cons.mp (hgiven q hq hqr) with hsame | hmem
    · obtain rfl : q = p :=
        List.inj_on_of_nodup_map F.distinct hq (slot?_eq_some_iff.mp hslot).1 hsame
      cases hr.symm.trans hqr
    · exact hmem
  · rintro ⟨⟨hnames, hpassed, honce, -⟩, hgiven⟩
    have hanew : ∀ name ∈ F.entered rest, name ∉ [p.name] := by
      intro name hmem hsame
      exact hnew (List.mem_singleton.mp hsame ▸ hmem)
    refine ⟨(sorts_cons_some hslot).mpr
      ⟨List.not_mem_nil, hnames, hpassed, honce, hanew⟩, fun q hq hqr => ?_⟩
    rw [entered_cons_some hslot]
    exact List.mem_cons_of_mem _ (hgiven q hq hqr)

/-- A member is taken away, and its slot is left empty. -/
theorem read_without (hslot : F.slot? k = some p) (hr : p.required = false)
    (h : F.read name depth (.object ((k, t) :: rest) .closed) = .ok s) :
    F.read name depth (.object rest .closed) = .ok (p.put p.empty s) := by
  obtain ⟨hdepth, hfits, hentered⟩ := read_object_iff.mp h
  have honce := hfits.sorts.once
  have hapart := entries_apart honce
  rw [entered_cons_some hslot] at honce
  rw [entries_cons_some hslot] at hapart hentered
  have hnew : p.name ∉ F.entered rest := (List.nodup_cons.mp honce).1
  exact read_object_iff.mpr ⟨hdepth, (fits_cons_some hslot hr hnew).mp hfits,
    entered_rest (slot?_eq_some_iff.mp hslot).1 (List.pairwise_cons.mp hapart).1 hentered⟩

theorem read_append {more : List (StringLit × Tree)}
    (hmore : ∀ m ∈ more, (∃ name, m.1.text = .ok name) ∧ F.slot? m.1 = none ∧ m.2.skip = .ok ()) :
    F.read name depth (.object (members ++ more) .closed) = .ok s ↔
      F.read name depth (.object members .closed) = .ok s := by
  have hentries : F.entries (members ++ more) = F.entries members := by
    have hnone : F.entries more = [] := by
      refine List.filterMap_eq_nil_iff.mpr fun m hm => ?_
      rw [(hmore m hm).2.1, Option.map_none]
    rw [entries, List.filterMap_append, ← entries, ← entries, hnone, List.append_nil]
  have hentered : F.entered (members ++ more) = F.entered members := by
    rw [entered, hentries, entered]
  have hfits : F.Fits (members ++ more) ↔ F.Fits members := by
    constructor
    · rintro ⟨⟨hnames, hpassed, honce, hanew⟩, hgiven⟩
      rw [hentered] at honce hanew hgiven
      exact ⟨⟨fun m hm => hnames m (List.mem_append_left _ hm),
        fun m hm => hpassed m (List.mem_append_left _ hm), honce, hanew⟩, hgiven⟩
    · rintro ⟨⟨hnames, hpassed, honce, hanew⟩, hgiven⟩
      rw [← hentered] at honce hanew hgiven
      exact ⟨⟨List.forall_mem_append.mpr ⟨hnames, fun m hm => (hmore m hm).1⟩,
        List.forall_mem_append.mpr ⟨hpassed, fun m hm _ => (hmore m hm).2.2⟩, honce, hanew⟩, hgiven⟩
  rw [read_object_iff, read_object_iff, hfits, hentries]

end Objects

section Arrays

private theorem readPositions_form_iff {slots : List (Slot σ)} {items : List Tree}
    (expected : String) (position : Nat) :
    readPositions expected .closed depth position (slots.map Slot.field) items s = .ok (s', []) ↔
      items.length ≤ slots.length ∧ (∀ p ∈ slots.drop items.length, p.required = false) ∧
        Entered depth (slots.zip items) s s' := by
  induction slots generalizing items s position with
  | nil => cases items <;> simp [readPositions, entered_nil_iff]
  | cons p slots ih =>
    cases items with
    | nil =>
      have hrest := @ih s [] (position + 1)
      cases hr : p.required with
      | true => simp [readPositions, Tail.arrayEnd, Slot.field, hr]
      | false => simpa [readPositions, Tail.arrayEnd, Slot.field, hr] using hrest
    | cons t items =>
      have hrest := fun u => @ih u items (position + 1)
      cases hread : p.reader depth t with
      | error e =>
        simp [readPositions, Slot.field, hread, Except.map, bind, Except.bind, entered_cons_iff]
      | ok a =>
        simpa [readPositions, Slot.field, hread, Except.map, bind, Except.bind, entered_cons_iff]
          using hrest (p.put a s)

/-- An array is read as a record by filling the slots one after the other; only slots that need not
be filled are left empty. -/
theorem read_array_iff {items : List Tree} : F.read name depth (.array items .closed) = .ok s ↔
    1 < depth ∧ items.length ≤ F.slots.length ∧
      (∀ p ∈ F.slots.drop items.length, p.required = false) ∧
      Entered (depth - 1) (F.slots.zip items) F.blank s := by
  rw [read, readRecord]
  by_cases hdepth : depth ≤ 1
  · simp [hdepth, Nat.not_lt.mpr hdepth]
  · rw [if_neg hdepth]
    simp only [Nat.lt_of_not_le hdepth, true_and]
    exact recordOfPositions_iff.trans (readPositions_form_iff _ 0)

theorem shape_of_read {doc : Tree} (h : F.read name depth doc = .ok s) :
    (∃ members, doc = .object members .closed) ∨ ∃ items, doc = .array items .closed := by
  rw [read] at h
  cases doc with
  | object members tail =>
    rw [readRecord] at h
    split at h
    · cases h
    · obtain ⟨result, -, h⟩ := bind_eq_ok_iff.mp h
      obtain ⟨u, htail, -⟩ := bind_eq_ok_iff.mp h
      obtain rfl := objectEnd_eq_ok_iff.mp htail
      exact .inl ⟨members, rfl⟩
  | array items tail =>
    rw [readRecord] at h
    split at h
    · cases h
    · obtain ⟨result, -, h⟩ := bind_eq_ok_iff.mp h
      obtain ⟨u, htail, -⟩ := bind_eq_ok_iff.mp h
      obtain ⟨-, rfl⟩ := recordEnd_eq_ok_iff.mp htail
      exact .inr ⟨items, rfl⟩
  | _ => simp [readRecord, mismatch_ne_ok] at h

end Arrays

end Form

end ChainAudit.Json
