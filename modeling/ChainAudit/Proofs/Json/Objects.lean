import ChainAudit.Proofs.Json.Grammar
import Mathlib.Data.List.Forall2

/-!
# Objects that are read as records

Members are read into a record one after the other, and those under names that are not known are
passed over. So an object is read as a record if all its names are texts, no name of a field comes
twice, and every field can be read from its value. What stands under any other name does not matter,
as long as nothing is missing from it.
-/

namespace ChainAudit.Json

section Steps

variable {α β ε : Type} {x : Except ε α} {f : α → Except ε β} {b : β}

theorem bind_eq_ok_iff : x >>= f = .ok b ↔ ∃ a, x = .ok a ∧ f a = .ok b := by
  cases x with
  | error e => simp [bind, Except.bind]
  | ok a => simp [bind, Except.bind]

theorem map_eq_ok_iff {g : α → β} : x.map g = .ok b ↔ ∃ a, x = .ok a ∧ g a = b := by
  cases x with
  | error e => simp [Except.map]
  | ok a => simp [Except.map]

variable {tail : Tail} {u : Unit}

theorem arrayEnd_eq_ok_iff : tail.arrayEnd = .ok u ↔ tail = .closed := by
  cases tail with
  | closed => simp [Tail.arrayEnd]
  | cut rest =>
    unfold Tail.arrayEnd
    split <;> simp_all

theorem objectEnd_eq_ok_iff {first : Bool} : tail.objectEnd first = .ok u ↔ tail = .closed := by
  cases tail with
  | closed => simp [Tail.objectEnd]
  | cut rest =>
    unfold Tail.objectEnd
    repeat' split
    all_goals simp_all

theorem recordEnd_eq_ok_iff {rest : List Tree} :
    Tail.recordEnd rest tail = .ok u ↔ rest = [] ∧ tail = .closed := by
  unfold Tail.recordEnd
  split <;> simp_all

end Steps

section Passing

mutual

theorem skip_whole : ∀ t : Tree, t.Whole → t.skip = .ok ()
  | .null, _ | .bool _, _ | .number _, _ => rfl
  | .string s, hwhole => by
    have hclosed : s.ending = .closed := hwhole
    simp [Tree.skip, StringLit.skipped, hclosed, StringEnd.fault?]
  | .array items tail, hwhole => by
    obtain ⟨hitems, rfl⟩ : WholeItems items ∧ tail = .closed := hwhole
    rw [Tree.skip, skipItems_whole items hitems]
    rfl
  | .object members tail, hwhole => by
    obtain ⟨hmembers, rfl⟩ : WholeMembers members ∧ tail = .closed := hwhole
    rw [Tree.skip, skipMembers_whole members hmembers]
    rfl

theorem skipItems_whole : ∀ items : List Tree, WholeItems items → skipItems items = .ok ()
  | [], _ => rfl
  | t :: rest, hwhole => by
    rw [skipItems, skip_whole t hwhole.1]
    exact skipItems_whole rest hwhole.2

theorem skipMembers_whole : ∀ members : List (StringLit × Tree), WholeMembers members →
    skipMembers members = .ok ()
  | [], _ => rfl
  | (k, t) :: rest, hwhole => by
    have hkey : k.skipped = .ok () := by simp [StringLit.skipped, hwhole.1, StringEnd.fault?]
    rw [skipMembers, hkey]
    simp only [bind, Except.bind]
    rw [skip_whole t hwhole.2.1]
    exact skipMembers_whole rest hwhole.2.2

end

end Passing

section Filling

/-- Members are read one after the other, from a record and the names seen so far on. -/
inductive Filled (fields : List (Field σ)) (depth : Nat) :
    List (StringLit × Tree) → σ → List String → σ → List String → Prop
  | nil {s : σ} {seen : List String} : Filled fields depth [] s seen s seen
  | passed {k : StringLit} {t : Tree} {members : List (StringLit × Tree)} {name : String}
      {s s' : σ} {seen seen' : List String} (hname : k.text = .ok name)
      (hfield : fields.find? (·.name == name) = none) (hskip : t.skip = .ok ())
      (hrest : Filled fields depth members s seen s' seen') :
      Filled fields depth ((k, t) :: members) s seen s' seen'
  | read {k : StringLit} {t : Tree} {members : List (StringLit × Tree)} {f : Field σ}
      {s u s' : σ} {seen seen' : List String} (hname : k.text = .ok f.name)
      (hfield : fields.find? (·.name == f.name) = some f) (hnew : f.name ∉ seen)
      (hread : f.read depth t s = .ok u)
      (hrest : Filled fields depth members u (f.name :: seen) s' seen') :
      Filled fields depth ((k, t) :: members) s seen s' seen'

variable {fields : List (Field σ)} {depth : Nat} {members : List (StringLit × Tree)}
variable {s s' : σ} {seen seen' : List String} {f : Field σ}

private theorem readMembers_of_filled (h : Filled fields depth members s seen s' seen') :
    readMembers fields depth members s seen = .ok (s', seen') := by
  induction h with
  | nil => rfl
  | passed hname hfield hskip _ ih =>
    rw [readMembers, hname]
    simp only [bind, Except.bind, hfield, hskip, ih]
  | read hname hfield hnew hread _ ih =>
    rw [readMembers, hname]
    simp [bind, Except.bind, hfield, hnew, hread, ih]

private theorem filled_of_readMembers
    (h : readMembers fields depth members s seen = .ok (s', seen')) :
    Filled fields depth members s seen s' seen' := by
  induction members generalizing s seen with
  | nil =>
    obtain ⟨rfl, rfl⟩ : s = s' ∧ seen = seen' := by simpa [readMembers] using h
    exact .nil
  | cons m members ih =>
    obtain ⟨k, t⟩ := m
    rw [readMembers] at h
    cases hname : k.text with
    | error e => simp [hname, bind, Except.bind] at h
    | ok name =>
      simp only [hname, bind, Except.bind] at h
      cases hfield : fields.find? (·.name == name) with
      | none =>
        cases hskip : t.skip with
        | error e => simp [hfield, hskip] at h
        | ok u => exact .passed hname hfield hskip (ih (by simpa [hfield, hskip] using h))
      | some f =>
        obtain rfl : f.name = name := by simpa using List.find?_some hfield
        by_cases hnew : f.name ∈ seen
        · simp [hfield, hnew] at h
        · cases hread : f.read depth t s with
          | error e => simp [hfield, hnew, hread] at h
          | ok u => exact .read hname hfield hnew hread (ih (by simpa [hfield, hnew, hread] using h))

theorem readMembers_eq_ok_iff :
    readMembers fields depth members s seen = .ok (s', seen') ↔
      Filled fields depth members s seen s' seen' :=
  ⟨filled_of_readMembers, readMembers_of_filled⟩

theorem Filled.keeps {P : σ → Prop} (h : Filled fields depth members s seen s' seen')
    (hkeep : ∀ f ∈ fields, f.name ∉ seen → ∀ t u u', f.read depth t u = .ok u' → P u → P u')
    (hs : P s) : P s' := by
  induction h with
  | nil => exact hs
  | passed _ _ _ _ ih => exact ih hkeep hs
  | @read _ _ _ f s _ _ _ _ _ hfield hnew hread _ ih =>
    refine ih (fun g hg hg' => hkeep g hg ?_) (hkeep f (List.mem_of_find?_eq_some hfield) hnew _ _ _
      hread hs)
    exact fun hmem => hg' (List.mem_cons_of_mem _ hmem)

theorem Filled.establishes {P : σ → Prop} (h : Filled fields depth members s seen s' seen')
    (hfield : fields.find? (·.name == f.name) = some f) {k : StringLit} {t : Tree}
    (hm : (k, t) ∈ members) (hname : k.text = .ok f.name)
    (hset : ∀ u u', f.read depth t u = .ok u' → P u')
    (hkeep : ∀ g ∈ fields, g.name ≠ f.name → ∀ t u u', g.read depth t u = .ok u' → P u → P u') :
    P s' := by
  induction h with
  | nil => exact absurd hm List.not_mem_nil
  | @passed k' _ _ name _ _ _ _ hname' hfield' _ _ ih =>
    rcases List.mem_cons.mp hm with heq | hm
    · obtain ⟨rfl, rfl⟩ := Prod.mk.inj heq
      obtain rfl := Except.ok.inj (hname.symm.trans hname')
      cases hfield.symm.trans hfield'
    · exact ih hm
  | @read k' _ _ g _ _ _ _ _ hname' hfield' _ hread hrest ih =>
    rcases List.mem_cons.mp hm with heq | hm
    · obtain ⟨rfl, rfl⟩ := Prod.mk.inj heq
      rw [Except.ok.inj (hname.symm.trans hname')] at hfield
      obtain rfl := Option.some.inj (hfield.symm.trans hfield')
      refine hrest.keeps (fun g hg hg' => hkeep g hg ?_) (hset _ _ hread)
      exact fun heq => hg' (heq ▸ List.mem_cons_self)
    · exact ih hm

end Filling

section Fitting

/-- Members fit some names with what their values have to be: all names are texts, none that is
known comes twice, and what stands under it is what it has to be. -/
structure MembersFit (known : List (String × (Tree → Prop))) (members : List (StringLit × Tree)) :
    Prop where
  names : ∀ m ∈ members, ∃ name, m.1.text = .ok name
  once : members.Pairwise fun m m' => ∀ p ∈ known, m.1.text = .ok p.1 → m'.1.text ≠ .ok p.1
  fits : ∀ p ∈ known, ∀ m ∈ members, m.1.text = .ok p.1 → p.2 m.2

theorem membersFit_nil {known : List (String × (Tree → Prop))} : MembersFit known [] :=
  ⟨nofun, .nil, fun _ _ => nofun⟩

theorem membersFit_cons {known : List (String × (Tree → Prop))} {m : StringLit × Tree}
    {members : List (StringLit × Tree)} :
    MembersFit known (m :: members) ↔ (∃ name, m.1.text = .ok name) ∧
      (∀ p ∈ known, m.1.text = .ok p.1 → p.2 m.2 ∧ ∀ m' ∈ members, m'.1.text ≠ .ok p.1) ∧
      MembersFit known members := by
  constructor
  · rintro ⟨hnames, honce, hfits⟩
    obtain ⟨hfirst, honce⟩ := List.pairwise_cons.mp honce
    refine ⟨hnames m List.mem_cons_self, ?_, ?_, honce, ?_⟩
    · intro p hp hm
      exact ⟨hfits p hp m List.mem_cons_self hm, fun m' hm' => hfirst m' hm' p hp hm⟩
    · exact fun m' hm' => hnames m' (List.mem_cons_of_mem m hm')
    · exact fun p hp m' hm' => hfits p hp m' (List.mem_cons_of_mem m hm')
  · rintro ⟨hname, hfirst, hnames, honce, hfits⟩
    refine ⟨?_, List.pairwise_cons.mpr ⟨?_, honce⟩, ?_⟩
    · exact List.forall_mem_cons.mpr ⟨hname, hnames⟩
    · exact fun m' hm' p hp hm => (hfirst p hp hm).2 m' hm'
    · exact fun p hp => List.forall_mem_cons.mpr ⟨fun hm => (hfirst p hp hm).1, hfits p hp⟩

private theorem MembersFit.mono {known known' : List (String × (Tree → Prop))}
    {members : List (StringLit × Tree)} (hfit : MembersFit known members)
    (h : ∀ p ∈ known', ∃ q ∈ known, q.1 = p.1 ∧ ∀ m ∈ members, q.2 m.2 → p.2 m.2) :
    MembersFit known' members := by
  refine ⟨hfit.names, hfit.once.imp ?_, ?_⟩
  · intro m m' honce p hp
    obtain ⟨q, hq, hname, -⟩ := h p hp
    exact hname ▸ honce q hq
  · intro p hp m hm htext
    obtain ⟨q, hq, hname, himp⟩ := h p hp
    exact himp m hm (hfit.fits q hq m hm (hname ▸ htext))

private theorem exists_of_forall₂ {R : α → β → Prop} {as : List α} {bs : List β}
    (h : List.Forall₂ R as bs) : ∀ b ∈ bs, ∃ a ∈ as, R a b := by
  induction h with
  | nil => exact nofun
  | @cons a _ _ _ hab _ ih =>
    refine List.forall_mem_cons.mpr ⟨⟨a, List.mem_cons_self, hab⟩, fun b hb => ?_⟩
    obtain ⟨a', ha', hR⟩ := ih b hb
    exact ⟨a', List.mem_cons_of_mem a ha', hR⟩

theorem membersFit_congr {known known' : List (String × (Tree → Prop))}
    {members : List (StringLit × Tree)}
    (h : List.Forall₂ (fun p q => p.1 = q.1 ∧ ∀ m ∈ members, (p.2 m.2 ↔ q.2 m.2)) known known') :
    MembersFit known members ↔ MembersFit known' members := by
  constructor
  · intro hfit
    refine hfit.mono fun p hp => ?_
    obtain ⟨q, hq, hname, hiff⟩ := exists_of_forall₂ h p hp
    exact ⟨q, hq, hname, fun m hm => (hiff m hm).mp⟩
  · intro hfit
    refine hfit.mono fun p hp => ?_
    obtain ⟨q, hq, hname, hiff⟩ := exists_of_forall₂ h.flip p hp
    exact ⟨q, hq, hname.symm, fun m hm => (hiff m hm).mpr⟩

def Field.Takes (f : Field σ) (depth : Nat) (t : Tree) : Prop :=
  ∃ u u', f.read depth t u = .ok u'

/-- A field that can be read from a value can be read from it into every record. -/
def Field.Steady (f : Field σ) : Prop :=
  ∀ {depth t}, f.Takes depth t → ∀ s, ∃ s', f.read depth t s = .ok s'

/-- The names of the fields of a record, and what their values have to be. -/
def demands (fields : List (Field σ)) (depth : Nat) : List (String × (Tree → Prop)) :=
  fields.map fun f => (f.name, f.Takes depth)

variable {fields : List (Field σ)} {depth : Nat} {members : List (StringLit × Tree)}
variable {s s' : σ} {seen seen' : List String} {name : String} {r : Reader α} {set : α → σ → σ}

theorem Field.read_optional {t : Tree} :
    (Field.optional name r set).read depth t s = .ok s' ↔ ∃ a, r depth t = .ok a ∧ set a s = s' := by
  cases hr : r depth t with
  | error e => simp [Field.optional, hr, Except.map]
  | ok a => simp [Field.optional, hr, Except.map]

theorem Field.steady_optional : (Field.optional name r set).Steady := by
  rintro depth t ⟨u, u', h⟩ s
  obtain ⟨a, hr, -⟩ := Field.read_optional.mp h
  exact ⟨set a s, Field.read_optional.mpr ⟨a, hr, rfl⟩⟩

theorem Field.takes_optional [Inhabited σ] {t : Tree} :
    (Field.optional name r set).Takes depth t ↔ ∃ a, r depth t = .ok a := by
  constructor
  · rintro ⟨u, u', h⟩
    obtain ⟨a, hr, -⟩ := Field.read_optional.mp h
    exact ⟨a, hr⟩
  · rintro ⟨a, hr⟩
    exact ⟨default, set a default, Field.read_optional.mpr ⟨a, hr, rfl⟩⟩

theorem find?_field {f : Field σ} (hnodup : (fields.map (·.name)).Nodup)
    (hf : f ∈ fields) : fields.find? (·.name == f.name) = some f := by
  induction fields with
  | nil => exact absurd hf List.not_mem_nil
  | cons g fields ih =>
    obtain ⟨hnew, hnodup⟩ := List.nodup_cons.mp hnodup
    rcases List.mem_cons.mp hf with rfl | hf
    · exact List.find?_cons_of_pos (by simp)
    · have hne : g.name ≠ f.name := by
        intro heq
        exact hnew (List.mem_map.mpr ⟨f, hf, heq.symm⟩)
      rw [List.find?_cons_of_neg (by simpa using hne), ih hnodup hf]

theorem Filled.membersFit (hnodup : (fields.map (·.name)).Nodup)
    (h : Filled fields depth members s seen s' seen') :
    MembersFit (demands fields depth) members ∧
      ∀ m ∈ members, ∀ f ∈ fields, m.1.text = .ok f.name → f.name ∉ seen := by
  induction h with
  | nil => exact ⟨membersFit_nil, nofun⟩
  | @passed k t _ name _ _ _ _ hname hfield _ _ ih =>
    have hother : ∀ f ∈ fields, k.text ≠ .ok f.name := by
      intro f hf htext
      rw [← Except.ok.inj (htext.symm.trans hname), find?_field hnodup hf] at hfield
      cases hfield
    refine ⟨membersFit_cons.mpr ⟨⟨name, hname⟩, ?_, ih.1⟩, ?_⟩
    · intro p hp htext
      obtain ⟨f, hf, rfl⟩ := List.mem_map.mp hp
      exact absurd htext (hother f hf)
    · exact List.forall_mem_cons.mpr ⟨fun f hf htext => absurd htext (hother f hf), ih.2⟩
  | @read k t _ g _ _ _ _ _ hname hfield hnew hread _ ih =>
    have hg : g ∈ fields := List.mem_of_find?_eq_some hfield
    refine ⟨membersFit_cons.mpr ⟨⟨g.name, hname⟩, ?_, ih.1⟩, ?_⟩
    · intro p hp htext
      obtain ⟨f, hf, rfl⟩ := List.mem_map.mp hp
      have hsame : f.name = g.name := Except.ok.inj (htext.symm.trans hname)
      obtain rfl : f = g := by
        rw [← hsame, find?_field hnodup hf] at hfield
        exact Option.some.inj hfield
      exact ⟨⟨_, _, hread⟩, fun m' hm' htext' => ih.2 m' hm' f hf htext' List.mem_cons_self⟩
    · refine List.forall_mem_cons.mpr ⟨?_, ?_⟩
      · intro f _ htext
        rw [Except.ok.inj (htext.symm.trans hname)]
        exact hnew
      · exact fun m hm f hf htext hseen => ih.2 m hm f hf htext (List.mem_cons_of_mem _ hseen)

theorem filled_of_membersFit (hwhole : WholeMembers members)
    (hsteady : ∀ f ∈ fields, f.Steady) (hfit : MembersFit (demands fields depth) members)
    (hnew : ∀ m ∈ members, ∀ f ∈ fields, m.1.text = .ok f.name → f.name ∉ seen) :
    ∃ s' seen', Filled fields depth members s seen s' seen' := by
  induction members generalizing s seen with
  | nil => exact ⟨s, seen, .nil⟩
  | cons m members ih =>
    obtain ⟨k, t⟩ := m
    obtain ⟨⟨name, hname⟩, hfirst, hfit⟩ := membersFit_cons.mp hfit
    obtain ⟨hfirstNew, hnew⟩ := List.forall_mem_cons.mp hnew
    cases hfield : fields.find? (·.name == name) with
    | none =>
      obtain ⟨s', seen', h⟩ := ih hwhole.2.2 hfit hnew
      exact ⟨s', seen', .passed hname hfield (skip_whole t hwhole.2.1) h⟩
    | some f =>
      obtain rfl : f.name = name := by simpa using List.find?_some hfield
      have hf : f ∈ fields := List.mem_of_find?_eq_some hfield
      obtain ⟨htakes, honce⟩ := hfirst _ (List.mem_map_of_mem hf) hname
      obtain ⟨u, hread⟩ := hsteady f hf htakes s
      have hlater : ∀ m ∈ members, ∀ g ∈ fields, m.1.text = .ok g.name → g.name ∉ f.name :: seen := by
        intro m hm g hg htext hseen
        rcases List.mem_cons.mp hseen with heq | hseen
        · exact honce m hm (heq ▸ htext)
        · exact hnew m hm g hg htext hseen
      obtain ⟨s', seen', h⟩ := ih hwhole.2.2 hfit hlater (s := u)
      exact ⟨s', seen', .read hname hfield (hfirstNew f hf hname) hread h⟩

end Fitting

section Records

variable {fields : List (Field σ)} {depth : Nat} {members : List (StringLit × Tree)}
variable {initial record : σ} {name : String}

theorem readRecord_object_eq_ok_iff :
    readRecord name fields initial depth (.object members .closed) = .ok record ↔
      1 < depth ∧ ∃ seen, Filled fields (depth - 1) members initial [] record seen ∧
        missingField? fields seen = none := by
  rw [readRecord]
  by_cases hdepth : depth ≤ 1
  · simp [hdepth, Nat.not_lt.mpr hdepth]
  · simp only [hdepth, Nat.lt_of_not_le hdepth, if_false, true_and]
    constructor
    · intro h
      cases hread : readMembers fields (depth - 1) members initial [] with
      | error e => simp [hread, bind, Except.bind] at h
      | ok result =>
        obtain ⟨u, seen⟩ := result
        cases hmissing : missingField? fields seen with
        | some f => simp [hread, hmissing, bind, Except.bind, Tail.objectEnd] at h
        | none =>
          obtain rfl : u = record := by
            simpa [hread, hmissing, bind, Except.bind, Tail.objectEnd, pure, Except.pure] using h
          exact ⟨seen, readMembers_eq_ok_iff.mp hread, hmissing⟩
    · rintro ⟨seen, hfilled, hmissing⟩
      simp [readMembers_eq_ok_iff.mpr hfilled, hmissing, bind, Except.bind, Tail.objectEnd, pure,
        Except.pure]

theorem readRecord_object_iff {known : List (String × (Tree → Prop))} (hdepth : 1 < depth)
    (hnodup : (fields.map (·.name)).Nodup) (hsteady : ∀ f ∈ fields, f.Steady)
    (hoptional : ∀ f ∈ fields, f.required = false) (hwhole : WholeMembers members)
    (hknown : List.Forall₂ (fun f p => f.name = p.1 ∧
      ∀ m ∈ members, (f.Takes (depth - 1) m.2 ↔ p.2 m.2)) fields known) :
    (∃ record, readRecord name fields initial depth (.object members .closed) = .ok record) ↔
      MembersFit known members := by
  have hmissing : ∀ seen, missingField? fields seen = none := by
    intro seen
    rw [missingField?, List.find?_eq_none]
    intro f hf
    simp [hoptional f hf]
  have hdemands : MembersFit (demands fields (depth - 1)) members ↔ MembersFit known members := by
    apply membersFit_congr
    simpa [demands] using hknown
  rw [← hdemands]
  simp only [readRecord_object_eq_ok_iff, hdepth, hmissing, true_and, and_true]
  constructor
  · rintro ⟨record, seen, hfilled⟩
    exact (hfilled.membersFit hnodup).1
  · intro hfit
    exact filled_of_membersFit hwhole hsteady hfit fun _ _ _ _ _ => List.not_mem_nil

private theorem readPositions_nil (hoptional : ∀ f ∈ fields, f.required = false)
    (expected : String) (position : Nat) :
    readPositions expected .closed depth position fields [] initial = .ok (initial, []) := by
  induction fields generalizing position with
  | nil => rfl
  | cons f fields ih =>
    have hf : f.required = false := hoptional f List.mem_cons_self
    have hmore := ih (fun g hg => hoptional g (List.mem_cons_of_mem f hg)) (position + 1)
    simp [readPositions, Tail.arrayEnd, hf, hmore]

private theorem readPositions_iff {items : List Tree} (hsteady : ∀ f ∈ fields, f.Steady)
    (hoptional : ∀ f ∈ fields, f.required = false) (expected : String) (position : Nat) :
    (∃ record, readPositions expected .closed depth position fields items initial =
        .ok (record, [])) ↔
      items.length ≤ fields.length ∧ ∀ p ∈ fields.zip items, p.1.Takes depth p.2 := by
  induction fields generalizing items initial position with
  | nil => cases items <;> simp [readPositions]
  | cons f fields ih =>
    cases items with
    | nil => simp [readPositions_nil hoptional]
    | cons t items =>
      have hmore := fun u => @ih u items
        (fun g hg => hsteady g (List.mem_cons_of_mem f hg))
        (fun g hg => hoptional g (List.mem_cons_of_mem f hg)) (position + 1)
      cases hread : f.read depth t initial with
      | ok u =>
        have htakes : f.Takes depth t := ⟨initial, u, hread⟩
        simp [readPositions, bind, Except.bind, hread, hmore, htakes]
      | error e =>
        have htakes : ¬ f.Takes depth t := by
          intro h
          obtain ⟨u, hu⟩ := hsteady f List.mem_cons_self h initial
          cases hread.symm.trans hu
        simp [readPositions, bind, Except.bind, hread, htakes]

theorem recordOfPositions_iff {result : Except Fault (σ × List Tree)} :
    (do
      let (record, rest) ← result
      Tail.recordEnd rest .closed
      return record) = .ok record ↔ result = .ok (record, []) := by
  rcases result with e | ⟨u, _ | ⟨t, rest⟩⟩
  · simp [bind, Except.bind]
  · simp [bind, Except.bind, Tail.recordEnd, pure, Except.pure]
  · simp [bind, Except.bind, Tail.recordEnd]

theorem readRecord_array_iff {items : List Tree} (hdepth : 1 < depth)
    (hsteady : ∀ f ∈ fields, f.Steady) (hoptional : ∀ f ∈ fields, f.required = false) :
    (∃ record, readRecord name fields initial depth (.array items .closed) = .ok record) ↔
      items.length ≤ fields.length ∧ ∀ p ∈ fields.zip items, p.1.Takes (depth - 1) p.2 := by
  rw [readRecord, if_neg (Nat.not_le_of_lt hdepth)]
  exact (exists_congr fun _ => recordOfPositions_iff).trans
    (readPositions_iff hsteady hoptional _ 0)

end Records

section Values

/-- A string that stands for a text. -/
def IsText (t : Tree) : Prop :=
  ∃ s text, t = .string s ∧ s.text = .ok text

/-- A truth value. -/
def IsFlag (t : Tree) : Prop :=
  ∃ b, t = .bool b

def IsArrayOf (kind : Tree → Prop) (t : Tree) : Prop :=
  ∃ items, t = .array items .closed ∧ ∀ item ∈ items, kind item

variable {depth : Nat} {t : Tree} {r : Reader α}

theorem mismatch_ne_ok {expected : String} {a : α} : mismatch expected t ≠ .ok a := by
  unfold mismatch
  split <;> simp

theorem readString_ok_iff : (∃ s, readString depth t = .ok s) ↔ IsText t := by
  constructor
  · rintro ⟨text, h⟩
    cases t with
    | string s => exact ⟨s, text, rfl, h⟩
    | _ => simp [readString, mismatch_ne_ok] at h
  · rintro ⟨s, text, rfl, h⟩
    exact ⟨text, h⟩

theorem readBool_ok_iff : (∃ b, readBool depth t = .ok b) ↔ IsFlag t := by
  constructor
  · rintro ⟨b, h⟩
    cases t with
    | bool b' => exact ⟨b', rfl⟩
    | _ => simp [readBool, mismatch_ne_ok] at h
  · rintro ⟨b, rfl⟩
    exact ⟨b, rfl⟩

private theorem readItems_ok_iff {items : List Tree} :
    (∃ as, readItems r depth items = .ok as) ↔ ∀ item ∈ items, ∃ a, r depth item = .ok a := by
  induction items with
  | nil => simp [readItems]
  | cons t items ih =>
    rw [List.forall_mem_cons, ← ih]
    cases hr : r depth t with
    | error e => simp [readItems, bind, Except.bind, hr]
    | ok a =>
      cases hrest : readItems r depth items with
      | error e => simp [readItems, bind, Except.bind, hr, hrest]
      | ok as => simp [readItems, bind, Except.bind, hr, hrest, pure, Except.pure]

theorem readList_ok_iff (hdepth : 1 < depth) :
    (∃ as, readList r depth t = .ok as) ↔
      IsArrayOf (fun item => ∃ a, r (depth - 1) item = .ok a) t := by
  constructor
  · rintro ⟨as, h⟩
    cases t with
    | array items tail =>
      rw [readList, if_neg (Nat.not_le_of_lt hdepth)] at h
      obtain ⟨as, hitems, h⟩ := bind_eq_ok_iff.mp h
      obtain ⟨u, htail, -⟩ := bind_eq_ok_iff.mp h
      obtain rfl := arrayEnd_eq_ok_iff.mp htail
      exact ⟨items, rfl, readItems_ok_iff.mp ⟨as, hitems⟩⟩
    | _ => simp [readList, mismatch_ne_ok] at h
  · rintro ⟨items, rfl, hitems⟩
    obtain ⟨as, has⟩ := readItems_ok_iff.mpr hitems
    refine ⟨as, ?_⟩
    rw [readList, if_neg (Nat.not_le_of_lt hdepth), has]
    rfl

end Values

end ChainAudit.Json
