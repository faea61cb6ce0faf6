import ChainAudit.Proofs.Json.Objects

/-!
# Values that are read in full

A value of no particular type is read in full: every string in it, keys included, has to stand for a
text and every number for one in range, and containers may be open only so deep. So it is told from
the tree alone whether it can be read.
-/

namespace ChainAudit.Json

section Readable

mutual

/-- Everything in a tree is there, and its literals stand for texts and numbers. -/
def Tree.Readable : Tree → Prop
  | .null | .bool _ => True
  | .number n => ∃ x, n.number = .ok x
  | .string s => ∃ text, s.text = .ok text
  | .array items tail => ReadableItems items ∧ tail = .closed
  | .object members tail => ReadableMembers members ∧ tail = .closed
  | .badNumber _ | .badWord _ | .absent _ | .noColon _ => False

def ReadableItems : List Tree → Prop
  | [] => True
  | t :: rest => t.Readable ∧ ReadableItems rest

def ReadableMembers : List (StringLit × Tree) → Prop
  | [] => True
  | (k, t) :: rest => (∃ name, k.text = .ok name) ∧ t.Readable ∧ ReadableMembers rest

end

mutual

/-- How many containers are open at a time in a tree. -/
def Tree.nesting : Tree → Nat
  | .array items _ => nestingOfItems items + 1
  | .object members _ => nestingOfMembers members + 1
  | _ => 0

def nestingOfItems : List Tree → Nat
  | [] => 0
  | t :: rest => max t.nesting (nestingOfItems rest)

def nestingOfMembers : List (StringLit × Tree) → Nat
  | [] => 0
  | (_, t) :: rest => max t.nesting (nestingOfMembers rest)

end

end Readable

section Values

variable {depth : Nat} {items : List Tree} {members : List (StringLit × Tree)} {tail : Tail}

theorem memberValues_eq_ok_iff {values : List (String × Value)} :
    memberValues depth members = .ok values ↔
      List.Forall₂ (fun m v => m.1.text = .ok v.1 ∧ m.2.value depth = .ok v.2) members values := by
  induction members generalizing values with
  | nil => simp [memberValues, eq_comm]
  | cons m members ih =>
    obtain ⟨k, t⟩ := m
    simp only [memberValues, bind_eq_ok_iff, ih, pure, Except.pure, Except.ok.injEq]
    constructor
    · rintro ⟨name, hname, v, hv, vs, hvs, rfl⟩
      exact .cons ⟨hname, hv⟩ hvs
    · rintro (_ | ⟨⟨hname, hv⟩, hvs⟩)
      exact ⟨_, hname, _, hv, _, hvs, rfl⟩

theorem exists_memberValues_iff {P : String → Prop} :
    (∃ values, memberValues depth members = .ok values ∧ ∀ v ∈ values, P v.1) ↔
      ∀ m ∈ members, (∃ name, m.1.text = .ok name ∧ P name) ∧ ∃ v, m.2.value depth = .ok v := by
  simp only [memberValues_eq_ok_iff]
  induction members with
  | nil => simp
  | cons m members ih =>
    rw [List.forall_mem_cons, ← ih]
    simp only [List.forall₂_cons_left_iff]
    constructor
    · rintro ⟨-, ⟨v, vs, ⟨hname, hv⟩, hvs, rfl⟩, hP⟩
      obtain ⟨hfirst, hP⟩ := List.forall_mem_cons.mp hP
      exact ⟨⟨⟨v.1, hname, hfirst⟩, v.2, hv⟩, vs, hvs, hP⟩
    · rintro ⟨⟨⟨name, hname, hfirst⟩, v, hv⟩, vs, hvs, hP⟩
      exact ⟨_, ⟨(name, v), vs, ⟨hname, hv⟩, hvs, rfl⟩, List.forall_mem_cons.mpr ⟨hfirst, hP⟩⟩

theorem memberValues_append_cons_iff {front back : List (String × Value)} {name : String}
    {v : Value} : memberValues depth members = .ok (front ++ (name, v) :: back) ↔
      ∃ fs k t bs, members = fs ++ (k, t) :: bs ∧ memberValues depth fs = .ok front ∧
        k.text = .ok name ∧ t.value depth = .ok v ∧ memberValues depth bs = .ok back := by
  simp only [memberValues_eq_ok_iff]
  constructor
  · intro h
    have hfront := List.forall₂_take_append _ _ _ h
    have hback := List.forall₂_drop_append _ _ _ h
    obtain ⟨m, bs, ⟨hname, hv⟩, hbs, hdrop⟩ := List.forall₂_cons_right_iff.mp hback
    refine ⟨_, m.1, m.2, bs, ?_, hfront, hname, hv, hbs⟩
    rw [← hdrop, List.take_append_drop]
  · rintro ⟨fs, k, t, bs, rfl, hfront, hname, hv, hbs⟩
    exact List.rel_append hfront (.cons ⟨hname, hv⟩ hbs)

theorem value_array_iff {v : Value} : (Tree.array items tail).value depth = .ok v ↔
    1 < depth ∧ tail = .closed ∧ ∃ vs, itemValues (depth - 1) items = .ok vs ∧ .array vs = v := by
  rw [Tree.value]
  by_cases hdepth : depth ≤ 1
  · simp [hdepth, Nat.not_lt.mpr hdepth]
  · simp only [hdepth, Nat.lt_of_not_le hdepth, if_false, true_and, bind_eq_ok_iff,
      arrayEnd_eq_ok_iff, pure, Except.pure, Except.ok.injEq]
    constructor
    · rintro ⟨vs, hvs, -, htail, hv⟩
      exact ⟨htail, vs, hvs, hv⟩
    · rintro ⟨htail, vs, hvs, hv⟩
      exact ⟨vs, hvs, (), htail, hv⟩

theorem value_object_iff {v : Value} : (Tree.object members tail).value depth = .ok v ↔
    1 < depth ∧ tail = .closed ∧
      ∃ vs, memberValues (depth - 1) members = .ok vs ∧ .object vs = v := by
  rw [Tree.value]
  by_cases hdepth : depth ≤ 1
  · simp [hdepth, Nat.not_lt.mpr hdepth]
  · simp only [hdepth, Nat.lt_of_not_le hdepth, if_false, true_and, bind_eq_ok_iff,
      objectEnd_eq_ok_iff, pure, Except.pure, Except.ok.injEq]
    constructor
    · rintro ⟨vs, hvs, -, htail, hv⟩
      exact ⟨htail, vs, hvs, hv⟩
    · rintro ⟨htail, vs, hvs, hv⟩
      exact ⟨vs, hvs, (), htail, hv⟩

private theorem entered_iff {n : Nat} {read readable : Prop}
    (h : 1 < depth → (read ↔ readable ∧ n < depth - 1)) :
    1 < depth ∧ tail = .closed ∧ read ↔ (readable ∧ tail = .closed) ∧ n + 1 < depth := by
  by_cases hdepth : 1 < depth
  · rw [h hdepth, Nat.lt_sub_iff_add_lt]
    tauto
  · have hdeep : ¬ n + 1 < depth := by omega
    simp [hdepth, hdeep]

theorem value_eq_string_iff {t : Tree} {s : String} :
    t.value depth = .ok (.string s) ↔ ∃ lit, t = .string lit ∧ lit.text = .ok s := by
  cases t with
  | string lit => simp [Tree.value, map_eq_ok_iff]
  | number n => simp [Tree.value, map_eq_ok_iff]
  | array items tail => simp [value_array_iff]
  | object members tail => simp [value_object_iff]
  | _ => simp [Tree.value]

theorem value_eq_object_iff {t : Tree} {values : List (String × Value)} :
    t.value depth = .ok (.object values) ↔
      ∃ members, t = .object members .closed ∧ 1 < depth ∧
        memberValues (depth - 1) members = .ok values := by
  cases t with
  | string lit => simp [Tree.value, map_eq_ok_iff]
  | number n => simp [Tree.value, map_eq_ok_iff]
  | array items tail => simp [value_array_iff]
  | object members tail => simp [value_object_iff, and_left_comm]
  | _ => simp [Tree.value]

mutual

/-- A tree is read in full if it is readable and not nested too deep. -/
theorem value_ok_iff : ∀ (t : Tree) {depth : Nat}, 0 < depth →
    ((∃ v, t.value depth = .ok v) ↔ t.Readable ∧ t.nesting < depth)
  | .null, _, h | .bool _, _, h => by simp [Tree.value, Tree.Readable, Tree.nesting, h]
  | .number n, _, h => by simp [Tree.value, Tree.Readable, Tree.nesting, h, map_eq_ok_iff]
  | .string s, _, h => by simp [Tree.value, Tree.Readable, Tree.nesting, h, map_eq_ok_iff]
  | .badNumber _, _, _ | .badWord _, _, _ | .absent _, _, _ | .noColon _, _, _ => by
    simp [Tree.value, Tree.Readable]
  | .array items tail, _, _ => by
    rw [Tree.Readable, Tree.nesting,
      ← entered_iff fun h => itemValues_ok_iff items (Nat.sub_pos_of_lt h)]
    simp [value_array_iff]
  | .object members tail, _, _ => by
    rw [Tree.Readable, Tree.nesting,
      ← entered_iff fun h => memberValues_ok_iff members (Nat.sub_pos_of_lt h)]
    simp [value_object_iff]

theorem itemValues_ok_iff : ∀ (items : List Tree) {depth : Nat}, 0 < depth →
    ((∃ vs, itemValues depth items = .ok vs) ↔
      ReadableItems items ∧ nestingOfItems items < depth)
  | [], _, h => by simp [itemValues, ReadableItems, nestingOfItems, h]
  | t :: rest, depth, h => by
    have ht := value_ok_iff t h
    have hrest := itemValues_ok_iff rest h
    simp only [itemValues, bind_eq_ok_iff, pure, Except.pure, Except.ok.injEq, ReadableItems,
      nestingOfItems, Nat.max_lt]
    rw [and_and_and_comm, ← ht, ← hrest]
    constructor
    · rintro ⟨-, v, hv, vs, hvs, -⟩
      exact ⟨⟨v, hv⟩, vs, hvs⟩
    · rintro ⟨⟨v, hv⟩, vs, hvs⟩
      exact ⟨_, v, hv, vs, hvs, rfl⟩

theorem memberValues_ok_iff : ∀ (members : List (StringLit × Tree)) {depth : Nat}, 0 < depth →
    ((∃ vs, memberValues depth members = .ok vs) ↔
      ReadableMembers members ∧ nestingOfMembers members < depth)
  | [], _, h => by simp [memberValues, ReadableMembers, nestingOfMembers, h]
  | (k, t) :: rest, depth, h => by
    have ht := value_ok_iff t h
    have hrest := memberValues_ok_iff rest h
    simp only [memberValues, bind_eq_ok_iff, pure, Except.pure, Except.ok.injEq, ReadableMembers,
      nestingOfMembers, Nat.max_lt]
    rw [and_assoc, and_and_and_comm, ← ht, ← hrest]
    constructor
    · rintro ⟨-, name, hname, v, hv, vs, hvs, -⟩
      exact ⟨⟨name, hname⟩, ⟨v, hv⟩, vs, hvs⟩
    · rintro ⟨⟨name, hname⟩, ⟨v, hv⟩, vs, hvs⟩
      exact ⟨_, name, hname, v, hv, vs, hvs, rfl⟩

end

end Values

end ChainAudit.Json
