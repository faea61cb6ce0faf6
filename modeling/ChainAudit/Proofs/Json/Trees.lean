import ChainAudit.Proofs.Json.Grammar

/-!
# The tree of a text that was written

A value in compact form is one token after the other, without anything in between, and its tokens
nest as the value does. So the text of a value is a document whose tree has the shape of the value
and nothing behind it, and what a reader makes of the text is what it makes of that tree. Doubles
are left out: their literals are rounded.
-/

namespace ChainAudit.Json

open ChainAudit.Text

section Shapes

mutual

/-- All numbers of a value are whole. -/
def Value.Exact : Value → Prop
  | .number (.whole _) => True
  | .number (.float _) => False
  | .array items => ExactItems items
  | .object members => ExactMembers members
  | .null | .bool _ | .string _ => True

def ExactItems : List Value → Prop
  | [] => True
  | v :: rest => v.Exact ∧ ExactItems rest

def ExactMembers : List (String × Value) → Prop
  | [] => True
  | (_, v) :: rest => v.Exact ∧ ExactMembers rest

end

mutual

def Value.tree : Value → Tree
  | .null => .null
  | .bool b => .bool b
  | .number (.whole i) => .number (wholeLit i)
  | .number (.float _) => .absent false
  | .string s => .string (textLit s)
  | .array items => .array (itemTrees items) .closed
  | .object members => .object (memberTrees members) .closed

def itemTrees : List Value → List Tree
  | [] => []
  | v :: rest => v.tree :: itemTrees rest

def memberTrees : List (String × Value) → List (StringLit × Tree)
  | [] => []
  | (k, v) :: rest => (textLit k, v.tree) :: memberTrees rest

end

mutual

theorem whole_tree : ∀ v : Value, v.Exact → v.tree.Whole
  | .null, _ | .bool _, _ | .number (.whole _), _ => trivial
  | .number (.float _), hexact => hexact.elim
  | .string _, _ => rfl
  | .array items, hexact => ⟨whole_items items hexact, rfl⟩
  | .object members, hexact => ⟨whole_members members hexact, rfl⟩

theorem whole_items : ∀ items : List Value, ExactItems items → WholeItems (itemTrees items)
  | [], _ => trivial
  | v :: more, hexact => ⟨whole_tree v hexact.1, whole_items more hexact.2⟩

theorem whole_members : ∀ members : List (String × Value), ExactMembers members →
    WholeMembers (memberTrees members)
  | [], _ => trivial
  | (_, v) :: more, hexact => ⟨rfl, whole_tree v hexact.1, whole_members more hexact.2⟩

end

end Shapes

section Texts

variable {rest : List Glyph} {ts : List Token}

theorem endsNumber_mark {c : Char} (hc : c = ',' ∨ c = ']' ∨ c = '\x7d') :
    EndsNumber (.char c :: rest) := by
  intro c' after heq
  obtain ⟨heq, _⟩ := List.cons.inj heq
  obtain rfl := Glyph.char.inj heq
  rcases hc with rfl | rfl | rfl <;> decide

theorem endsNumber_nil : EndsNumber [] := by
  intro c after heq
  cases heq

private theorem digits_writeNumber (n : Nat) : Digits (writeNumber n) :=
  ⟨writeNumber_ne_nil n, isDigit_writeNumber n⟩

private theorem writeNumber_zero (n : Nat) (ds : List Char) (h : writeNumber n = '0' :: ds) :
    ds = [] := by
  rcases Nat.eq_zero_or_pos n with rfl | hn
  · exact (List.cons.inj h).2.symm
  · exact absurd (congrArg List.head? h) (writeNumber_head hn)

private theorem text_whole (i : Int) : TokenText (writeInteger i) (.number (wholeLit i)) := by
  refine .number ?_
  cases i with
  | ofNat n =>
    exact ⟨digits_writeNumber n, writeNumber_zero n, [], [], .none, .none, by
      simp [wholeLit, writeInteger]⟩
  | negSucc n =>
    exact ⟨digits_writeNumber (n + 1), writeNumber_zero (n + 1), [], [], .none, .none, by
      simp [wholeLit, writeInteger]⟩

private theorem text_char (c : Char) : PieceText (writeChar c) (pieceOf c) := by
  have hwritten := writtenAs c
  revert hwritten
  generalize writeChar c = cs
  generalize pieceOf c = p
  intro hwritten
  cases hwritten with
  | itself hcontrol hquote hslash => exact .itself hcontrol hquote hslash
  | escaped _ hchar => exact .escaped hchar
  | unit _ hunit => exact .unit hunit

theorem text_string (s : String) : TokenText (writeString s) (.string (textLit s)) := by
  refine .string ?_
  induction s.toList with
  | nil => exact .nil
  | cons c cs ih => exact .cons (text_char c) ih

mutual

/-- A value that is written is its tokens, and what follows it goes on after them. -/
theorem lexes_compact : ∀ (v : Value) (rest : List Glyph) (ts : List Token), v.Exact →
    EndsNumber rest → Lexes rest ts → Lexes (before v.compact rest) (v.tree.tokens ++ ts)
  | .null, _, _, _, _, h => .token .null nofun h
  | .bool true, _, _, _, _, h => .token .true nofun h
  | .bool false, _, _, _, _, h => .token .false nofun h
  | .number (.whole i), _, _, _, hrest, h => .token (text_whole i) (fun _ _ => hrest) h
  | .number (.float _), _, _, hexact, _, _ => hexact.elim
  | .string s, _, _, _, _, h => .token (text_string s) nofun h
  | .array items, rest, ts, hexact, _, h => by
    have hclose : Lexes (.char ']' :: rest) (.closeArray :: ts) := .token .closeArray nofun h
    have hitems := lexes_items items _ _ hexact (endsNumber_mark (by simp)) hclose
    simp only [Value.compact, Value.tree, Tree.tokens, before_cons, before_append, before_nil,
      List.cons_append, List.append_assoc, List.nil_append]
    exact .token .openArray nofun hitems
  | .object members, rest, ts, hexact, _, h => by
    have hclose : Lexes (.char '\x7d' :: rest) (.closeObject :: ts) := .token .closeObject nofun h
    have hmembers := lexes_members members _ _ hexact (endsNumber_mark (by simp)) hclose
    simp only [Value.compact, Value.tree, Tree.tokens, before_cons, before_append, before_nil,
      List.cons_append, List.append_assoc, List.nil_append]
    exact .token .openObject nofun hmembers

theorem lexes_items : ∀ (items : List Value) (rest : List Glyph) (ts : List Token),
    ExactItems items → EndsNumber rest → Lexes rest ts →
    Lexes (before (compactItems items) rest) (tokensOfItems (itemTrees items) ++ ts)
  | [], _, _, _, _, h => h
  | [v], rest, ts, hexact, hrest, h => lexes_compact v rest ts hexact.1 hrest h
  | v :: w :: more, rest, ts, hexact, hrest, h => by
    have hmore := lexes_items (w :: more) rest ts hexact.2 hrest h
    have hcomma : Lexes (.char ',' :: before (compactItems (w :: more)) rest) (.comma :: _) :=
      .token .comma nofun hmore
    have hfirst := lexes_compact v _ _ hexact.1 (endsNumber_mark (by simp)) hcomma
    simpa [compactItems, itemTrees, tokensOfItems] using hfirst

theorem lexes_members : ∀ (members : List (String × Value)) (rest : List Glyph) (ts : List Token),
    ExactMembers members → EndsNumber rest → Lexes rest ts →
    Lexes (before (compactMembers members) rest) (tokensOfMembers (memberTrees members) ++ ts)
  | [], _, _, _, _, h => h
  | [(k, v)], rest, ts, hexact, hrest, h => by
    have hvalue := lexes_compact v rest ts hexact.1 hrest h
    have hmember := Lexes.token (text_string k) nofun (Lexes.token .colon nofun hvalue)
    simpa [compactMembers, memberTrees, tokensOfMembers] using hmember
  | (k, v) :: m :: more, rest, ts, hexact, hrest, h => by
    have hmore := lexes_members (m :: more) rest ts hexact.2 hrest h
    have hcomma : Lexes (.char ',' :: before (compactMembers (m :: more)) rest) (.comma :: _) :=
      .token .comma nofun hmore
    have hvalue := lexes_compact v _ _ hexact.1 (endsNumber_mark (by simp)) hcomma
    have hmember := Lexes.token (text_string k) nofun (Lexes.token .colon nofun hvalue)
    simpa [compactMembers, memberTrees, tokensOfMembers] using hmember

end

end Texts

/-- The text of a value is a document with the tree of the value. -/
theorem document_toText {v : Value} (hv : v.Exact) : Document (glyphs v.toText) v.tree := by
  have hlexes := lexes_compact v [] [] hv endsNumber_nil .nil
  refine ⟨whole_tree v hv, ?_⟩
  rw [glyphs_eq_before, Value.toText, String.toList_ofList]
  simpa using hlexes

theorem document_toBytes {v : Value} (hv : v.Exact)
    (hchars : Text.decodeBytes (toBytes v.toText) = glyphs v.toText) :
    Document (Text.decodeBytes (toBytes v.toText)) v.tree :=
  hchars ▸ document_toText hv

theorem decodeText_toText (r : Reader α) {v : Value} (hv : v.Exact) :
    decodeText r v.toText = r depthLimit v.tree :=
  decode_document (document_toText hv) r

end ChainAudit.Json
