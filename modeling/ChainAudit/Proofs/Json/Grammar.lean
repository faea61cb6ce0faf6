import ChainAudit.Json.Reader
import ChainAudit.Proofs.Json.Literals

/-!
# Documents that the grammar derives

A document is the tokens of a tree that nothing is missing from, each of them written in one of the
ways there are for it, with white space where one likes. It is scanned back to these tokens, the
tokens nest to that tree, and so what a reader makes of the document is what it makes of the tree.
-/

namespace ChainAudit.Json

open ChainAudit.Text

section Writing

structure Digits (ds : List Char) : Prop where
  nonempty : ds ≠ []
  digits : ∀ d ∈ ds, isDigit d = true

/-- The ways to write the digits after a point, or to leave them out. -/
inductive FractionText : List Char → Option (List Char) → Prop
  | none : FractionText [] none
  | some {ds : List Char} (hds : Digits ds) : FractionText ('.' :: ds) (some ds)

/-- The ways to write a sign. -/
inductive SignText : List Char → Bool → Prop
  | none : SignText [] false
  | plus : SignText ['+'] false
  | minus : SignText ['-'] true

/-- The ways to write a power of ten, or to leave it out. -/
inductive PowerText : List Char → Option PowerLit → Prop
  | none : PowerText [] none
  | some {e : Char} (he : e = 'e' ∨ e = 'E') {sign ds : List Char} {negative : Bool}
      (hsign : SignText sign negative) (hds : Digits ds) :
      PowerText (e :: sign ++ ds) (some ⟨negative, ds⟩)

/-- The ways to write a number. A zero stands in front of no other digit. -/
structure NumberText (cs : List Char) (n : NumberLit) : Prop where
  whole : Digits n.whole
  zero : ∀ ds, n.whole = '0' :: ds → ds = []
  parts : ∃ fraction power, FractionText fraction n.fraction ∧ PowerText power n.power ∧
    cs = (if n.negative then ['-'] else []) ++ n.whole ++ fraction ++ power

/-- The ways to write a piece of a string. -/
inductive PieceText : List Char → Piece → Prop
  | itself {c : Char} (hcontrol : isControl c = false) (hquote : c ≠ '\"') (hslash : c ≠ '\\') :
      PieceText [c] (.glyph (.char c))
  | escaped {e c : Char} (hchar : escapedChar? e = some c) : PieceText ['\\', e] (.escaped c)
  | unit {w x y z : Char} {n : Nat}
      (hunit : unitOf? (.char w) (.char x) (.char y) (.char z) = some n) :
      PieceText ['\\', 'u', w, x, y, z] (.unit n)

/-- The ways to write the inside of a string. -/
inductive PiecesText : List Char → List Piece → Prop
  | nil : PiecesText [] []
  | cons {cs ds : List Char} {p : Piece} {ps : List Piece} (hp : PieceText cs p)
      (hps : PiecesText ds ps) : PiecesText (cs ++ ds) (p :: ps)

inductive TokenText : List Char → Token → Prop
  | openArray : TokenText ['['] .openArray
  | closeArray : TokenText [']'] .closeArray
  | openObject : TokenText ['\x7b'] .openObject
  | closeObject : TokenText ['\x7d'] .closeObject
  | colon : TokenText [':'] .colon
  | comma : TokenText [','] .comma
  | null : TokenText "null".toList .null
  | true : TokenText "true".toList (.bool true)
  | false : TokenText "false".toList (.bool false)
  | number {cs : List Char} {n : NumberLit} (hn : NumberText cs n) : TokenText cs (.number n)
  | string {cs : List Char} {ps : List Piece} (hps : PiecesText cs ps) :
      TokenText ('\"' :: cs ++ ['\"']) (.string ⟨ps, .closed⟩)

end Writing

section Literals

variable {cs ds : List Char} {rest : List Glyph}

def EndsDigits (rest : List Glyph) : Prop :=
  ∀ c after, rest = .char c :: after → isDigit c = false

private theorem scanDigits_text (hds : ∀ d ∈ ds, isDigit d = true) (hrest : EndsDigits rest) :
    scanDigits (before ds rest) = (ds, rest) := by
  induction ds with
  | nil =>
    rw [before_nil]
    match rest, hrest with
    | [], _ => rfl
    | .stray b :: after, _ => rfl
    | .char c :: after, hrest => simp [scanDigits, hrest c after rfl]
  | cons d ds ih =>
    have hd := hds d List.mem_cons_self
    have hmore := ih fun c hc => hds c (List.mem_cons_of_mem d hc)
    simp only [before_cons, scanDigits, hd, if_true, hmore]

private theorem scanPower_text {power : Option PowerLit} (h : PowerText cs power)
    (hrest : EndsNumber rest) : scanPower (before cs rest) = (.ok power, rest) := by
  have hend : EndsDigits rest := fun c after heq => (hrest c after heq).1
  cases h with
  | none =>
    rw [before_nil]
    unfold scanPower
    split
    · rename_i c after
      obtain ⟨_, _, hsmall, hcapital⟩ := hrest c after rfl
      rw [if_neg (by simp [hsmall, hcapital])]
    · rfl
  | @some e he sign ds negative hsign hds =>
    have hscan := scanDigits_text hds.digits hend
    obtain ⟨d, ds', rfl⟩ := List.exists_cons_of_ne_nil hds.nonempty
    have hd := hds.digits d List.mem_cons_self
    have hminus : d ≠ '-' := by
      rintro rfl
      exact absurd hd (by decide)
    have hplus : d ≠ '+' := by
      rintro rfl
      exact absurd hd (by decide)
    rw [before_cons] at hscan
    cases hsign with
    | none => simp [scanPower, he, hminus, hplus, hscan]
    | plus => simp [scanPower, he, hscan]
    | minus => simp [scanPower, he, hscan]

private theorem scanFraction_text {fraction : Option (List Char)} (h : FractionText cs fraction)
    (hdigits : EndsDigits rest) (hpoint : ∀ after, rest ≠ .char '.' :: after) :
    scanFraction (before cs rest) = (.ok fraction, rest) := by
  cases h with
  | none =>
    rw [before_nil]
    unfold scanFraction
    split
    · rename_i after
      exact absurd rfl (hpoint after)
    · rfl
  | @some ds hds =>
    have hscan := scanDigits_text hds.digits hdigits
    obtain ⟨d, ds', rfl⟩ := List.exists_cons_of_ne_nil hds.nonempty
    rw [before_cons] at hscan
    simp [scanFraction, hscan]

private theorem before_power {power : Option PowerLit} (h : PowerText cs power)
    (hrest : EndsNumber rest) :
    EndsDigits (before cs rest) ∧ ∀ after, before cs rest ≠ .char '.' :: after := by
  cases h with
  | none => exact ⟨fun c after heq => (hrest c after heq).1,
      fun after heq => (hrest '.' after heq).2.1 rfl⟩
  | some he hsign hds =>
    constructor
    · intro c after heq
      obtain ⟨rfl, -⟩ : _ = c ∧ _ := by simpa using heq
      rcases he with rfl | rfl <;> decide
    · intro after heq
      obtain ⟨rfl, -⟩ : _ = '.' ∧ _ := by simpa using heq
      simp at he

private theorem before_fraction {fraction : Option (List Char)} (h : FractionText cs fraction)
    (hrest : EndsDigits rest) : EndsDigits (before cs rest) := by
  cases h with
  | none => exact hrest
  | some hds =>
    intro c after heq
    obtain ⟨rfl, -⟩ : '.' = c ∧ _ := by simpa using heq
    decide

private theorem scanNumber_text {n : NumberLit} {fraction power : List Char} (hwhole : Digits n.whole)
    (hzero : ∀ ds, n.whole = '0' :: ds → ds = []) (hfraction : FractionText fraction n.fraction)
    (hpower : PowerText power n.power) (hrest : EndsNumber rest) :
    scanNumber n.negative (before n.whole (before fraction (before power rest))) =
      (.number n, rest) := by
  obtain ⟨hdigits, hpoint⟩ := before_power hpower hrest
  have hscan := scanDigits_text hwhole.digits (before_fraction hfraction hdigits)
  unfold scanNumber
  rw [hscan]
  split
  · rename_i heq
    exact absurd (congrArg Prod.fst heq) hwhole.nonempty
  · rename_i heq
    cases hzero _ (congrArg Prod.fst heq)
  · rename_i heq
    obtain ⟨rfl, rfl⟩ := Prod.mk.inj heq
    rw [scanFraction_text hfraction hdigits hpoint]
    dsimp only
    rw [scanPower_text hpower hrest]

private theorem scanString_piece {p : Piece} (h : PieceText cs p) :
    scanString (before cs rest) =
      (⟨p :: (scanString rest).1.pieces, (scanString rest).1.ending⟩, (scanString rest).2) := by
  cases h with
  | itself hcontrol hquote hslash => simp [scanString, hcontrol, hslash]
  | @escaped e c hchar =>
    have he : e ≠ 'u' := by
      rintro rfl
      cases hchar
    simp [scanString, hchar, he]
  | unit hunit => simp [scanString, hunit]

private theorem scanString_pieces {ps : List Piece} (h : PiecesText cs ps) :
    scanString (before cs (.char '\"' :: rest)) = (⟨ps, .closed⟩, rest) := by
  induction h with
  | nil => simp [scanString]
  | cons hp _ ih => rw [before_append, scanString_piece hp, ih]

end Literals

section Scanning

/-- A token is read off a text in one step, which leaves `rest`. -/
structure Scans (text : List Glyph) (t : Token) (rest : List Glyph) : Prop where
  shorter : rest.length < text.length
  reads : ∀ steps, scanTokens (steps + 1) text = t :: scanTokens steps rest

variable {text rest : List Glyph} {ts : List Token} {cs : List Char} {t : Token}

private theorem isSpace_digit {c : Char} (hc : isDigit c = true) : isSpace c = false := by
  rw [Bool.eq_false_iff]
  intro h
  simp only [isSpace, Bool.or_eq_true, beq_iff_eq] at h
  rcases h with ((rfl | rfl) | rfl) | rfl <;> exact absurd hc (by decide)

private theorem scanToken_digit {c : Char} (hc : isDigit c = true) (more : List Glyph) :
    scanToken (.char c) more =
      (some (scanNumber false (.char c :: more)).1, (scanNumber false (.char c :: more)).2) := by
  simp only [scanToken, isSpace_digit hc, Bool.false_eq_true, if_false]
  -- the first character of a number starts no other token
  split <;> first | exact absurd hc (by decide) | simp only [hc, if_true]

private theorem Scans.word {c : Char}
    (h : scanToken (.char c) (before cs rest) = (some t, rest)) (ht : t.isWhole = true) :
    Scans (before (c :: cs) rest) t rest := by
  constructor
  · simp only [length_before, List.length_cons]
    omega
  · intro steps
    simp only [before_cons, scanTokens, h, ht, if_true]

private theorem Scans.number {n : NumberLit} (h : NumberText cs n)
    (hrest : EndsNumber rest) : Scans (before cs rest) (.number n) rest := by
  obtain ⟨fraction, power, hfraction, hpower, hcs⟩ := h.parts
  have hscan := scanNumber_text h.whole h.zero hfraction hpower hrest
  obtain ⟨d, ds, hwhole⟩ := List.exists_cons_of_ne_nil h.whole.nonempty
  have hd : isDigit d = true := h.whole.digits d (by simp [hwhole])
  cases hsign : n.negative with
  | true =>
    rw [hsign] at hcs hscan
    obtain rfl : cs = '-' :: (n.whole ++ fraction ++ power) := by simpa using hcs
    refine Scans.word ?_ rfl
    change (some (scanNumber true _).1, (scanNumber true _).2) = _
    simp only [before_append]
    rw [hscan]
  | false =>
    rw [hsign] at hcs hscan
    obtain rfl : cs = d :: (ds ++ fraction ++ power) := by simpa [hwhole] using hcs
    refine Scans.word ?_ rfl
    rw [hwhole, before_cons] at hscan
    simp only [before_append]
    rw [scanToken_digit hd, hscan]

theorem Scans.token (h : TokenText cs t) (hrest : ∀ n, t = .number n → EndsNumber rest) :
    Scans (before cs rest) t rest := by
  cases h with
  | openArray | closeArray | openObject | closeObject | colon | comma => exact .word rfl rfl
  | null | true | false => exact .word rfl rfl
  | number hn => exact .number hn (hrest _ rfl)
  | string hps =>
    have hscan : scanString (before _ (.char '\"' :: rest)) = _ := scanString_pieces hps
    rw [List.cons_append]
    refine .word ?_ rfl
    change (some (Token.string (scanString _).1), (scanString _).2) = _
    rw [before_append, before_cons, before_nil, hscan]

/-- The tokens of a text with white space around them. A number ends where nothing continues it. -/
inductive Lexes : List Glyph → List Token → Prop
  | nil : Lexes [] []
  | space {c : Char} {rest : List Glyph} {ts : List Token} (hc : isSpace c = true)
      (hrest : Lexes rest ts) : Lexes (.char c :: rest) ts
  | token {cs : List Char} {t : Token} {rest : List Glyph} {ts : List Token} (ht : TokenText cs t)
      (hend : ∀ n, t = .number n → EndsNumber rest) (hrest : Lexes rest ts) :
      Lexes (before cs rest) (t :: ts)

theorem Lexes.first (h : Lexes text (t :: ts)) :
    ∃ spaces cs rest, text = before (spaces ++ cs) rest ∧ (∀ c ∈ spaces, isSpace c = true) ∧
      TokenText cs t := by
  generalize hall : t :: ts = all at h
  induction h with
  | nil => cases hall
  | @space c _ _ hc _ ih =>
    obtain ⟨spaces, cs, rest, rfl, hspaces, ht⟩ := ih hall
    exact ⟨c :: spaces, cs, rest, rfl, List.forall_mem_cons.mpr ⟨hc, hspaces⟩, ht⟩
  | @token cs _ rest _ ht =>
    obtain ⟨rfl, -⟩ := List.cons.inj hall
    exact ⟨[], cs, rest, rfl, nofun, ht⟩

private theorem scanTokens_lexes (h : Lexes text ts) :
    ∀ steps, text.length ≤ steps → scanTokens steps text = ts := by
  induction h with
  | nil =>
    intro steps _
    cases steps <;> rfl
  | space hc _ ih =>
    intro steps hsteps
    obtain ⟨steps, rfl⟩ : ∃ n, steps = n + 1 := ⟨steps - 1, by simp at hsteps; omega⟩
    simp only [scanTokens, scanToken, hc, if_true]
    exact ih steps (by simpa using hsteps)
  | token ht hend _ ih =>
    intro steps hsteps
    obtain ⟨hshorter, hreads⟩ := Scans.token ht hend
    obtain ⟨steps, rfl⟩ : ∃ n, steps = n + 1 := ⟨steps - 1, by omega⟩
    rw [hreads, ih steps (by omega)]

theorem tokens_of_lexes (h : Lexes text ts) : tokens text = ts :=
  scanTokens_lexes h _ (Nat.le_refl _)

end Scanning

section Trees

mutual

/-- Nothing is missing from a tree, and nothing in it is misspelt. -/
def Tree.Whole : Tree → Prop
  | .null | .bool _ | .number _ => True
  | .string s => s.ending = .closed
  | .array items tail => WholeItems items ∧ tail = .closed
  | .object members tail => WholeMembers members ∧ tail = .closed
  | .badNumber _ | .badWord _ | .absent _ | .noColon _ => False

def WholeItems : List Tree → Prop
  | [] => True
  | t :: rest => t.Whole ∧ WholeItems rest

def WholeMembers : List (StringLit × Tree) → Prop
  | [] => True
  | (k, t) :: rest => k.ending = .closed ∧ t.Whole ∧ WholeMembers rest

end

mutual

def Tree.tokens : Tree → List Token
  | .null => [.null]
  | .bool b => [.bool b]
  | .number n => [.number n]
  | .string s => [.string s]
  | .array items _ => .openArray :: tokensOfItems items ++ [.closeArray]
  | .object members _ => .openObject :: tokensOfMembers members ++ [.closeObject]
  | .badNumber cut => [.badNumber cut]
  | .badWord cut => [.badWord cut]
  | .absent _ | .noColon _ => []

def tokensOfItems : List Tree → List Token
  | [] => []
  | [t] => t.tokens
  | t :: rest => t.tokens ++ .comma :: tokensOfItems rest

def tokensOfMembers : List (StringLit × Tree) → List Token
  | [] => []
  | [(k, t)] => .string k :: .colon :: t.tokens
  | (k, t) :: rest => .string k :: .colon :: t.tokens ++ .comma :: tokensOfMembers rest

end

theorem wholeMembers_iff {members : List (StringLit × Tree)} :
    WholeMembers members ↔ ∀ m ∈ members, m.1.ending = .closed ∧ m.2.Whole := by
  induction members with
  | nil => simp [WholeMembers]
  | cons m members ih => simp [WholeMembers, ih, and_assoc]

variable {stack : List Frame} {rest : List Token}

theorem readValue_leaf {t : Token} {leaf : Tree} (h : t.leaf? = some leaf) :
    readValue stack (t :: rest) = readAfter leaf stack rest := by
  cases t <;> simp_all [readValue, Token.leaf?]

private theorem readValue_openArray {t : Token} (ht : t ≠ .closeArray) :
    readValue stack (.openArray :: t :: rest) = readValue (.array [] :: stack) (t :: rest) := by
  cases t <;> simp_all [readValue]

private theorem readAfter_comma {t : Token} (ht : t ≠ .closeArray) (item : Tree)
    (items : List Tree) :
    readAfter item (.array items :: stack) (.comma :: t :: rest) =
      readValue (.array (items ++ [item]) :: stack) (t :: rest) := by
  cases t <;> simp_all [readAfter]

private theorem tokens_head : ∀ t : Tree, t.Whole →
    ∃ u us, t.tokens = u :: us ∧ u ≠ .closeArray
  | .null, _ => ⟨_, _, rfl, by decide⟩
  | .bool _, _ => ⟨_, _, rfl, by simp⟩
  | .number _, _ => ⟨_, _, rfl, by simp⟩
  | .string _, _ => ⟨_, _, rfl, by simp⟩
  | .array _ _, _ => ⟨_, _, rfl, by decide⟩
  | .object _ _, _ => ⟨_, _, rfl, by decide⟩

private theorem tokensOfItems_head {t : Tree} (ht : t.Whole) (more : List Tree) :
    ∃ u us, tokensOfItems (t :: more) = u :: us ∧ u ≠ .closeArray := by
  obtain ⟨u, us, htokens, hu⟩ := tokens_head t ht
  cases more with
  | nil => exact ⟨u, us, htokens, hu⟩
  | cons t' more =>
    refine ⟨u, us ++ .comma :: tokensOfItems (t' :: more), ?_, hu⟩
    rw [tokensOfItems, htokens, List.cons_append]
    simp

private theorem tokensOfMembers_head (k : StringLit) (t : Tree) (more : List (StringLit × Tree)) :
    ∃ ts, tokensOfMembers ((k, t) :: more) = .string k :: ts := by
  cases more with
  | nil => exact ⟨_, rfl⟩
  | cons m more => exact ⟨_, rfl⟩

mutual

/-- The tokens of a tree are built up to it, wherever they stand. -/
theorem readValue_tokens : ∀ (t : Tree) (stack : List Frame) (rest : List Token), t.Whole →
    readValue stack (t.tokens ++ rest) = readAfter t stack rest
  | .null, _, _, _ => readValue_leaf rfl
  | .bool _, _, _, _ => readValue_leaf rfl
  | .number _, _, _, _ => readValue_leaf rfl
  | .string _, _, _, _ => readValue_leaf rfl
  | .array [] tail, stack, rest, hwhole => by
    obtain rfl : tail = .closed := hwhole.2
    simp [Tree.tokens, tokensOfItems, readValue]
  | .array (t :: more) tail, stack, rest, hwhole => by
    obtain ⟨hitems, rfl⟩ : WholeItems (t :: more) ∧ tail = .closed := hwhole
    obtain ⟨u, us, htokens, hu⟩ := tokensOfItems_head hitems.1 more
    have hread := readValue_items (t :: more) [] stack rest (by simp) hitems
    simp only [Tree.tokens, List.cons_append, List.append_assoc]
    rw [htokens] at hread ⊢
    exact (readValue_openArray hu).trans hread
  | .object [] tail, stack, rest, hwhole => by
    obtain rfl : tail = .closed := hwhole.2
    simp [Tree.tokens, tokensOfMembers, readValue]
  | .object ((k, t) :: more) tail, stack, rest, hwhole => by
    obtain ⟨hmembers, rfl⟩ : WholeMembers ((k, t) :: more) ∧ tail = .closed := hwhole
    obtain ⟨ts, hts⟩ := tokensOfMembers_head k t more
    have hread := readMember_members ((k, t) :: more) [] stack rest k ts hmembers hts
    simp only [Tree.tokens, List.cons_append, List.append_assoc, hts, readValue, hmembers.1, if_true]
    exact hread

theorem readValue_items : ∀ (items done : List Tree) (stack : List Frame) (rest : List Token),
    items ≠ [] → WholeItems items →
    readValue (.array done :: stack) (tokensOfItems items ++ .closeArray :: rest) =
      readAfter (.array (done ++ items) .closed) stack rest
  | [], _, _, _, hne, _ => absurd rfl hne
  | [t], done, stack, rest, _, hwhole => by
    rw [tokensOfItems, readValue_tokens t _ _ hwhole.1]
    simp [readAfter]
  | t :: t' :: more, done, stack, rest, _, hwhole => by
    obtain ⟨u, us, htokens, hu⟩ := tokensOfItems_head hwhole.2.1 more
    have hmore := readValue_items (t' :: more) (done ++ [t]) stack rest (by simp) hwhole.2
    have hall : tokensOfItems (t :: t' :: more) =
        t.tokens ++ .comma :: tokensOfItems (t' :: more) := rfl
    rw [hall, List.append_assoc, readValue_tokens t _ _ hwhole.1]
    rw [htokens] at hmore ⊢
    rw [List.cons_append, List.cons_append, readAfter_comma hu, ← List.cons_append, hmore]
    simp

theorem readMember_members : ∀ (members done : List (StringLit × Tree)) (stack : List Frame)
    (rest : List Token) (key : StringLit) (ts : List Token), WholeMembers members →
    tokensOfMembers members = .string key :: ts →
    readMember done key stack (ts ++ .closeObject :: rest) =
      readAfter (.object (done ++ members) .closed) stack rest
  | [], _, _, _, _, _, _, htokens => by cases htokens
  | [(k, t)], done, stack, rest, key, ts, hwhole, htokens => by
    obtain ⟨rfl, rfl⟩ : k = key ∧ .colon :: t.tokens = ts := by
      simpa [tokensOfMembers] using htokens
    rw [List.cons_append, readMember, readValue_tokens t _ _ hwhole.2.1]
    simp [readAfter]
  | (k, t) :: (k', t') :: more, done, stack, rest, key, ts, hwhole, htokens => by
    obtain ⟨rest', hrest⟩ := tokensOfMembers_head k' t' more
    have hmore := readMember_members ((k', t') :: more) (done ++ [(k, t)]) stack rest k' rest'
      hwhole.2.2 hrest
    obtain ⟨rfl, rfl⟩ : k = key ∧
        .colon :: (t.tokens ++ .comma :: tokensOfMembers ((k', t') :: more)) = ts := by
      simpa [tokensOfMembers] using htokens
    have hclosed : k'.ending = .closed := hwhole.2.2.1
    rw [List.cons_append, readMember, List.append_assoc, readValue_tokens t _ _ hwhole.2.1, hrest]
    simp only [List.cons_append, readAfter, hclosed, if_true]
    rw [hmore]
    simp

end

/-- A text is a document with this tree. -/
structure Document (text : List Glyph) (t : Tree) : Prop where
  whole : t.Whole
  lexes : Lexes text t.tokens

/-- The tokens of a text nest to a tree, and none are left behind it. -/
def HasTree (text : List Glyph) (t : Tree) : Prop := treeOf (tokens text) = (t, [])

variable {text : List Glyph} {t : Tree}

theorem Document.hasTree (h : Document text t) : HasTree text t := by
  have hbuilt := readValue_tokens t [] [] h.whole
  rw [List.append_nil] at hbuilt
  rw [HasTree, tokens_of_lexes h.lexes, treeOf, hbuilt]
  simp [readAfter]

theorem HasTree.decode_eq (h : HasTree text t) (r : Reader α) : decode r text = r depthLimit t := by
  rw [decode, h]
  dsimp only
  cases r depthLimit t <;> rfl

theorem exists_hasTree {r : Reader α} {a : α} (h : decode r text = .ok a) :
    ∃ t, HasTree text t := by
  rw [decode] at h
  cases htree : treeOf (tokens text) with
  | mk t rest =>
    rw [htree] at h
    cases hr : r depthLimit t with
    | error e => simp [hr, bind, Except.bind] at h
    | ok b =>
      cases rest with
      | nil => exact ⟨t, htree⟩
      | cons u rest => simp [hr, bind, Except.bind] at h

theorem decode_document (h : Document text t) (r : Reader α) : decode r text = r depthLimit t :=
  h.hasTree.decode_eq r

end Trees

end ChainAudit.Json
