import ChainAudit.Proofs.Json.Values

/-!
# What is read in full is a document

Whatever was scanned off a text without a fault stands in it in one of the ways to write it, and
whatever tokens were built up to a whole tree are the tokens of that tree. So a text whose tree can
be read in full is derived by the grammar, and nothing else is read.
-/

namespace ChainAudit.Json

open ChainAudit.Text

section Literals

variable {text rest : List Glyph} {ds letters : List Char}

private theorem scanDigits_sound (h : scanDigits text = (ds, rest)) :
    text = before ds rest ∧ (∀ d ∈ ds, isDigit d = true) ∧ EndsDigits rest := by
  fun_induction scanDigits text generalizing ds rest with
  | case1 c text hc ds' after hrest ih =>
    obtain ⟨rfl, rfl⟩ := Prod.mk.inj h
    obtain ⟨htext, hds, hend⟩ := ih hrest
    exact ⟨by rw [htext, before_cons], List.forall_mem_cons.mpr ⟨hc, hds⟩, hend⟩
  | case2 c text hc =>
    obtain ⟨rfl, rfl⟩ := Prod.mk.inj h
    refine ⟨rfl, nofun, fun c' after heq => ?_⟩
    obtain ⟨rfl, -⟩ : c = c' ∧ _ := by simpa using heq
    exact Bool.eq_false_iff.mpr hc
  | case3 text hother =>
    obtain ⟨rfl, rfl⟩ := Prod.mk.inj h
    exact ⟨rfl, nofun, fun c after heq => absurd heq (hother c after)⟩

private theorem scanFraction_sound {fraction : Option (List Char)}
    (h : scanFraction text = (.ok fraction, rest)) :
    ∃ cs, text = before cs rest ∧ FractionText cs fraction ∧
      (EndsDigits text → EndsDigits rest) := by
  unfold scanFraction at h
  split at h
  · split at h
    · cases (Prod.mk.inj h).1
    · rename_i ds after hne hdigits
      obtain ⟨hfraction, rfl⟩ := Prod.mk.inj h
      obtain rfl := Except.ok.inj hfraction
      obtain ⟨rfl, hds, hend⟩ := scanDigits_sound hdigits
      exact ⟨'.' :: ds, rfl, .some ⟨hne, hds⟩, fun _ => hend⟩
  · obtain ⟨hnone, rfl⟩ := Prod.mk.inj h
    obtain rfl := Except.ok.inj hnone
    exact ⟨[], rfl, .none, id⟩

private theorem scanSign_sound {negative : Bool} {unsigned : List Glyph}
    (h : (match text with
      | .char '-' :: r => (true, r)
      | .char '+' :: r => (false, r)
      | r => (false, r)) = (negative, unsigned)) :
    ∃ sign, SignText sign negative ∧ text = before sign unsigned := by
  split at h
  · obtain ⟨rfl, rfl⟩ := Prod.mk.inj h
    exact ⟨_, .minus, rfl⟩
  · obtain ⟨rfl, rfl⟩ := Prod.mk.inj h
    exact ⟨_, .plus, rfl⟩
  · obtain ⟨rfl, rfl⟩ := Prod.mk.inj h
    exact ⟨_, .none, rfl⟩

private theorem scanPower_sound {power : Option PowerLit}
    (h : scanPower text = (.ok power, rest)) :
    ∃ cs, text = before cs rest ∧ PowerText cs power ∧ (EndsDigits text → EndsDigits rest) := by
  unfold scanPower at h
  split at h
  · rename_i e after
    split at h
    · rename_i he
      split at h
      rename_i negative unsigned hsigned
      obtain ⟨sign, hsign, rfl⟩ := scanSign_sound hsigned
      split at h
      · cases (Prod.mk.inj h).1
      · rename_i ds after hne hdigits
        obtain ⟨hpower, rfl⟩ := Prod.mk.inj h
        obtain rfl := Except.ok.inj hpower
        obtain ⟨rfl, hds, hend⟩ := scanDigits_sound hdigits
        refine ⟨e :: sign ++ ds, ?_, .some he hsign ⟨hne, hds⟩, fun _ => hend⟩
        rw [before_append, before_cons]
    · obtain ⟨hnone, rfl⟩ := Prod.mk.inj h
      obtain rfl := Except.ok.inj hnone
      exact ⟨[], rfl, .none, id⟩
  · obtain ⟨hnone, rfl⟩ := Prod.mk.inj h
    obtain rfl := Except.ok.inj hnone
    exact ⟨[], rfl, .none, id⟩

private theorem scanFraction_fault {fault : Token} (h : scanFraction text = (.error fault, rest)) :
    ∃ cut, fault = .badNumber cut := by
  unfold scanFraction at h
  split at h
  · split at h
    · exact ⟨_, (Except.error.inj (Prod.mk.inj h).1).symm⟩
    · cases (Prod.mk.inj h).1
  · cases (Prod.mk.inj h).1

private theorem scanPower_fault {fault : Token} (h : scanPower text = (.error fault, rest)) :
    ∃ cut, fault = .badNumber cut := by
  unfold scanPower at h
  split at h
  · split at h
    · dsimp only at h
      split at h
      · exact ⟨_, (Except.error.inj (Prod.mk.inj h).1).symm⟩
      · cases (Prod.mk.inj h).1
    · cases (Prod.mk.inj h).1
  · cases (Prod.mk.inj h).1

private theorem scanNumber_sound {negative : Bool} {n : NumberLit}
    (h : scanNumber negative text = (.number n, rest)) :
    EndsDigits rest ∧
      ∃ cs, text = before cs rest ∧ NumberText ((if negative then ['-'] else []) ++ cs) n := by
  unfold scanNumber at h
  split at h
  · simp at h
  · simp at h
  · rename_i whole afterWhole hnil hzero hwhole
    obtain ⟨rfl, hds, hend⟩ := scanDigits_sound hwhole
    have hwholeDigits : Digits whole := ⟨hnil, hds⟩
    have hleading : ∀ ds, whole = '0' :: ds → ds = [] := by
      rintro (_ | ⟨d, ds⟩) hwhole
      · rfl
      · exact (hzero d ds hwhole).elim
    split at h
    · rename_i fault _ hfault
      obtain ⟨cut, rfl⟩ := scanFraction_fault hfault
      cases (Prod.mk.inj h).1
    · rename_i fraction afterFraction hfraction
      obtain ⟨fs, rfl, hfs, hendFraction⟩ := scanFraction_sound hfraction
      split at h
      · rename_i fault _ hfault
        obtain ⟨cut, rfl⟩ := scanPower_fault hfault
        cases (Prod.mk.inj h).1
      · rename_i power after hpower
        obtain ⟨es, rfl, hes, hendPower⟩ := scanPower_sound hpower
        obtain ⟨hn, rfl⟩ := Prod.mk.inj h
        obtain rfl := Token.number.inj hn
        exact ⟨hendPower (hendFraction hend), whole ++ fs ++ es, by simp, hwholeDigits, hleading,
          fs, es, hfs, hes, by simp⟩

/-- No stray octet stands in a string, and it is closed. -/
def StringLit.Proper (s : StringLit) : Prop :=
  s.ending = .closed ∧ ∀ b, .glyph (.stray b) ∉ s.pieces

private theorem unitOf?_sound {a b c d : Glyph} {n : Nat} (h : unitOf? a b c d = some n) :
    ∃ w x y z, a = .char w ∧ b = .char x ∧ c = .char y ∧ d = .char z := by
  cases a <;> cases b <;> cases c <;> cases d <;> simp_all [unitOf?, Glyph.hexValue?]

private theorem hexFault_ne_closed (rest : List Glyph) : hexFault rest ≠ .closed := by
  unfold hexFault
  split <;> simp

private theorem scanString_sound {s : StringLit} (h : scanString text = (s, rest))
    (hs : s.Proper) :
    ∃ cs, text = before cs (.char '\"' :: rest) ∧ PiecesText cs s.pieces := by
  fun_induction scanString text generalizing s rest with
  | case2 after =>
    obtain ⟨rfl, rfl⟩ := Prod.mk.inj h
    exact ⟨[], rfl, .nil⟩
  | case4 a b c d after n hunit s' after' hrest ih =>
    obtain ⟨rfl, rfl⟩ := Prod.mk.inj h
    obtain ⟨w, x, y, z, rfl, rfl, rfl, rfl⟩ := unitOf?_sound hunit
    obtain ⟨cs, rfl, hcs⟩ := ih hrest ⟨hs.1, fun b hb => hs.2 b (List.mem_cons_of_mem _ hb)⟩
    exact ⟨_, rfl, .cons (.unit hunit) hcs⟩
  | case7 e after hfour hu c hchar s' after' hrest ih =>
    obtain ⟨rfl, rfl⟩ := Prod.mk.inj h
    obtain ⟨cs, rfl, hcs⟩ := ih hrest ⟨hs.1, fun b hb => hs.2 b (List.mem_cons_of_mem _ hb)⟩
    exact ⟨_, rfl, .cons (.escaped hchar) hcs⟩
  | case11 c after hquote hlast hunit hshort hescape hstray hcontrol s' after' hrest ih =>
    obtain ⟨rfl, rfl⟩ := Prod.mk.inj h
    obtain ⟨cs, rfl, hcs⟩ := ih hrest ⟨hs.1, fun b hb => hs.2 b (List.mem_cons_of_mem _ hb)⟩
    have hslash : c ≠ '\\' := by
      intro hc
      -- whatever follows it, a backslash starts an escape
      rcases hnext : before cs (.char '\"' :: after') with _ | ⟨e | b, more⟩
      · exact hlast hnext hc
      · exact hescape e more hnext hc
      · exact hstray b more hnext hc
    exact ⟨_, rfl, .cons (.itself (Bool.eq_false_iff.mpr hcontrol) hquote hslash) hcs⟩
  | case12 b after s' after' hrest ih =>
    obtain ⟨rfl, rfl⟩ := Prod.mk.inj h
    exact absurd List.mem_cons_self (hs.2 b)
  | case5 | case6 =>
    obtain ⟨rfl, rfl⟩ := Prod.mk.inj h
    exact absurd hs.1 (hexFault_ne_closed _)
  | case1 | case3 | case8 | case9 | case10 =>
    obtain ⟨rfl, rfl⟩ := Prod.mk.inj h
    cases hs.1

private theorem scanWord_sound {word t : Token} (h : scanWord word letters text = (t, rest))
    (ht : ∀ cut, t ≠ .badWord cut) : t = word ∧ text = before letters rest := by
  fun_induction scanWord word letters text generalizing rest with
  | case1 text =>
    obtain ⟨rfl, rfl⟩ := Prod.mk.inj h
    exact ⟨rfl, rfl⟩
  | case2 =>
    obtain ⟨rfl, rfl⟩ := Prod.mk.inj h
    exact absurd rfl (ht _)
  | case3 l ls text ih =>
    obtain ⟨hword, rfl⟩ := ih h
    exact ⟨hword, rfl⟩
  | case4 l ls g text hg =>
    obtain ⟨rfl, rfl⟩ := Prod.mk.inj h
    exact absurd rfl (ht _)

end Literals

section Tokens

variable {text rest : List Glyph} {letters : List Char} {t : Token} {ts : List Token}

/-- Nothing is misspelt in a token, and what is a string in it is proper. -/
def Token.Proper : Token → Prop
  | .string s => s.Proper
  | .badNumber _ | .badWord _ | .stray => False
  | _ => True

private theorem isWhole_of_proper (ht : t.Proper) : t.isWhole = true := by
  cases t with
  | string s => simp [Token.isWhole, ht.1]
  | badNumber | badWord | stray => exact ht.elim
  | _ => rfl

private theorem scanNumber_token {negative : Bool} (h : scanNumber negative text = (t, rest))
    (ht : t.Proper) : ∃ n, t = .number n := by
  unfold scanNumber at h
  split at h
  · obtain ⟨rfl, -⟩ := Prod.mk.inj h
    exact ht.elim
  · obtain ⟨rfl, -⟩ := Prod.mk.inj h
    exact ht.elim
  · split at h
    · rename_i fault _ hfault
      obtain ⟨cut, rfl⟩ := scanFraction_fault hfault
      obtain ⟨rfl, -⟩ := Prod.mk.inj h
      exact ht.elim
    · split at h
      · rename_i fault _ hfault
        obtain ⟨cut, rfl⟩ := scanPower_fault hfault
        obtain ⟨rfl, -⟩ := Prod.mk.inj h
        exact ht.elim
      · obtain ⟨rfl, -⟩ := Prod.mk.inj h
        exact ⟨_, rfl⟩

private theorem scanWord_token {c : Char} {word : Token} (hword : TokenText (c :: letters) word)
    (hn : ∀ n, word ≠ .number n) (h : scanWord word letters text = (t, rest)) (ht : t.Proper) :
    ∃ cs, .char c :: text = before cs rest ∧ TokenText cs t ∧
      ∀ n, t = .number n → EndsDigits rest := by
  obtain ⟨rfl, rfl⟩ := scanWord_sound h (by rintro cut rfl; exact ht)
  exact ⟨c :: letters, rfl, hword, fun n hnumber => absurd hnumber (hn n)⟩

private theorem scanToken_sound {g : Glyph} (h : scanToken g text = (some t, rest))
    (ht : t.Proper) : ∃ cs, g :: text = before cs rest ∧ TokenText cs t ∧
      ∀ n, t = .number n → EndsDigits rest := by
  unfold scanToken at h
  split at h
  · obtain ⟨hstray, -⟩ := Prod.mk.inj h
    obtain rfl := Option.some.inj hstray
    exact ht.elim
  · rename_i c
    split at h
    · cases (Prod.mk.inj h).1
    · split at h
      -- the marks are tokens by themselves
      iterate 6
        · obtain ⟨hmark, rfl⟩ := Prod.mk.inj h
          obtain rfl := Option.some.inj hmark
          exact ⟨_, rfl, by constructor, by simp⟩
      · cases hscan : scanString text with
        | mk s after =>
          rw [hscan] at h
          obtain ⟨hstring, rfl⟩ := Prod.mk.inj h
          obtain rfl := Option.some.inj hstring
          obtain ⟨cs, rfl, hcs⟩ := scanString_sound hscan ht
          refine ⟨'\"' :: cs ++ ['\"'], by simp, ?_, by simp⟩
          rw [show s = ⟨s.pieces, .closed⟩ by rw [← ht.1]]
          exact .string hcs
      · cases hscan : scanNumber true text with
        | mk t' after =>
          rw [hscan] at h
          obtain ⟨hnumber, rfl⟩ := Prod.mk.inj h
          obtain rfl := Option.some.inj hnumber
          obtain ⟨n, rfl⟩ := scanNumber_token hscan ht
          obtain ⟨hend, cs, rfl, hcs⟩ := scanNumber_sound hscan
          exact ⟨'-' :: cs, rfl, .number hcs, fun _ _ => hend⟩
      iterate 3
        · obtain ⟨hscan, hrest⟩ := Prod.mk.inj h
          exact scanWord_token (by constructor) (by simp)
            (Prod.ext (Option.some.inj hscan) hrest) ht
      · split at h
        · cases hscan : scanNumber false (.char c :: text) with
          | mk t' after =>
            rw [hscan] at h
            obtain ⟨hnumber, rfl⟩ := Prod.mk.inj h
            obtain rfl := Option.some.inj hnumber
            obtain ⟨n, rfl⟩ := scanNumber_token hscan ht
            obtain ⟨hend, cs, htext, hcs⟩ := scanNumber_sound hscan
            exact ⟨cs, htext, .number hcs, fun _ _ => hend⟩
        · obtain ⟨hstray, -⟩ := Prod.mk.inj h
          obtain rfl := Option.some.inj hstray
          exact ht.elim

private theorem scanToken_space {g : Glyph} (h : scanToken g text = (none, rest)) :
    ∃ c, g = .char c ∧ isSpace c = true ∧ rest = text := by
  unfold scanToken at h
  split at h
  · cases (Prod.mk.inj h).1
  · rename_i c
    split at h
    · rename_i hspace
      exact ⟨c, rfl, hspace, (Prod.mk.inj h).2.symm⟩
    · repeat' split at h
      all_goals cases (Prod.mk.inj h).1

private theorem ne_nil_of_tokenText {cs : List Char} (h : TokenText cs t) : cs ≠ [] := by
  cases h with
  | number hn =>
    obtain ⟨fraction, power, -, -, rfl⟩ := hn.parts
    simp [hn.whole.nonempty]
  | _ => simp

private theorem endsNumber_of_proper {steps : Nat} (hend : EndsDigits rest)
    (hsteps : rest.length ≤ steps) (hproper : ∀ t ∈ scanTokens steps rest, t.Proper) :
    EndsNumber rest := by
  rintro c after rfl
  obtain ⟨steps, rfl⟩ : ∃ n, steps = n + 1 := ⟨steps - 1, by simp at hsteps; omega⟩
  have hstray : ¬ ∃ more, scanTokens (steps + 1) (.char c :: after) = .stray :: more := by
    rintro ⟨more, hmore⟩
    exact hproper .stray (hmore ▸ List.mem_cons_self)
  refine ⟨hend c after rfl, ?_, ?_, ?_⟩
  all_goals
    rintro rfl
    exact hstray ⟨[], rfl⟩

private theorem lexes_scanTokens (steps : Nat) (text : List Glyph) (hsteps : text.length ≤ steps)
    (hproper : ∀ t ∈ scanTokens steps text, t.Proper) : Lexes text (scanTokens steps text) := by
  induction steps generalizing text with
  | zero =>
    obtain rfl : text = [] := List.length_eq_zero_iff.mp (Nat.le_zero.mp hsteps)
    exact .nil
  | succ steps ih =>
    cases text with
    | nil => exact .nil
    | cons g text =>
      cases hscan : scanToken g text with
      | mk t? after =>
        cases t? with
        | none =>
          obtain ⟨c, rfl, hspace, rfl⟩ := scanToken_space hscan
          simp only [scanTokens, hscan] at hproper ⊢
          exact .space hspace (ih after (Nat.le_of_succ_le_succ hsteps) hproper)
        | some t =>
          simp only [scanTokens, hscan] at hproper ⊢
          have ht : t.Proper := hproper t (by split <;> simp)
          rw [if_pos (isWhole_of_proper ht)] at hproper ⊢
          obtain ⟨-, hmore⟩ := List.forall_mem_cons.mp hproper
          obtain ⟨cs, htext, hcs, hend⟩ := scanToken_sound hscan ht
          have hshort : after.length ≤ steps := by
            have hlength := length_before cs after
            have hpos := List.length_pos_iff.mpr (ne_nil_of_tokenText hcs)
            rw [← htext] at hlength
            simp only [List.length_cons] at hlength hsteps
            omega
          rw [htext]
          exact .token hcs (fun n hn => endsNumber_of_proper (hend n hn) hshort hmore)
            (ih after hshort hmore)

/-- A text without misspelt tokens is these tokens, each written in one of the ways for it. -/
theorem lexes_tokens (hproper : ∀ t ∈ tokens text, t.Proper) : Lexes text (tokens text) :=
  lexes_scanTokens _ _ (Nat.le_refl _) hproper

end Tokens

section Trees

variable {stack : List Frame} {t : Tree}

/-- The tokens of an open container, up to where the next value stands. -/
def Frame.tokens : Frame → List Token
  | .array items => .openArray :: items.flatMap fun t => t.tokens ++ [.comma]
  | .object members key =>
      .openObject :: (members.flatMap fun m => .string m.1 :: .colon :: m.2.tokens ++ [.comma]) ++
        [.string key, .colon]

/-- The tokens of open containers, the innermost one first. -/
def stackTokens : List Frame → List Token
  | [] => []
  | f :: outer => stackTokens outer ++ f.tokens

private theorem tokensOfItems_snoc (items : List Tree) (t : Tree) :
    tokensOfItems (items ++ [t]) = (items.flatMap fun t => t.tokens ++ [.comma]) ++ t.tokens := by
  induction items with
  | nil => rfl
  | cons u items ih =>
    obtain ⟨v, more, heq⟩ := List.exists_cons_of_ne_nil (List.concat_ne_nil t items)
    rw [List.cons_append, heq, tokensOfItems, ← heq, ih]
    · simp
    · simp

private theorem tokensOfMembers_snoc (members : List (StringLit × Tree)) (k : StringLit)
    (t : Tree) : tokensOfMembers (members ++ [(k, t)]) =
      (members.flatMap fun m => .string m.1 :: .colon :: m.2.tokens ++ [.comma]) ++
        .string k :: .colon :: t.tokens := by
  induction members with
  | nil => rfl
  | cons m members ih =>
    obtain ⟨m', more, heq⟩ := List.exists_cons_of_ne_nil (List.concat_ne_nil (k, t) members)
    rw [List.cons_append, heq, tokensOfMembers, ← heq, ih]
    · simp
    · simp

private theorem abandon_whole (h : (abandon t stack).Whole) : stack = [] ∧ t.Whole := by
  induction stack generalizing t with
  | nil => exact ⟨rfl, h⟩
  | cons f outer ih =>
    obtain ⟨-, hframe⟩ := ih h
    cases f with
    | array items => cases hframe.2
    | object members key => cases hframe.2

/-- If the tree that is read is whole, then it and what is left behind it are these tokens. -/
private def Reads (ts : List Token) (result : Tree × List Token) : Prop :=
  result.1.Whole → ts = result.1.tokens ++ result.2

private theorem reads_abandon {ts : List Token} (h : t.Whole → stack ≠ []) :
    Reads ts (abandon t stack, []) := by
  intro hwhole
  obtain ⟨hstack, ht⟩ := abandon_whole hwhole
  exact absurd hstack (h ht)

private theorem leaf_tokens {u : Token} {leaf : Tree} (h : u.leaf? = some leaf) :
    leaf.tokens = [u] := by
  cases u <;> simp [Token.leaf?] at h <;> subst h <;> rfl

/-- Reading that goes on at these tokens, with a value, behind a key or behind a value, accounts for
the tokens read before as well. -/
private structure Accounts (ts : List Token) : Prop where
  value : ∀ stack, Reads (stackTokens stack ++ ts) (readValue stack ts)
  member : ∀ members key stack,
    Reads (stackTokens stack ++ .openObject ::
      (members.flatMap fun m => .string m.1 :: .colon :: m.2.tokens ++ [.comma]) ++
        .string key :: ts) (readMember members key stack ts)
  after : ∀ t stack, Reads (stackTokens stack ++ t.tokens ++ ts) (readAfter t stack ts)

section Steps

variable {ts : List Token}

private theorem reads_cutArray {items : List Tree} {rest : List Token} :
    Reads ts (abandon (.array items (.cut rest)) stack, []) :=
  reads_abandon fun h => by cases h.2

private theorem reads_cutObject {members : List (StringLit × Tree)} {rest : List Token} :
    Reads ts (abandon (.object members (.cut rest)) stack, []) :=
  reads_abandon fun h => by cases h.2

private theorem reads_value (ih : ∀ us, us.length < ts.length → Accounts us) (stack : List Frame) :
    Reads (stackTokens stack ++ ts) (readValue stack ts) := by
  fun_cases readValue stack ts with
  | case1 => exact reads_abandon fun h => h.elim
  | case2 rest =>
    simpa [Tree.tokens, tokensOfItems] using (ih rest (by grind)).after (.array [] .closed) stack
  | case3 => exact reads_cutArray
  | case4 rest =>
    simpa [stackTokens, Frame.tokens] using (ih rest (by simp)).value (.array [] :: stack)
  | case5 rest =>
    simpa [Tree.tokens, tokensOfMembers] using (ih rest (by grind)).after (.object [] .closed) stack
  | case6 key rest => simpa using (ih rest (by grind)).member [] key stack
  | case7 | case8 => exact reads_cutObject
  | case9 t rest _ _ _ _ _ _ leaf hleaf =>
    simpa [leaf_tokens hleaf] using (ih rest (by simp)).after leaf stack
  | case10 => exact reads_abandon fun h => h.elim

private theorem reads_member (ih : ∀ us, us.length < ts.length → Accounts us)
    (members : List (StringLit × Tree)) (key : StringLit) (stack : List Frame) :
    Reads (stackTokens stack ++ .openObject ::
      (members.flatMap fun m => .string m.1 :: .colon :: m.2.tokens ++ [.comma]) ++
        .string key :: ts) (readMember members key stack ts) := by
  fun_cases readMember members key stack ts with
  | case1 rest =>
    simpa [stackTokens, Frame.tokens] using (ih rest (by simp)).value (.object members key :: stack)
  | case2 => exact reads_abandon fun _ => by simp

private theorem reads_after (ih : ∀ us, us.length < ts.length → Accounts us) (t : Tree)
    (stack : List Frame) :
    Reads (stackTokens stack ++ t.tokens ++ ts) (readAfter t stack ts) := by
  fun_cases readAfter t stack ts with
  | case1 => simp [Reads, stackTokens]
  | case2 items outer rest =>
    simpa [stackTokens, Frame.tokens, Tree.tokens, tokensOfItems_snoc] using
      (ih rest (by simp)).after (.array (items ++ [t]) .closed) outer
  | case3 | case4 => exact reads_cutArray
  | case5 items outer rest =>
    simpa [stackTokens, Frame.tokens] using
      (ih rest (by simp)).value (.array (items ++ [t]) :: outer)
  | case6 members key outer rest =>
    simpa [stackTokens, Frame.tokens, Tree.tokens, tokensOfMembers_snoc] using
      (ih rest (by simp)).after (.object (members ++ [(key, t)]) .closed) outer
  | case7 members key outer next rest =>
    simpa [stackTokens, Frame.tokens] using
      (ih rest (by grind)).member (members ++ [(key, t)]) next outer
  | case8 => exact reads_cutObject
  | case9 frame =>
    cases frame with
    | array => exact reads_cutArray
    | object => exact reads_cutObject

end Steps

private theorem accounts (ts : List Token) : Accounts ts := by
  induction hn : ts.length using Nat.strong_induction_on generalizing ts with
  | _ n ih =>
    subst hn
    have hshorter : ∀ us : List Token, us.length < ts.length → Accounts us :=
      fun us hlt => ih us.length hlt us rfl
    exact ⟨reads_value hshorter, reads_member hshorter, reads_after hshorter⟩

theorem tokens_of_hasTree {text : List Glyph} (h : HasTree text t) (ht : t.Whole) :
    tokens text = t.tokens := by
  have hreads := (accounts (tokens text)).value []
  rw [← treeOf, show treeOf (tokens text) = (t, []) from h] at hreads
  simpa [stackTokens] using hreads ht

end Trees

section Documents

private theorem chars_sound {ending : StringEnd} {ps : List Piece} {cs : List Char}
    (h : chars ending ps = .ok cs) : ending = .closed ∧ ∀ b, .glyph (.stray b) ∉ ps := by
  fun_induction chars ending ps generalizing cs with
  | case1 hfault => cases ending <;> simp [StringEnd.fault?] at hfault ⊢
  | case3 _ _ ih | case6 _ _ ih | case8 _ _ _ _ _ _ ih | case10 _ _ _ _ _ ih
  | case13 _ _ _ _ _ ih =>
    obtain ⟨cs', hcs, -⟩ := map_eq_ok_iff.mp h
    simpa using ih hcs
  | _ => cases h

theorem proper_of_text {s : StringLit} {name : String} (h : s.text = .ok name) : s.Proper := by
  obtain ⟨cs, hcs, -⟩ := map_eq_ok_iff.mp h
  exact chars_sound hcs

mutual

theorem whole_of_readable : ∀ t : Tree, t.Readable → t.Whole
  | .null, _ | .bool _, _ | .number _, _ => trivial
  | .string _, ⟨_, htext⟩ => (proper_of_text htext).1
  | .array items _, ⟨hitems, hclosed⟩ => ⟨wholeItems_of_readable items hitems, hclosed⟩
  | .object members _, ⟨hmembers, hclosed⟩ => ⟨wholeMembers_of_readable members hmembers, hclosed⟩

theorem wholeItems_of_readable : ∀ items : List Tree, ReadableItems items → WholeItems items
  | [], _ => trivial
  | t :: rest, ⟨ht, hrest⟩ => ⟨whole_of_readable t ht, wholeItems_of_readable rest hrest⟩

theorem wholeMembers_of_readable : ∀ members : List (StringLit × Tree),
    ReadableMembers members → WholeMembers members
  | [], _ => trivial
  | (_, t) :: rest, ⟨⟨_, hname⟩, ht, hrest⟩ =>
    ⟨(proper_of_text hname).1, whole_of_readable t ht, wholeMembers_of_readable rest hrest⟩

end

mutual

theorem proper_tokens : ∀ t : Tree, t.Readable → ∀ u ∈ t.tokens, u.Proper
  | .null, _, u, hu | .bool _, _, u, hu | .number _, _, u, hu => by
    rw [List.mem_singleton.mp hu]
    trivial
  | .string _, ⟨_, htext⟩, u, hu => by
    rw [List.mem_singleton.mp hu]
    exact proper_of_text htext
  | .array items _, ⟨hitems, _⟩, u, hu => by
    rcases List.mem_cons.mp hu with rfl | hu
    · trivial
    · rcases List.mem_append.mp hu with hu | hu
      · exact proper_tokensOfItems items hitems u hu
      · rw [List.mem_singleton.mp hu]
        trivial
  | .object members _, ⟨hmembers, _⟩, u, hu => by
    rcases List.mem_cons.mp hu with rfl | hu
    · trivial
    · rcases List.mem_append.mp hu with hu | hu
      · exact proper_tokensOfMembers members hmembers u hu
      · rw [List.mem_singleton.mp hu]
        trivial

theorem proper_tokensOfItems : ∀ items : List Tree, ReadableItems items →
    ∀ u ∈ tokensOfItems items, u.Proper
  | [], _, _, hu => nomatch hu
  | [t], ⟨ht, _⟩, u, hu => proper_tokens t ht u hu
  | t :: t' :: rest, ⟨ht, hrest⟩, u, hu => by
    rcases List.mem_append.mp hu with hu | hu
    · exact proper_tokens t ht u hu
    · rcases List.mem_cons.mp hu with rfl | hu
      · trivial
      · exact proper_tokensOfItems (t' :: rest) hrest u hu

theorem proper_tokensOfMembers : ∀ members : List (StringLit × Tree), ReadableMembers members →
    ∀ u ∈ tokensOfMembers members, u.Proper
  | [], _, _, hu => nomatch hu
  | [(k, t)], ⟨⟨_, hname⟩, ht, _⟩, u, hu => by
    rcases List.mem_cons.mp hu with rfl | hu
    · exact proper_of_text hname
    · rcases List.mem_cons.mp hu with rfl | hu
      · trivial
      · exact proper_tokens t ht u hu
  | (k, t) :: m :: rest, ⟨⟨_, hname⟩, ht, hrest⟩, u, hu => by
    rcases List.mem_append.mp hu with hu | hu
    · rcases List.mem_cons.mp hu with rfl | hu
      · exact proper_of_text hname
      · rcases List.mem_cons.mp hu with rfl | hu
        · trivial
        · exact proper_tokens t ht u hu
    · rcases List.mem_cons.mp hu with rfl | hu
      · trivial
      · exact proper_tokensOfMembers (m :: rest) hrest u hu

end

variable {text : List Glyph} {t : Tree}

/-- A tree that can be read in full is built of a text if and only if the text is a document with
this tree. -/
theorem hasTree_iff_document (ht : t.Readable) : HasTree text t ↔ Document text t := by
  refine ⟨fun h => ?_, Document.hasTree⟩
  have hwhole := whole_of_readable t ht
  have htokens := tokens_of_hasTree h hwhole
  refine ⟨hwhole, htokens ▸ lexes_tokens fun u hu => ?_⟩
  exact proper_tokens t ht u (htokens ▸ hu)

end Documents

end ChainAudit.Json
