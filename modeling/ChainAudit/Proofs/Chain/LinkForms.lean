import ChainAudit.Proofs.Chain.Documents
import ChainAudit.Proofs.Json.Surroundings
import ChainAudit.Proofs.Json.Values
import ChainAudit.Proofs.Text

/-!
# The forms of a link

The link of a node to its predecessor is written as a text or as an object with the text under the
key `/`, and it makes no difference to the node which of them it is. A link that is missing, null or
an empty text marks the first node of a chain. With anything else in its place a document is no
node.
-/

namespace ChainAudit.Chain

open ChainAudit.Json ChainAudit.Text

/-- The forms of a link, and the text that each of them gives. The other members of an object are
read in full, within two containers that are open already. -/
inductive Points : Option Tree → String → Prop
  | missing : Points none ""
  | null : Points (some .null) ""
  | plain {lit : StringLit} {s : String} (hs : lit.text = .ok s) : Points (some (.string lit)) s
  | wrapped {front back : List (StringLit × Tree)} {k lit : StringLit} {s : String}
      (hk : k.text = .ok "/") (hs : lit.text = .ok s)
      (hothers : ∀ m ∈ front ++ back, (∃ name, m.1.text = .ok name ∧ name ≠ "/") ∧
        m.2.Readable ∧ m.2.nesting + 2 < depthLimit) :
      Points (some (.object (front ++ (k, .string lit) :: back) .closed)) s

section Reading

variable {depth : Nat} {t : Tree} {v : Value} {s : String}

/-- Only one member of a link object gives a text, and it is the only one of its name. -/
theorem linkText?_eq_some_iff : linkText? v = some s ↔ v = .string s ∨
    ∃ front back, v = .object (front ++ ("/", .string s) :: back) ∧
      ∀ m ∈ front ++ back, m.1 ≠ "/" := by
  cases v with
  | string text => simp [linkText?]
  | object members =>
    have hfilter : linkText? (.object members) = some s ↔
        members.filter (·.1 == "/") = [("/", .string s)] := by
      rw [linkText?]
      split
      · rename_i name text hmembers
        have hname : name = "/" := by
          have hmem : (name, Value.string text) ∈ members.filter (·.1 == "/") := by simp [hmembers]
          simpa using (List.mem_filter.mp hmem).2
        simp [hmembers, hname]
      · rename_i hnone
        simp only [reduceCtorEq, false_iff]
        exact fun hmembers => hnone _ _ hmembers
    rw [hfilter, List.filter_eq_cons_iff]
    simp only [List.filter_eq_nil_iff, reduceCtorEq, false_or, Value.object.injEq,
      List.forall_mem_append]
    constructor
    · rintro ⟨front, back, rfl, hfront, -, hback⟩
      exact ⟨front, back, rfl, by simpa using hfront, by simpa using hback⟩
    · rintro ⟨front, back, rfl, hfront, hback⟩
      exact ⟨front, back, rfl, by simpa using hfront, by simp, by simpa using hback⟩
  | _ => simp [linkText?]

private theorem readLink_null : readLink depth .null = .ok s ↔ s = "" := by
  simp [readLink, readOption, bind, Except.bind, pure, Except.pure, eq_comm]

private theorem readLink_value (ht : t ≠ .null) :
    readLink depth t = .ok s ↔ ∃ v, t.value depth = .ok v ∧ linkText? v = some s := by
  have hoption : readOption readValueOf depth t = (t.value depth).map some := by
    cases t with
    | null => exact absurd rfl ht
    | _ => rfl
  rw [readLink, bind_eq_ok_iff]
  simp only [hoption, map_eq_ok_iff]
  constructor
  · rintro ⟨-, ⟨v, hv, rfl⟩, htext⟩
    refine ⟨v, hv, ?_⟩
    cases hlink : linkText? v with
    | none => simp [hlink] at htext
    | some text => simpa [hlink, pure, Except.pure] using htext
  · rintro ⟨v, hv, htext⟩
    exact ⟨some v, ⟨v, hv, rfl⟩, by simp [htext, pure, Except.pure]⟩

private theorem others_iff {members : List (StringLit × Tree)} :
    (∃ values, memberValues (depthLimit - 2) members = .ok values ∧ ∀ v ∈ values, v.1 ≠ "/") ↔
      ∀ m ∈ members, (∃ name, m.1.text = .ok name ∧ name ≠ "/") ∧
        m.2.Readable ∧ m.2.nesting + 2 < depthLimit := by
  refine (exists_memberValues_iff (P := (· ≠ "/"))).trans ?_
  refine forall₂_congr fun m _ => and_congr_right fun _ => ?_
  rw [value_ok_iff m.2 (by decide), Nat.lt_sub_iff_add_lt]

theorem readLink_eq_ok_iff : readLink (depthLimit - 1) t = .ok s ↔ Points (some t) s := by
  by_cases ht : t = .null
  · subst ht
    rw [readLink_null]
    constructor
    · rintro rfl
      exact .null
    · rintro ⟨⟩
      rfl
  · rw [readLink_value ht]
    simp only [linkText?_eq_some_iff]
    constructor
    · rintro ⟨v, hv, rfl | ⟨front, back, rfl, hothers⟩⟩
      · obtain ⟨lit, rfl, hlit⟩ := value_eq_string_iff.mp hv
        exact .plain hlit
      · obtain ⟨members, rfl, -, hmembers⟩ := value_eq_object_iff.mp hv
        obtain ⟨fs, k, t, bs, rfl, hfs, hk, ht, hbs⟩ := memberValues_append_cons_iff.mp hmembers
        obtain ⟨lit, rfl, hlit⟩ := value_eq_string_iff.mp ht
        obtain ⟨hfront, hback⟩ := List.forall_mem_append.mp hothers
        exact .wrapped hk hlit (List.forall_mem_append.mpr
          ⟨others_iff.mp ⟨front, hfs, hfront⟩, others_iff.mp ⟨back, hbs, hback⟩⟩)
    · intro hpoints
      cases hpoints with
      | null => exact absurd rfl ht
      | @plain lit _ hs => exact ⟨.string s, value_eq_string_iff.mpr ⟨lit, rfl, hs⟩, .inl rfl⟩
      | @wrapped fs bs k lit _ hk hs hothers =>
        obtain ⟨hfs, hbs⟩ := List.forall_mem_append.mp hothers
        obtain ⟨front, hfs, hfront⟩ := others_iff.mpr hfs
        obtain ⟨back, hbs, hback⟩ := others_iff.mpr hbs
        have hvalue : (Tree.string lit).value (depthLimit - 2) = .ok (.string s) :=
          value_eq_string_iff.mpr ⟨lit, rfl, hs⟩
        have hmembers := memberValues_append_cons_iff.mpr ⟨fs, k, _, bs, rfl, hfs, hk, hvalue, hbs⟩
        exact ⟨_, value_eq_object_iff.mpr ⟨_, rfl, by decide, hmembers⟩,
          .inr ⟨front, back, rfl, List.forall_mem_append.mpr ⟨hfront, hback⟩⟩⟩

theorem takes_link_iff {link : Option Tree} :
    Node.linkSlot.Takes (depthLimit - 1) link s ↔ Points link s := by
  cases link with
  | none =>
    constructor
    · rintro rfl
      exact .missing
    · rintro ⟨⟩
      rfl
  | some t => exact readLink_eq_ok_iff

end Reading

namespace Node

section Predecessor

variable {n : Node} {cid : String}

theorem previous?_eq_some_iff :
    n.previous? = some cid ↔ cid ≠ "" ∧ TrimsTo n.link.toList cid.toList := by
  have htrim : trim n.link = cid ↔ TrimsTo n.link.toList cid.toList := by
    rw [← trimChars_eq_iff, trim, ← String.toList_inj, String.toList_ofList]
  rw [previous?, Option.ite_none_left_eq_some, ← htrim]
  constructor
  · rintro ⟨hne, heq⟩
    obtain rfl := Option.some.inj heq
    exact ⟨by simpa using hne, rfl⟩
  · rintro ⟨hne, rfl⟩
    exact ⟨by simpa using hne, rfl⟩

theorem isGenesis_iff : n.isGenesis = true ↔ TrimsTo n.link.toList [] := by
  rw [isGenesis, Option.isNone_iff_eq_none, ← trimChars_eq_iff, previous?]
  simp [trim]

end Predecessor

/-- The octets are a document with these surroundings of a link, which in an array is the third
value. -/
def Gives (around : Around) (link : Option Tree) (bytes : Bytes) : Prop :=
  ∃ doc, HasTree (decodeBytes bytes) doc ∧ around.Holds "prevCid" 2 link doc

/-- Every document of a node has a place for a link. With any link that has one of the forms in that
place it is the same node but for the text of the link, and with anything else it is none. The
predecessor is that text without the blanks around it, and if nothing is left there is none. -/
theorem ofBytes_link {bytes : Bytes} {n : Node} (hread : Node.ofBytes bytes = .ok n) :
    (∃ around link, Gives around link bytes) ∧
      (∀ around link link' bytes', Gives around link bytes → Gives around link' bytes' →
        (∀ s, Points link' s → Node.ofBytes bytes' = .ok { n with link := s }) ∧
        ((∀ s, ¬ Points link' s) → ∃ fault, Node.ofBytes bytes' = .error fault)) ∧
      ∀ s, (∀ cid, ({ n with link := s } : Node).previous? = some cid ↔
          cid ≠ "" ∧ TrimsTo s.toList cid.toList) ∧
        (({ n with link := s } : Node).isGenesis = true ↔ TrimsTo s.toList []) := by
  have hslot : form.slots[2]? = some linkSlot := rfl
  -- a document is an object, or an array that reaches the link because the height precedes it
  refine ⟨?_, ?_, fun s => ⟨fun cid => previous?_eq_some_iff, isGenesis_iff⟩⟩
  · obtain ⟨doc, hdoc⟩ := exists_hasTree hread
    have hn : form.read "ChainNode" depthLimit doc = .ok n :=
      (hdoc.decode_eq Node.read).symm.trans hread
    have hlinked : ∃ around link, Around.Holds "prevCid" 2 around link doc :=
      Form.exists_holds (i := 1) (List.mem_of_getElem? hslot) rfl rfl (Nat.le_refl 2) hn
    obtain ⟨around, link, hholds⟩ := hlinked
    exact ⟨around, link, doc, hdoc, hholds⟩
  · rintro around link link' bytes' ⟨doc, hdoc, hholds⟩ ⟨doc', hdoc', hholds'⟩
    have hn : form.read "ChainNode" depthLimit doc = .ok n :=
      (hdoc.decode_eq Node.read).symm.trans hread
    obtain ⟨htaken, hrefused⟩ := Form.read_anew hslot rfl hholds hholds' hn
    rw [Node.ofBytes, Json.decodeBytes, hdoc'.decode_eq]
    exact ⟨fun s hs => htaken s (takes_link_iff.mpr hs),
      fun hnone => hrefused fun s hs => hnone s (takes_link_iff.mp hs)⟩

def linked (link : Value) : Value := .object [("prevCid", link), ("height", .int 7)]

/-- What the document holds beside the link. -/
def besideLink : Around := .members [] (memberTrees [("height", .int 7)])

/-- A link as a text with blanks around it. -/
def plainLink : Value := .string " n1 "

def wrappedLink : Value := .object [("x", .array [.null]), ("/", .string " n1 ")]

private theorem holds_link {k : StringLit} (hk : k.text = .ok "prevCid") (t : Tree) :
    besideLink.Holds "prevCid" 2 (some t)
      (.object ((k, t) :: memberTrees [("height", .int 7)]) .closed) := by
  refine .member hk fun m hm hname => ?_
  obtain rfl := List.mem_singleton.mp hm
  exact absurd (Except.ok.inj ((text_textLit "height").symm.trans hname)) (by decide)

private theorem gives_linked (link : Value) (hexact : link.Exact)
    (hchars : decodeBytes (toBytes (linked link).toText) = glyphs (linked link).toText) :
    Gives besideLink (some link.tree) (toBytes (linked link).toText) := by
  have hdoc : Document (decodeBytes (toBytes (linked link).toText)) (linked link).tree :=
    document_toBytes ⟨hexact, trivial, trivial⟩ hchars
  exact ⟨_, hdoc.hasTree, holds_link (text_textLit _) link.tree⟩

private theorem exists_ofBytes_plain :
    ∃ n, Node.ofBytes (toBytes (linked plainLink).toText) = .ok n := by
  have hdoc : Document _ (linked plainLink).tree :=
    document_toBytes ⟨trivial, trivial, trivial⟩ (by decide +kernel)
  exact ⟨_, (hdoc.hasTree.decode_eq Node.read).trans rfl⟩

theorem ofBytes_link_linked :
    ∃ n : Node, Node.ofBytes (toBytes (linked plainLink).toText) = .ok { n with link := " n1 " } ∧
      Node.ofBytes (toBytes (linked wrappedLink).toText) = .ok { n with link := " n1 " } ∧
      ({ n with link := " n1 " } : Node).previous? = some "n1" ∧
      Node.ofBytes (toBytes (linked .null).toText) = .ok { n with link := "" } ∧
      ({ n with link := "" } : Node).isGenesis = true ∧
      ∃ fault, Node.ofBytes (toBytes (linked (.int 7)).toText) = .error fault := by
  have hplain := gives_linked plainLink trivial (by decide +kernel)
  have hwrapped := gives_linked wrappedLink ⟨⟨trivial, trivial⟩, trivial, trivial⟩
    (by decide +kernel)
  have hnull := gives_linked .null trivial (by decide +kernel)
  have hnumber := gives_linked (.int 7) trivial (by decide +kernel)
  have hpoints : Points (some wrappedLink.tree) " n1 " := by
    refine @Points.wrapped [_] [] _ _ _ (text_textLit "/") (text_textLit " n1 ") ?_
    intro m hm
    obtain rfl := List.mem_singleton.mp hm
    exact ⟨⟨"x", text_textLit "x", by decide⟩, ⟨⟨trivial, trivial⟩, rfl⟩, by decide⟩
  obtain ⟨n, hread⟩ := exists_ofBytes_plain
  obtain ⟨-, hlinks, htrim⟩ := ofBytes_link hread
  refine ⟨n, ?_, ?_, ?_, ?_, ?_, ?_⟩
  · exact (hlinks _ _ _ _ hplain hplain).1 _ (.plain (text_textLit _))
  · exact (hlinks _ _ _ _ hplain hwrapped).1 _ hpoints
  · exact ((htrim _).1 "n1").mpr ⟨by decide, trimChars_eq_iff.mp (by decide +kernel)⟩
  · exact (hlinks _ _ _ _ hplain hnull).1 _ .null
  · exact (htrim _).2.mpr (trimChars_eq_iff.mp (by decide +kernel))
  · exact (hlinks _ _ _ _ hplain hnumber).2 nofun

/-- The octets of a document with a link that has another member whose key stands for no text. -/
def surrogateLink : Bytes :=
  toBytes "\x7b\"prevCid\":\x7b\"\\ud800\":null,\"/\":\" n1 \"\x7d,\"height\":7\x7d"

/-- Such an object is no link, although its text stands in it once and nothing is missing. -/
theorem surrogate_not_linked :
    (∃ n, Node.ofBytes (toBytes (linked plainLink).toText) = .ok n) ∧
      Gives besideLink (some plainLink.tree) (toBytes (linked plainLink).toText) ∧
      Gives besideLink (some (.object ([(loneSurrogate, .null)] ++
        (textLit "/", .string (textLit " n1 ")) :: []) .closed)) surrogateLink ∧
      (∀ m ∈ [(loneSurrogate, Tree.null)], m.1.text ≠ .ok "/" ∧
        m.2.Readable ∧ m.2.nesting + 2 < depthLimit) ∧
      ∃ fault, Node.ofBytes surrogateLink = .error fault := by
  have hglyphs : decodeBytes surrogateLink = before ['\x7b'] (before (writeString "prevCid")
      (before [':'] (before ['\x7b'] (before surrogateText (before [':'] (before "null".toList
        (before [','] (before (compactMembers [("/", .string " n1 ")])
          (before ['\x7d'] (before [','] (before (compactMembers [("height", .int 7)])
            (before ['\x7d'] [])))))))))))) := by
    decide +kernel
  have hheight := lexes_members [("height", .int 7)] (before ['\x7d'] []) [.closeObject]
    ⟨trivial, trivial⟩ (endsNumber_mark (by simp)) (.token .closeObject (by simp) .nil)
  have hlink := lexes_members [("/", .string " n1 ")] (before ['\x7d'] _) _ ⟨trivial, trivial⟩
    (endsNumber_mark (by simp)) (.token .closeObject (by simp) (.token .comma (by simp) hheight))
  have hwrapped := Lexes.token .openObject (by simp) (.token token_loneSurrogate (by simp)
    (.token .colon (by simp) (.token .null (by simp) (.token .comma (by simp) hlink))))
  have hdoc : Document (decodeBytes surrogateLink) (.object ((textLit "prevCid",
      .object ((loneSurrogate, .null) :: memberTrees [("/", .string " n1 ")]) .closed) ::
        memberTrees [("height", .int 7)]) .closed) := by
    refine ⟨⟨⟨rfl, ⟨⟨rfl, trivial, rfl, rfl, trivial⟩, rfl⟩, rfl, trivial, trivial⟩, rfl⟩, ?_⟩
    rw [hglyphs]
    exact .token .openObject (by simp) (.token (text_string "prevCid") (by simp)
      (.token .colon (by simp) hwrapped))
  have hothers : ∀ m ∈ [(loneSurrogate, Tree.null)],
      m.1.text ≠ .ok "/" ∧ m.2.Readable ∧ m.2.nesting + 2 < depthLimit := by
    intro m hm
    obtain rfl := List.mem_singleton.mp hm
    refine ⟨fun htext => ?_, trivial, by decide⟩
    cases htext
  exact ⟨exists_ofBytes_plain, gives_linked plainLink trivial (by decide +kernel),
    ⟨_, hdoc.hasTree, holds_link (text_textLit _) _⟩, hothers,
    _, (hdoc.hasTree.decode_eq Node.read).trans rfl⟩

end Node

end ChainAudit.Chain
