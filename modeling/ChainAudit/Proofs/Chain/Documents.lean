import ChainAudit.Chain.Node
import ChainAudit.Proofs.Json.Forms
import ChainAudit.Proofs.Json.Trees

/-!
# Documents of nodes

A node is read by its fields: the order of the members, white space, and members under other names
leave no trace, and a field that is not given is as it is in a blank node.
-/

namespace ChainAudit.Chain.Node

open ChainAudit.Json ChainAudit.Text

def linkSlot : Slot Node := ⟨"prevCid", false, readLink, fun s n => { n with link := s }, ""⟩

def form : Form Node where
  slots := [
    ⟨"data", false, readSnapshot, fun d n => { n with snapshot := d }, ⟨"", ""⟩⟩,
    ⟨"height", true, readInt64, fun h n => { n with height := h }, 0⟩,
    linkSlot,
    ⟨"timestamp", false, readInt64, fun t n => { n with timestamp := t }, 0⟩,
    ⟨"txHash", false, readString, fun s n => { n with txHash := s }, ""⟩,
    ⟨"payload", false, readPayload, fun p n => { n with payload := p }, emptyPayload⟩]
  blank := ⟨⟨"", ""⟩, 0, "", 0, "", emptyPayload⟩
  distinct := by decide
  apart := by simp [linkSlot, Slot.Apart]
  replaces := by simp [linkSlot]
  starts := by simp [linkSlot]

/-- The names that there are fields for. -/
def fieldNames : List String := ["data", "height", "prevCid", "timestamp", "txHash", "payload"]

/-- A node with one of its fields as if it were not given. -/
def without (n : Node) : String → Node
  | "data" => { n with snapshot := ⟨"", ""⟩ }
  | "prevCid" => { n with link := "" }
  | "timestamp" => { n with timestamp := 0 }
  | "txHash" => { n with txHash := "" }
  | "payload" => { n with payload := emptyPayload }
  | _ => n

theorem put_empty_eq_without :
    ∀ p ∈ form.slots, p.required = false → ∀ n, p.put p.empty n = n.without p.name := by
  simp [form, linkSlot, without]

private theorem exists_slot :
    ∀ name ∈ fieldNames, name ≠ "height" →
      ∃ p ∈ form.slots, p.name = name ∧ p.required = false := by
  simp [fieldNames, form, linkSlot]

variable {bytes : Bytes} {members : List (StringLit × Tree)} {n : Node}

/-- Members are read in any order, those under other names do not matter, and a member that is taken
away leaves its field as in a blank node. -/
theorem ofBytes_members (hdoc : Document (decodeBytes bytes) (.object members .closed))
    (hread : Node.ofBytes bytes = .ok n) :
    (∀ bytes' members' added, members'.Perm (members ++ added) →
      (∀ m ∈ added, ∃ name, m.1.text = .ok name ∧ name ∉ fieldNames) →
      Document (decodeBytes bytes') (.object members' .closed) → Node.ofBytes bytes' = .ok n) ∧
    ∀ bytes' members' name m, members.Perm (m :: members') → m.1.text = .ok name →
      name ∈ fieldNames → name ≠ "height" →
      Document (decodeBytes bytes') (.object members' .closed) →
      Node.ofBytes bytes' = .ok (n.without name) := by
  have hn : form.read "ChainNode" depthLimit (.object members .closed) = .ok n :=
    (hdoc.hasTree.decode_eq Node.read).symm.trans hread
  constructor
  · intro bytes' members' added hperm hadded hdoc'
    have hpassed : ∀ m ∈ added,
        (∃ name, m.1.text = .ok name) ∧ form.slot? m.1 = none ∧ m.2.skip = .ok () := by
      intro m hm
      obtain ⟨name, htext, hname⟩ := hadded m hm
      have hwhole := wholeMembers_iff.mp hdoc'.whole.1 m (hperm.mem_iff.mpr (by simp [hm]))
      refine ⟨⟨name, htext⟩, ?_, skip_whole m.2 hwhole.2⟩
      refine Option.eq_none_iff_forall_not_mem.mpr fun p hp => hname ?_
      obtain ⟨hslot, htext'⟩ := Form.slot?_eq_some_iff.mp hp
      rw [Except.ok.inj (htext.symm.trans htext')]
      exact List.mem_map_of_mem hslot
    have hall := Form.read_perm ((Form.read_append hpassed).mpr hn) hperm.symm
    exact (hdoc'.hasTree.decode_eq Node.read).trans hall
  · rintro bytes' members' name ⟨k, t⟩ hperm htext hname hother hdoc'
    obtain ⟨p, hp, rfl, hr⟩ := exists_slot name hname hother
    have hslot : form.slot? k = some p := Form.slot?_eq_some_iff.mpr ⟨hp, htext⟩
    have hrest := Form.read_without hslot hr (Form.read_perm hn hperm)
    rw [put_empty_eq_without p hp hr] at hrest
    exact (hdoc'.hasTree.decode_eq Node.read).trans hrest

def document : Value := .object [("height", .int 7), ("txHash", .string "0x1")]

/-- The same document with another member between the two, and these the other way round. -/
def longDocument : Value :=
  .object [("txHash", .string "0x1"), ("x", .array [.null]), ("height", .int 7)]

def shortDocument : Value := .object [("height", .int 7)]

theorem ofBytes_members_document :
    ∃ n, Node.ofBytes (toBytes document.toText) = .ok n ∧ n.txHash = "0x1" ∧
      Node.ofBytes (toBytes longDocument.toText) = .ok n ∧
      Node.ofBytes (toBytes shortDocument.toText) = .ok (n.without "txHash") := by
  have hdoc : Document (decodeBytes (toBytes document.toText)) document.tree :=
    document_toBytes ⟨trivial, trivial, trivial⟩ (by decide +kernel)
  have hlong : Document (decodeBytes (toBytes longDocument.toText)) longDocument.tree :=
    document_toBytes ⟨trivial, ⟨trivial, trivial⟩, trivial, trivial⟩ (by decide +kernel)
  have hshort : Document (decodeBytes (toBytes shortDocument.toText)) shortDocument.tree :=
    document_toBytes ⟨trivial, trivial⟩ (by decide +kernel)
  have hhash : (Node.ofBytes (toBytes document.toText)).toOption.map (·.txHash) = some "0x1" := by
    decide +kernel
  cases hread : Node.ofBytes (toBytes document.toText) with
  | error fault => simp [hread, Except.toOption] at hhash
  | ok n =>
    obtain ⟨hmore, hless⟩ := ofBytes_members hdoc hread
    refine ⟨n, rfl, by simpa [hread, Except.toOption] using hhash, ?_, ?_⟩
    · refine hmore _ _ (memberTrees [("x", .array [.null])]) ?_ ?_ hlong
      · exact (List.Perm.cons _ (.swap _ _ _)).trans (.swap _ _ _)
      · intro m hm
        obtain rfl := List.mem_singleton.mp hm
        exact ⟨"x", text_textLit "x", by decide⟩
    · exact hless _ _ "txHash" (textLit "txHash", _) (.swap _ _ _) (text_textLit _) (by decide)
        (by decide) hshort

/-- A string that stands for no text. -/
def loneSurrogate : StringLit := ⟨[.unit 0xD800], .closed⟩

def surrogateText : List Char := '\"' :: ['\\', 'u', 'd', '8', '0', '0'] ++ ['\"']

theorem token_loneSurrogate : TokenText surrogateText (.string loneSurrogate) :=
  .string (.cons (.unit rfl) .nil)

/-- The octets of a document with a key that stands for no text. -/
def surrogateDocument : Bytes := toBytes "\x7b\"\\ud800\":null,\"height\":7\x7d"

/-- A member under such a key is not passed over, although there is no field of its name. -/
theorem surrogate_not_passed_over :
    (∃ n, Node.ofBytes (toBytes shortDocument.toText) = .ok n) ∧
      Document (decodeBytes (toBytes shortDocument.toText))
        (.object (memberTrees [("height", .int 7)]) .closed) ∧
      (∀ name ∈ fieldNames, loneSurrogate.text ≠ .ok name) ∧
      Document (decodeBytes surrogateDocument)
        (.object ((loneSurrogate, .null) :: memberTrees [("height", .int 7)]) .closed) ∧
      ∃ fault, Node.ofBytes surrogateDocument = .error fault := by
  have hexact : ExactMembers [("height", .int 7)] := ⟨trivial, trivial⟩
  have hglyphs : decodeBytes surrogateDocument = before ['\x7b'] (before surrogateText
      (before [':'] (before "null".toList (before [',']
        (before (compactMembers [("height", .int 7)]) (before ['\x7d'] [])))))) := by
    decide +kernel
  have hclose : Lexes (before ['\x7d'] []) [.closeObject] := .token .closeObject nofun .nil
  have hrest := lexes_members [("height", .int 7)] _ _ hexact (endsNumber_mark (by simp)) hclose
  have hdoc : Document (decodeBytes (toBytes shortDocument.toText)) shortDocument.tree :=
    document_toBytes hexact (by decide +kernel)
  have hdoc' : Document (decodeBytes surrogateDocument)
      (.object ((loneSurrogate, .null) :: memberTrees [("height", .int 7)]) .closed) := by
    refine ⟨⟨⟨rfl, trivial, whole_members _ hexact⟩, rfl⟩, ?_⟩
    rw [hglyphs]
    exact .token .openObject nofun (.token token_loneSurrogate nofun
      (.token .colon nofun (.token .null nofun (.token .comma nofun hrest))))
  refine ⟨⟨_, (hdoc.hasTree.decode_eq Node.read).trans rfl⟩, hdoc, ?_, hdoc',
    _, (hdoc'.hasTree.decode_eq Node.read).trans rfl⟩
  intro name _ htext
  cases htext

end ChainAudit.Chain.Node
