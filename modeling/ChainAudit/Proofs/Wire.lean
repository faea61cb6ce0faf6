import ChainAudit.Notice.Response
import ChainAudit.Proofs.Json.Records
import ChainAudit.Summary.Basic

/-!
# What is sent arrives

Issues, replies, requests and summaries are given back by the readers of their texts. A request
holds the text of a summary as a string, so that the text is written and read twice.
-/

namespace ChainAudit

open ChainAudit.Chain ChainAudit.Json ChainAudit.Notice ChainAudit.Text

theorem Chain.Issue.read_toText (i : Issue) : decodeText Issue.read i.toValue.toText = .ok i := by
  have hkind : ∀ depth, Issue.readKind depth (Value.string i.kind.name).tree = .ok i.kind := by
    intro depth
    rw [Issue.readKind, readVariant_tree]
    cases i.kind <;> rfl
  rw [decodeText_toText _ (by simp [Issue.toValue, Value.Exact, ExactMembers, Value.int])]
  exact readRecord_tree (by decide) (by decide)
    (.mandatory (hkind _) (.mandatory (readInt64_tree _) (.mandatory (readInt64_tree _)
      (.mandatory (readInt64_tree _) (.mandatory (readInt64_tree _) .nil)))))

theorem Notice.Reply.read_toText (r : Reply) : decodeText Reply.read r.toValue.toText = .ok r := by
  have hmessages : Reply.readMessages 127 (Value.object
      [("messages", .array (r.messages.map .string))]).tree = .ok r.messages :=
    readRecord_tree (by decide) (by decide)
      (.optional (readList_tree (by decide) readString_tree _) .nil)
  have hstrings : ∀ s, (Value.string s).Exact := fun _ => trivial
  have hexact : r.toValue.Exact :=
    ⟨trivial, trivial, ⟨exactItems_map hstrings r.messages, trivial⟩, trivial⟩
  rw [decodeText_toText _ hexact]
  exact readRecord_tree (by decide) (by decide)
    (.optional (readString_tree _) (.optional (readBool_tree _) (.optional hmessages .nil)))

namespace Summary

theorem readRequest_toText (text : String) :
    decodeText readRequest (request text).toText = .ok text := by
  have hexact : (request text).Exact := ⟨trivial, trivial⟩
  rw [decodeText_toText _ hexact]
  exact readRecord_tree (by decide) (by decide) (.mandatory (readString_tree _) .nil)

/-- All counts of a summary are numbers of 64 bits. -/
structure Counted (s : Summary) : Prop where
  tracked : s.tracked < bound64
  withIssues : s.withIssues < bound64
  stuck : s.stuck < bound64
  incomplete : s.incomplete < bound64
  issues : s.issues < bound64
  gaps : s.gaps < bound64
  duplicates : s.duplicates < bound64

theorem read_toText {s : Summary} (hs : s.Counted) : decodeText Summary.read s.toText = .ok s := by
  have hcount : ∀ {depth n}, n < bound64 → readCount depth (Value.nat n).tree = .ok n :=
    fun hn => readNat_tree (Nat.le_refl _) hn _
  rw [toText, decodeText_toText _
    (by simp [toValue, Value.Exact, ExactMembers, Value.nat, Value.int])]
  exact readRecord_tree (by decide) (by decide)
    (.mandatory (hcount hs.tracked) (.mandatory (hcount hs.withIssues)
      (.mandatory (hcount hs.stuck) (.optional (hcount hs.incomplete)
        (.mandatory (readInt64_tree _) (.mandatory (hcount hs.issues)
          (.mandatory (hcount hs.gaps) (.mandatory (hcount hs.duplicates) .nil))))))))

end Summary

/-- Every issue, every reply and every request is read back from its text, whatever the texts in it
are made of. So is every summary whose counts are numbers of 64 bits, and the request that is made
of a summary holds a text from which the summary is read back too. -/
theorem sent_is_received :
    (∀ i : Issue, decodeText Issue.read i.toValue.toText = .ok i) ∧
      (∀ r : Reply, decodeText Reply.read r.toValue.toText = .ok r) ∧
      (∀ text, decodeText Summary.readRequest (Summary.request text).toText = .ok text) ∧
      ∀ s : Summary, s.Counted →
        decodeText Summary.read s.toText = .ok s ∧
          ∃ text, decodeText Summary.readRequest s.toRequest.toText = .ok text ∧
            decodeText Summary.read text = .ok s := by
  refine ⟨Issue.read_toText, Reply.read_toText, Summary.readRequest_toText, fun s hs => ?_⟩
  have hsummary := Summary.read_toText hs
  exact ⟨hsummary, s.toText, Summary.readRequest_toText s.toText, hsummary⟩

/-- The summary with the greatest counts and the least height. -/
def extremeSummary : Summary :=
  let most := bound64 - 1
  ⟨most, most, most, most, Int64.minValue, most, most, most⟩

theorem sent_is_received_extreme :
    decodeText Summary.read extremeSummary.toText = .ok extremeSummary ∧
      ∃ text, decodeText Summary.readRequest extremeSummary.toRequest.toText = .ok text ∧
        decodeText Summary.read text = .ok extremeSummary := by
  have hmost : bound64 - 1 < bound64 := by decide
  exact sent_is_received.2.2.2 extremeSummary ⟨hmost, hmost, hmost, hmost, hmost, hmost, hmost⟩

end ChainAudit
