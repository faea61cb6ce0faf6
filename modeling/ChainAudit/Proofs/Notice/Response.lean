import ChainAudit.Notice.Response
import ChainAudit.Proofs.Json.Objects
import ChainAudit.Proofs.Json.Trees
import ChainAudit.Proofs.Text

/-!
# Judgement of responses

What is concluded from a response follows from its flag, its error code and its status. A body is
taken for a document by its members, so this says which of the objects that acknowledge a summary
count as an acknowledgement.
-/

namespace ChainAudit.Notice

open ChainAudit.Json ChainAudit.Text

section Codes

def codeOf (text : String) : String := lowercase (trim text)

/-- A request is refused for good with this status. -/
def Refused (status : Nat) : Prop := 400 ≤ status ∧ status < 500 ∧ status ≠ 429

instance : DecidablePred Refused := fun status =>
  inferInstanceAs (Decidable (400 ≤ status ∧ status < 500 ∧ status ≠ 429))

/-- A text with this status is a success on its own. -/
def Bare (status : Nat) (text : String) : Prop :=
  200 ≤ status ∧ status < 300 ∧ (trim text = "" ∨ codeOf text = "ok")

instance (status : Nat) (text : String) : Decidable (Bare status text) :=
  inferInstanceAs (Decidable (200 ≤ status ∧ status < 300 ∧ (trim text = "" ∨ codeOf text = "ok")))

/-- What is concluded from a status and a text where there is no success. -/
def verdict (status : Nat) (text : String) : Decision :=
  if codeOf text ∈ permanentCodes then .giveUp
  else if codeOf text ∈ transientCodes then .retryLater
  else if Refused status then .giveUp
  else .retryLater

variable {status : Nat} {text : String} {body : Reply}

theorem not_permanent_of_transient : ∀ code ∈ transientCodes, code ∉ permanentCodes := by
  decide +kernel

theorem not_known_of_blank (h : trim text = "") :
    codeOf text ∉ permanentCodes ∧ codeOf text ∉ transientCodes := by
  rw [codeOf, h]
  decide +kernel

private theorem judgeStatus_eq (status : Nat) :
    judgeError.judgeStatus status = if Refused status then .giveUp else .retryLater := rfl

private theorem judgeError_eq (status : Nat) (text : String) :
    judgeError status (if (trim text).isEmpty then none else some (trim text)) =
      verdict status text := by
  by_cases hblank : trim text = ""
  · obtain ⟨hpermanent, htransient⟩ := not_known_of_blank hblank
    simp [verdict, hpermanent, htransient, hblank, judgeError, judgeStatus_eq]
  · have hnonempty : (trim text).isEmpty = false := by simpa using hblank
    have hcode : (some (trim text)).map lowercase = some (codeOf text) := rfl
    simp only [hnonempty, Bool.false_eq_true, if_false, judgeError, hcode, judgeStatus_eq, verdict,
      List.contains_iff_mem]

theorem decision_reply_of_not_ok (hok : body.ok = false) :
    (Outcome.reply status body).decision = verdict status body.error := by
  simp only [Outcome.decision, hok, Bool.false_eq_true, if_false, Reply.error?]
  exact judgeError_eq status body.error

theorem decision_text :
    (Outcome.text status text).decision =
      if Bare status text then .delivered else verdict status text := by
  have hok : lowercase "ok" = "ok" := by decide +kernel
  have hbare : (200 ≤ status ∧ status < 300 ∧
      ((trim text).isEmpty ∨ sameLetters (trim text) "ok")) ↔ Bare status text := by
    simp [Bare, codeOf, sameLetters, hok]
  simp only [Outcome.decision, judgeError_eq, hbare]

theorem verdict_of_permanent (hcode : codeOf text ∈ permanentCodes) :
    verdict status text = .giveUp := if_pos hcode

theorem verdict_of_transient (hcode : codeOf text ∈ transientCodes) :
    verdict status text = .retryLater := by
  rw [verdict, if_neg (not_permanent_of_transient _ hcode), if_pos hcode]

theorem verdict_of_unknown
    (hcode : trim text = "" ∨ codeOf text ∉ permanentCodes ∧ codeOf text ∉ transientCodes) :
    verdict status text = if Refused status then .giveUp else .retryLater := by
  obtain ⟨hpermanent, htransient⟩ := hcode.elim not_known_of_blank id
  rw [verdict, if_neg hpermanent, if_neg htransient]

private theorem verdict_cases (status : Nat) (text : String) :
    verdict status text = .giveUp ∨ verdict status text = .retryLater := by
  unfold verdict
  split_ifs <;> simp

theorem verdict_ne_delivered : verdict status text ≠ .delivered := by
  rcases verdict_cases status text with h | h <;> simp [h]

theorem verdict_ne_retryNow : verdict status text ≠ .retryNow := by
  rcases verdict_cases status text with h | h <;> simp [h]

theorem decision_eq_retryNow_iff (o : Outcome) :
    o.decision = .retryNow ↔ ∃ reason, o = .noResponse reason := by
  cases o with
  | noResponse reason => simp [Outcome.decision]
  | unsendable reason => simp [Outcome.decision]
  | reply status body =>
    cases hok : body.ok with
    | true => simp [Outcome.decision, hok]
    | false => simp [decision_reply_of_not_ok hok, verdict_ne_retryNow]
  | text status text =>
    rw [decision_text]
    split_ifs <;> simp [verdict_ne_retryNow]

/-- What is concluded from a response. Only where none came is the next attempt made at once. A reply
is believed when it says so; else a known error code decides at every status, and the status decides
about all others. A text is judged like the error of a reply, unless it is a success on its own. -/
theorem judged_by_code_and_status (status : Nat) :
    (∀ o : Outcome, o.decision = .retryNow ↔ ∃ reason, o = .noResponse reason) ∧
      (∀ body : Reply, body.ok = true → (Outcome.reply status body).decision = .delivered) ∧
      (∀ body : Reply, body.ok = false → codeOf body.error ∈ permanentCodes →
        (Outcome.reply status body).decision = .giveUp) ∧
      (∀ body : Reply, body.ok = false → codeOf body.error ∈ transientCodes →
        (Outcome.reply status body).decision = .retryLater) ∧
      (∀ body : Reply, body.ok = false →
        (trim body.error = "" ∨
          codeOf body.error ∉ permanentCodes ∧ codeOf body.error ∉ transientCodes) →
        (Outcome.reply status body).decision =
          if Refused status then .giveUp else .retryLater) ∧
      ∀ body : Reply, body.ok = false →
        (Bare status body.error → (Outcome.text status body.error).decision = .delivered ∧
          (Outcome.reply status body).decision ≠ .delivered) ∧
        (¬ Bare status body.error →
          (Outcome.text status body.error).decision = (Outcome.reply status body).decision) := by
  refine ⟨fun o => ?_, fun body hok => ?_, fun body hok hcode => ?_, fun body hok hcode => ?_,
    fun body hok hcode => ?_, fun body hok => ⟨fun hbare => ?_, fun hbare => ?_⟩⟩
  · exact decision_eq_retryNow_iff o
  · exact if_pos hok
  · rw [decision_reply_of_not_ok hok, verdict_of_permanent hcode]
  · rw [decision_reply_of_not_ok hok, verdict_of_transient hcode]
  · rw [decision_reply_of_not_ok hok]
    exact verdict_of_unknown hcode
  · rw [decision_text, if_pos hbare, decision_reply_of_not_ok hok]
    exact ⟨rfl, verdict_ne_delivered⟩
  · rw [decision_text, if_neg hbare, decision_reply_of_not_ok hok]

theorem judged_by_code_and_status_spelled :
    (Outcome.reply 200 ⟨"\u00a0Channel_NOT_found\n", false, []⟩).decision = .giveUp ∧
      (Outcome.reply 404 ⟨" RateLimited", false, ["slow down"]⟩).decision = .retryLater ∧
      (Outcome.reply 404 ⟨"no such hook", false, []⟩).decision = .giveUp ∧
      (Outcome.reply 429 ⟨"\u3000", false, []⟩).decision = .retryLater ∧
      (Outcome.reply 500 ⟨"invalid_auth", true, []⟩).decision = .delivered ∧
      (Outcome.text 204 " Ok\n").decision = .delivered ∧
      (Outcome.reply 204 ⟨" Ok\n", false, []⟩).decision ≠ .delivered ∧
      (Outcome.text 404 "ok").decision = (Outcome.reply 404 ⟨"ok", false, []⟩).decision := by
  obtain ⟨-, -, hpermanent, -⟩ := judged_by_code_and_status 200
  obtain ⟨-, -, -, htransient, hunknown, hsame⟩ := judged_by_code_and_status 404
  obtain ⟨-, -, -, -, hblank, -⟩ := judged_by_code_and_status 429
  obtain ⟨-, hok, -⟩ := judged_by_code_and_status 500
  obtain ⟨-, -, -, -, -, hbare⟩ := judged_by_code_and_status 204
  refine ⟨?_, ?_, ?_, ?_, ?_, ?_, ?_, ?_⟩
  · exact hpermanent _ rfl (by decide +kernel)
  · exact htransient _ rfl (by decide +kernel)
  · exact hunknown _ rfl (.inr (by decide +kernel))
  · exact hblank _ rfl (.inl (by decide +kernel))
  · exact hok _ rfl
  · exact ((hbare ⟨" Ok\n", false, []⟩ rfl).1 (by decide +kernel)).1
  · exact ((hbare ⟨" Ok\n", false, []⟩ rfl).1 (by decide +kernel)).2
  · exact (hsame ⟨"ok", false, []⟩ rfl).2 (by decide +kernel)

end Codes

section Documents

variable {body : String} {members : List (StringLit × Tree)} {t : Tree} {depth : Nat}

/-- What stands for the details of a reply. -/
inductive IsDetails : Tree → Prop
  | object {members : List (StringLit × Tree)}
      (hfit : MembersFit [("messages", IsArrayOf IsText)] members) :
      IsDetails (.object members .closed)
  | array {items : List Tree} (hone : items.length ≤ 1)
      (hitems : ∀ item ∈ items, IsArrayOf IsText item) : IsDetails (.array items .closed)

/-- The members of a reply, and what their values have to be. -/
def replyMembers : List (String × (Tree → Prop)) :=
  [("error", IsText), ("ok", IsFlag), ("response_metadata", IsDetails)]

private theorem readTexts_ok_iff (hdepth : 1 < depth) :
    (∃ ms, readList readString depth t = .ok ms) ↔ IsArrayOf IsText t := by
  rw [readList_ok_iff hdepth]
  simp only [readString_ok_iff]

theorem readMessages_ok_iff (hwhole : t.Whole) (hdepth : 2 < depth) :
    (∃ ms, Reply.readMessages depth t = .ok ms) ↔ IsDetails t := by
  have htakes : ∀ item, (Field.optional "messages" (readList readString)
      fun ms (_ : List String) => ms).Takes (depth - 1) item ↔ IsArrayOf IsText item := by
    intro item
    rw [Field.takes_optional, readTexts_ok_iff (by omega)]
  cases t with
  | object members tail =>
    obtain ⟨hmembers, rfl⟩ : WholeMembers members ∧ tail = .closed := hwhole
    have hfit : (∃ ms, Reply.readMessages depth (.object members .closed) = .ok ms) ↔
        MembersFit [("messages", IsArrayOf IsText)] members :=
      readRecord_object_iff (by omega) (by simp) (by simp [Field.steady_optional])
        (by simp [Field.optional]) hmembers (.cons ⟨rfl, fun m _ => htakes m.2⟩ .nil)
    rw [hfit]
    constructor
    · exact .object
    · rintro ⟨h⟩
      exact h
  | array items tail =>
    obtain ⟨-, rfl⟩ : WholeItems items ∧ tail = .closed := hwhole
    refine (readRecord_array_iff (by omega) (by simp [Field.steady_optional])
      (by simp [Field.optional])).trans ?_
    constructor
    · rintro ⟨hone, hfields⟩
      refine .array hone fun item hitem => (htakes item).mp ?_
      -- an item of so short an array is the first
      rcases items with _ | ⟨first, _ | ⟨second, more⟩⟩
      · exact absurd hitem List.not_mem_nil
      · obtain rfl := List.mem_singleton.mp hitem
        exact hfields _ List.mem_cons_self
      · simp at hone
    · rintro (_ | ⟨hone, hitems⟩)
      refine ⟨hone, fun p hp => ?_⟩
      obtain ⟨hfield, hitem⟩ := List.of_mem_zip hp
      rw [List.mem_singleton.mp hfield]
      exact (htakes p.2).mpr (hitems p.2 hitem)
  | _ =>
    simp only [Reply.readMessages, readRecord, mismatch_ne_ok, exists_false, false_iff]
    rintro ⟨⟩

theorem Reply.read_ok_iff (hwhole : WholeMembers members) (hdepth : 3 < depth) :
    (∃ r, Reply.read depth (.object members .closed) = .ok r) ↔ MembersFit replyMembers members := by
  refine readRecord_object_iff (by omega) (by decide) ?_ ?_ hwhole
    (.cons ⟨rfl, ?_⟩ (.cons ⟨rfl, ?_⟩ (.cons ⟨rfl, ?_⟩ .nil)))
  · simp [Field.steady_optional]
  · simp [Field.optional]
  · intro m _
    exact Field.takes_optional.trans readString_ok_iff
  · intro m _
    exact Field.takes_optional.trans readBool_ok_iff
  · intro m hm
    exact Field.takes_optional.trans
      (readMessages_ok_iff (wholeMembers_iff.mp hwhole m hm).2 (by omega))

/-- The members acknowledge a summary. -/
def Acknowledges (members : List (StringLit × Tree)) : Prop :=
  ∃ m ∈ members, m.1.text = .ok "ok" ∧ m.2 = .bool true

theorem Reply.ok_of_read {r : Reply} (hack : Acknowledges members)
    (hread : Reply.read depth (.object members .closed) = .ok r) : r.ok = true := by
  obtain ⟨⟨k, t⟩, hm, hname, rfl⟩ := hack
  obtain ⟨-, seen, hfilled, -⟩ := readRecord_object_eq_ok_iff.mp hread
  refine hfilled.establishes (P := fun r => r.ok = true)
    (f := .optional "ok" readBool fun b r => { r with ok := b }) rfl hm hname ?_ ?_
  · intro u u' h
    obtain ⟨b, hb, rfl⟩ := Field.read_optional.mp h
    exact (Except.ok.inj hb).symm
  · -- the other fields are set next to the flag
    simp only [List.forall_mem_cons]
    refine ⟨fun _ t u u' h hu => ?_, fun hne => absurd rfl hne, fun _ t u u' h hu => ?_, nofun⟩
    · obtain ⟨e, -, rfl⟩ := Field.read_optional.mp h
      exact hu
    · obtain ⟨ms, -, rfl⟩ := Field.read_optional.mp h
      exact hu

private theorem exists_append_of_before {xs cs : List Char} {rest : List Glyph}
    (h : xs.map Glyph.char = before cs rest) : ∃ after, xs = cs ++ after := by
  induction cs generalizing xs with
  | nil => exact ⟨xs, rfl⟩
  | cons c cs ih =>
    cases xs with
    | nil => cases h
    | cons x xs =>
      obtain ⟨hx, hxs⟩ := List.cons.inj h
      obtain ⟨after, rfl⟩ := ih hxs
      exact ⟨after, by rw [Glyph.char.inj hx, List.cons_append]⟩

private theorem isBlank_of_isSpace {c : Char} (hc : isSpace c = true) : isBlank c = true := by
  simp only [isSpace, Bool.or_eq_true, beq_iff_eq] at hc
  rcases hc with ((rfl | rfl) | rfl) | rfl <;> decide

private theorem codeOf_object (hdoc : Document (glyphs body) (.object members .closed)) :
    (codeOf body).toList.head? = some '\x7b' := by
  obtain ⟨spaces, cs, rest, htext, hspaces, hbrace⟩ := hdoc.lexes.first
  cases hbrace
  obtain ⟨after, hbody⟩ := exists_append_of_before htext
  have htrim : trimChars body.toList = '\x7b' :: dropBlankEnd after := by
    rw [hbody, List.append_assoc]
    exact trimChars_of_not_blank (fun c hc => isBlank_of_isSpace (hspaces c hc)) (by decide) after
  simp [codeOf, lowercase, trim, htrim, lowerAscii]

private theorem verdict_object (status : Nat)
    (hdoc : Document (glyphs body) (.object members .closed)) :
    ¬ Bare status body ∧
      verdict status body = if Refused status then .giveUp else .retryLater := by
  have hplain : ∀ code ∈ "" :: "ok" :: (permanentCodes ++ transientCodes),
      code.toList.head? ≠ some '\x7b' := by decide +kernel
  have hcode : codeOf body ∉ "" :: "ok" :: (permanentCodes ++ transientCodes) :=
    fun h => hplain _ h (codeOf_object hdoc)
  simp only [List.mem_cons, List.mem_append, not_or] at hcode
  obtain ⟨hblank, hok, hpermanent, htransient⟩ := hcode
  constructor
  · rintro ⟨-, -, h | h⟩
    · apply hblank
      rw [codeOf, h]
      decide +kernel
    · exact hok h
  · exact verdict_of_unknown (.inr ⟨hpermanent, htransient⟩)

/-- An object that acknowledges a summary is a success at every status, provided that it is read as a
reply: all names of its members are texts, and those that are known come once and with values of the
right kind. Otherwise it is judged by its status alone, so it is never a success. -/
theorem acknowledged_delivered_iff {status : Nat}
    (hdoc : Document (glyphs body) (.object members .closed)) (hack : Acknowledges members) :
    ((Outcome.ofBody status body).decision = .delivered ↔ MembersFit replyMembers members) ∧
      (¬ MembersFit replyMembers members → (Outcome.ofBody status body).decision =
        if Refused status then .giveUp else .retryLater) := by
  have hread : decodeText Reply.read body = Reply.read depthLimit (.object members .closed) :=
    decode_document hdoc Reply.read
  have hfit : (∃ r, Reply.read depthLimit (.object members .closed) = .ok r) ↔
      MembersFit replyMembers members := Reply.read_ok_iff hdoc.whole.1 (by decide)
  rw [Outcome.ofBody, hread]
  cases hreply : Reply.read depthLimit (.object members .closed) with
  | ok r =>
    have hdelivered : (Outcome.reply status r).decision = .delivered :=
      if_pos (Reply.ok_of_read hack hreply)
    have hmembers : MembersFit replyMembers members := hfit.mp ⟨r, hreply⟩
    exact ⟨iff_of_true hdelivered hmembers, fun h => absurd hmembers h⟩
  | error e =>
    have hmembers : ¬ MembersFit replyMembers members := by
      intro h
      obtain ⟨r, hr⟩ := hfit.mpr h
      cases hreply.symm.trans hr
    obtain ⟨hbare, hverdict⟩ := verdict_object status hdoc
    have hdecision : (Outcome.text status body).decision = verdict status body := by
      rw [decision_text, if_neg hbare]
    dsimp only
    rw [hdecision]
    exact ⟨iff_of_false verdict_ne_delivered hmembers, fun _ => hverdict⟩

/-- The members of an acknowledgement that names an error as well. -/
def withTimeout : List (String × Value) :=
  [("error", .string "timeout"), ("attempts", .null), ("ok", .bool true)]

theorem acknowledged_delivered_withTimeout :
    Document (glyphs (Value.object withTimeout).toText)
        (.object (memberTrees withTimeout) .closed) ∧
      Acknowledges (memberTrees withTimeout) ∧
      (Outcome.ofBody 503 (Value.object withTimeout).toText).decision = .delivered := by
  have hdoc : Document (glyphs (Value.object withTimeout).toText)
      (.object (memberTrees withTimeout) .closed) :=
    document_toText (v := .object withTimeout) (by simp [withTimeout, Value.Exact, ExactMembers])
  have hack : Acknowledges (memberTrees withTimeout) := by
    simp [Acknowledges, withTimeout, memberTrees, text_textLit, Value.tree]
  refine ⟨hdoc, hack, (acknowledged_delivered_iff hdoc hack).1.mpr ?_⟩
  simp [withTimeout, memberTrees, membersFit_cons, membersFit_nil, replyMembers, text_textLit,
    Value.tree, IsText, IsFlag]

/-- The members of an acknowledgement that says there was no error. -/
def withNoError : List (String × Value) := [("ok", .bool true), ("error", .null)]

/-- An acknowledgement that says so by a null is not taken for one, and the summary is sent again. -/
theorem acknowledged_sent_again :
    Document (glyphs "\x7b\"ok\":true,\"error\":null\x7d")
        (.object (memberTrees withNoError) .closed) ∧
      Acknowledges (memberTrees withNoError) ∧
      (Outcome.ofBody 200 "\x7b\"ok\":true,\"error\":null\x7d").decision = .retryLater := by
  have htext : (Value.object withNoError).toText = "\x7b\"ok\":true,\"error\":null\x7d" := by
    decide +kernel
  refine ⟨htext ▸ document_toText (v := .object withNoError) ?_, ?_, by decide +kernel⟩
  · simp [withNoError, Value.Exact, ExactMembers]
  · simp [Acknowledges, withNoError, memberTrees, text_textLit, Value.tree]

end Documents

end ChainAudit.Notice
