import ChainAudit.Http.HeadApi
import ChainAudit.Proofs.Json.Accepted
import ChainAudit.Proofs.Json.Trees
import ChainAudit.Proofs.Table

/-!
# Heads that an interface names

A head is named by two answers: one tells a height, and the other one names a single node at that
height. Everything else is a failure to look the head up, so that no node is taken for the head that
was not named as the only one.
-/

namespace ChainAudit.Http

open ChainAudit.Chain ChainAudit.Json ChainAudit.Schedule ChainAudit.Text

section Answers

/-- A response of success came, with this body. -/
def Delivers (answer : Except ExchangeError Response) (body : Bytes) : Prop :=
  ∃ status, 200 ≤ status ∧ status < 300 ∧ answer = .ok ⟨status, some body⟩

def TellsHeight (answer : Except ExchangeError Response) (height : Height) : Prop :=
  ∃ body, Delivers answer body ∧ decodeBytes readHeight body = .ok height

/-- An answer is an object that can be read in full, and all keys in it are the same name. -/
def NamesNode (answer : Except ExchangeError Response) (cid : String) : Prop :=
  ∃ body members, Delivers answer body ∧
    Document (Text.decodeBytes body) (.object members .closed) ∧
    (Tree.object members .closed).Readable ∧ (Tree.object members .closed).nesting < depthLimit ∧
    ∀ name, (∃ m ∈ members, m.1.text = .ok name) ↔ name = cid

variable {answer : Except ExchangeError Response} {r : Reader α} {a : α}

theorem documentOf_eq_ok_iff :
    documentOf r answer = .ok a ↔ ∃ body, Delivers answer body ∧ decodeBytes r body = .ok a := by
  rcases answer with e | ⟨status, body?⟩
  · simp [documentOf, Delivers]
  · by_cases hstatus : 200 ≤ status ∧ status < 300
    · have hsuccess : isSuccess status = true := by simpa [isSuccess] using hstatus
      cases body? with
      | none => simp [documentOf, hsuccess, Delivers]
      | some body => cases hread : decodeBytes r body <;>
          simp [documentOf, hsuccess, Delivers, hstatus, hread]
    · have hfailure : ¬ isSuccess status = true := by simpa [isSuccess] using hstatus
      simp [documentOf, hfailure, Delivers, ← and_assoc, hstatus]

private theorem readMap_eq_ok_iff {depth : Nat} {t : Tree} {values : List (String × Value)} :
    readMap depth t = .ok values ↔ ∃ members, t = .object members .closed ∧ 1 < depth ∧
      memberValues (depth - 1) members = .ok values := by
  cases t with
  | object members tail =>
    by_cases hdepth : depth ≤ 1
    · simp [readMap, hdepth, Nat.not_lt.mpr hdepth]
    · simp [readMap, hdepth, Nat.lt_of_not_le hdepth, bind_eq_ok_iff, objectEnd_eq_ok_iff, pure,
        Except.pure, and_comm]
  | _ => simp [readMap, mismatch_ne_ok]

theorem decode_map_iff {text : List Glyph} {values : List (String × Value)} :
    decode readMap text = .ok values ↔
      ∃ members, Document text (.object members .closed) ∧
        memberValues (depthLimit - 1) members = .ok values := by
  constructor
  · intro h
    obtain ⟨t, htree⟩ := exists_hasTree h
    rw [htree.decode_eq] at h
    obtain ⟨members, rfl, -, hvalues⟩ := readMap_eq_ok_iff.mp h
    obtain ⟨hreadable, -⟩ := (memberValues_ok_iff members (by decide)).mp ⟨values, hvalues⟩
    have hobject : (Tree.object members .closed).Readable := ⟨hreadable, rfl⟩
    exact ⟨members, (hasTree_iff_document hobject).mp htree, hvalues⟩
  · rintro ⟨members, hdoc, hvalues⟩
    rw [decode_document hdoc]
    exact readMap_eq_ok_iff.mpr ⟨members, rfl, by decide, hvalues⟩

private theorem memberValues_names {depth : Nat} {members : List (StringLit × Tree)}
    {values : List (String × Value)} (h : memberValues depth members = .ok values) (name : String) :
    (∃ v ∈ values, v.1 = name) ↔ ∃ m ∈ members, m.1.text = .ok name := by
  rw [memberValues_eq_ok_iff] at h
  induction h with
  | nil => simp
  | @cons m v members values hfirst _ ih => simp [ih, hfirst.1]

theorem namedNode_eq_ok_iff {height : Height} {values : List (String × Value)} {cid : String} :
    namedNode height values = .ok cid ↔
      (∀ name, (∃ v ∈ values, v.1 = name) ↔ name = cid) ∧ cid ≠ "error" := by
  have hnames : (values.map (·.1)).eraseDups = [cid] ↔
      ∀ name, (∃ v ∈ values, v.1 = name) ↔ name = cid := by
    have hnodup := eraseDups_nodup (values.map (·.1))
    rw [← List.perm_singleton, List.perm_ext_iff_of_nodup hnodup (List.nodup_singleton cid)]
    simp only [List.mem_eraseDups, List.mem_map, List.mem_singleton]
  have herror : values.any (·.1 == "error") = true ↔ ∃ v ∈ values, v.1 = "error" := by simp
  rw [namedNode]
  split
  · rename_i hany
    -- an object with this key names no other node
    simp only [reduceCtorEq, false_iff, not_and, not_not]
    exact fun hcid => ((hcid _).mp (herror.mp hany)).symm
  · rename_i hany
    rw [← hnames]
    have hcid : ∀ cid, (values.map (·.1)).eraseDups = [cid] → cid ≠ "error" := by
      rintro cid hsingle rfl
      have hmem : "error" ∈ (values.map (·.1)).eraseDups := by simp [hsingle]
      exact hany (herror.mpr (by simpa using hmem))
    split
    · rename_i cid' hsingle
      simp only [hsingle, Except.ok.injEq, List.cons.injEq, and_true]
      exact ⟨fun h => ⟨h, h ▸ hcid cid' hsingle⟩, And.left⟩
    · rename_i hother
      simp only [reduceCtorEq, false_iff, not_and]
      exact fun hsingle => absurd hsingle (hother cid)

theorem namesNode_iff {height : Height} {cid : String} :
    (documentOf readMap answer).bind (namedNode height) = .ok cid ↔
      NamesNode answer cid ∧ cid ≠ "error" := by
  have hbind : (documentOf readMap answer).bind (namedNode height) = .ok cid ↔
      ∃ values, documentOf readMap answer = .ok values ∧ namedNode height values = .ok cid :=
    bind_eq_ok_iff
  simp only [hbind, documentOf_eq_ok_iff, namedNode_eq_ok_iff, Json.decodeBytes, decode_map_iff]
  constructor
  · rintro ⟨values, ⟨body, hbody, members, hdoc, hvalues⟩, hnames, herror⟩
    obtain ⟨hreadable, hnesting⟩ :=
      (memberValues_ok_iff members (by decide)).mp ⟨values, hvalues⟩
    refine ⟨⟨body, members, hbody, hdoc, ⟨hreadable, rfl⟩, ?_, fun name => ?_⟩, herror⟩
    · exact Nat.succ_lt_of_lt_pred hnesting
    · rw [← memberValues_names hvalues, hnames]
  · rintro ⟨⟨body, members, hbody, hdoc, ⟨hreadable, -⟩, hnesting, hnames⟩, herror⟩
    obtain ⟨values, hvalues⟩ := (memberValues_ok_iff members (by decide)).mpr
      ⟨hreadable, Nat.lt_pred_of_succ_lt hnesting⟩
    refine ⟨values, ⟨body, hbody, members, hdoc, hvalues⟩, fun name => ?_, herror⟩
    rw [memberValues_names hvalues, hnames]

end Answers

section Requests

/-- The network that lists the requests that are sent over it. -/
def Network.listing (n : Network ω) : Network (ω × List Request) where
  send request s := ((n.send request s.1).1, (n.send request s.1).2, s.2 ++ [request])

def requestsTo : Except UrlError Url → List Request
  | .ok url => if url.isWeb then [⟨.get, url, none⟩] else []
  | .error _ => []

theorem exchange_listing (n : Network ω) (url : Except UrlError Url) (s : ω)
    (sent : List Request) :
    n.listing.exchange .get url none (s, sent) =
      ((n.exchange .get url none s).1, (n.exchange .get url none s).2, sent ++ requestsTo url) := by
  cases url with
  | error e => simp [Network.exchange, requestsTo]
  | ok url =>
    by_cases hweb : url.isWeb = true
    · simp [Network.exchange, requestsTo, hweb, Network.listing]
    · simp [Network.exchange, requestsTo, hweb]

end Requests

section Lookups

variable (n : Network ω) (base project : String) (s : ω)

/-- The answer to the request for the latest height of a project. -/
def latestOf : Delayed (Except ExchangeError Response) × ω :=
  n.exchange .get (heightUrl (baseOf base) project) none s

/-- The answer to the request for a project at a height, made after the one for the latest
height. -/
def blockOf (height : Height) : Delayed (Except ExchangeError Response) × ω :=
  n.exchange .get (payloadUrl (baseOf base) project height) none (latestOf n base project s).2

/-- The height that is told, or what is wrong with the answer. -/
def heightTold : Except String Height := documentOf readHeight (latestOf n base project s).1.value

/-- The node that is named at a height, or what is wrong with the answer. -/
def nodeNamed (height : Height) : Except String String :=
  (documentOf readMap (blockOf n base project s height).1.value).bind (namedNode height)

/-- What is found for a project. -/
def headFrom (project : String) (told : Except String Height)
    (named : Height → Except String String) : Except Failure (Option String) :=
  match told with
  | .error reason => .error (.headLookup project reason)
  | .ok height =>
      if height ≤ 0 then .ok none
      else ((named height).map some).mapError (.headLookup project)

/-- What is asked for to look the head of a project up. -/
def requestsFor (told : Except String Height) : List Request :=
  requestsTo (heightUrl (baseOf base) project) ++
    match told with
    | .error _ => []
    | .ok height =>
        if height ≤ 0 then [] else requestsTo (payloadUrl (baseOf base) project height)

theorem lookup_value : ((headApi n base).lookup project s).1.value =
    headFrom project (heightTold n base project s) (nodeNamed n base project s) := by
  simp only [headApi, lookupHead, headFrom, heightTold, nodeNamed, latestOf, blockOf]
  cases documentOf readHeight
    (n.exchange .get (heightUrl (baseOf base) project) none s).1.value with
  | error reason => rfl
  | ok height =>
    by_cases hheight : height ≤ 0
    · simp only [hheight, if_true, Except.mapError]
    · simp only [hheight, if_false]

theorem lookup_listing (sent : List Request) :
    (headApi n.listing base).lookup project (s, sent) =
      (((headApi n base).lookup project s).1, ((headApi n base).lookup project s).2,
        sent ++ requestsFor base project (heightTold n base project s)) := by
  simp only [headApi, lookupHead, exchange_listing, heightTold, latestOf, requestsFor]
  cases documentOf readHeight
    (n.exchange .get (heightUrl (baseOf base) project) none s).1.value with
  | error reason => simp
  | ok height =>
    by_cases hheight : height ≤ 0
    · simp [hheight]
    · simp [hheight]

variable {n base project s}
variable {told : Except String Height} {named : Height → Except String String}

theorem tellsHeight_iff {height : Height} : TellsHeight (latestOf n base project s).1.value height ↔
    heightTold n base project s = .ok height :=
  documentOf_eq_ok_iff.symm

theorem nodeNamed_iff {height : Height} {cid : String} :
    nodeNamed n base project s height = .ok cid ↔
      NamesNode (blockOf n base project s height).1.value cid ∧ cid ≠ "error" :=
  namesNode_iff

theorem headFrom_none_iff : headFrom project told named = .ok none ↔
    ∃ height ≤ 0, told = .ok height := by
  cases told with
  | error reason => simp [headFrom]
  | ok height =>
    by_cases hheight : height ≤ 0
    · simp [headFrom, hheight]
    · cases hnamed : named height <;> simp [headFrom, hheight, hnamed, Except.map, Except.mapError]

theorem headFrom_some_iff {cid : String} : headFrom project told named = .ok (some cid) ↔
    ∃ height > 0, told = .ok height ∧ named height = .ok cid := by
  cases told with
  | error reason => simp [headFrom]
  | ok height =>
    have hpositive : 0 < height ↔ ¬ height ≤ 0 := Int64.not_le.symm
    by_cases hheight : height ≤ 0
    · simp [headFrom, hheight, hpositive]
    · cases hnamed : named height <;>
        simp [headFrom, hheight, hpositive, hnamed, Except.map, Except.mapError]

theorem headFrom_error {e : Failure} (h : headFrom project told named = .error e) :
    ∃ reason, e = .headLookup project reason := by
  cases told with
  | error reason => exact ⟨reason, (Except.error.inj h).symm⟩
  | ok height =>
    by_cases hheight : height ≤ 0
    · simp [headFrom, hheight] at h
    · cases hnamed : named height with
      | error reason =>
        simp only [headFrom, hheight, if_false, hnamed] at h
        exact ⟨reason, (Except.error.inj h).symm⟩
      | ok cid => simp [headFrom, hheight, hnamed, Except.map, Except.mapError] at h

theorem requestsFor_of_le {height : Height} (h : height ≤ 0) :
    requestsFor base project (.ok height) = requestsTo (heightUrl (baseOf base) project) := by
  rw [requestsFor, if_pos h, List.append_nil]

theorem requestsFor_of_pos {height : Height} (h : 0 < height) :
    requestsFor base project (.ok height) = requestsTo (heightUrl (baseOf base) project) ++
      requestsTo (payloadUrl (baseOf base) project height) := by
  rw [requestsFor, if_neg (Int64.not_le.mpr h)]

end Lookups

/-- The head of a project is looked up by two answers. There is none exactly if a height is told
that is not positive, and then nothing else is asked for. It is a node exactly if a positive height
is told and the answer for it names this node, under a name that does not stand for an error. In all
other cases the lookup fails for the project. -/
theorem lookup_by_answers (n : Network ω) (base project : String) (s : ω) :
    let latest := (latestOf n base project s).1.value
    let block := fun height => (blockOf n base project s height).1.value
    let found := (headApi n base).lookup project s
    (found.1.value = .ok none ↔ ∃ height ≤ 0, TellsHeight latest height) ∧
    (∀ cid, found.1.value = .ok (some cid) ↔ ∃ height > 0, TellsHeight latest height ∧
      NamesNode (block height) cid ∧ cid ≠ "error") ∧
    (∀ e, found.1.value = .error e → ∃ reason, e = .headLookup project reason) ∧
    ∃ requests,
      (∀ sent, (headApi n.listing base).lookup project (s, sent) =
        (found.1, found.2, sent ++ requests)) ∧
      (∀ height ≤ 0, TellsHeight latest height →
        requests = requestsTo (heightUrl (baseOf base) project)) ∧
      ∀ height > 0, TellsHeight latest height →
        requests = requestsTo (heightUrl (baseOf base) project) ++
          requestsTo (payloadUrl (baseOf base) project height) := by
  dsimp only
  simp only [tellsHeight_iff]
  refine ⟨?_, fun cid => ?_, fun e h => ?_, _, lookup_listing n base project s, ?_, ?_⟩
  · rw [lookup_value, headFrom_none_iff]
  · rw [lookup_value, headFrom_some_iff]
    simp only [nodeNamed_iff]
  · rw [lookup_value] at h
    exact headFrom_error h
  · intro height hheight htold
    rw [htold, requestsFor_of_le hheight]
  · intro height hheight htold
    rw [htold, requestsFor_of_pos hheight]

/-- A network that answers with one response after the other. -/
def scripted : Network (List Response) where
  send _ s := (⟨s.head?, none⟩, s.tail)

def success (body : Bytes) : Response := ⟨200, some body⟩

def heightDocument : Bytes := toBytes (Value.object [("height", .int 7)]).toText

def blockDocument : Value := .object [("n1", .object [])]

theorem tellsHeight_scripted (block : Response) :
    TellsHeight (latestOf scripted "http://api" "p" [success heightDocument, block]).1.value 7 := by
  have hdoc : Document (Text.decodeBytes heightDocument)
      (Value.object [("height", .int 7)]).tree :=
    document_toBytes ⟨trivial, trivial⟩ (by decide +kernel)
  exact ⟨_, ⟨200, by decide, by decide, rfl⟩, (hdoc.hasTree.decode_eq readHeight).trans rfl⟩

private theorem names_single (k : String) (t : Tree) (name : String) :
    (∃ m ∈ [(textLit k, t)], m.1.text = .ok name) ↔ name = k := by
  simp [text_textLit, eq_comm]

theorem lookup_by_answers_scripted :
    let answers := [success heightDocument, success (toBytes blockDocument.toText)]
    let found := (headApi scripted "http://api").lookup "p" answers
    TellsHeight (latestOf scripted "http://api" "p" answers).1.value 7 ∧
      NamesNode (blockOf scripted "http://api" "p" answers 7).1.value "n1" ∧
      found.1.value = .ok (some "n1") ∧
      ∃ requests, (headApi scripted.listing "http://api").lookup "p" (answers, []) =
          (found.1, found.2, requests) ∧
        requests.map (·.url.write) =
          ["http://api/p/payloads/height", "http://api/p/payload/7"] := by
  intro answers found
  obtain ⟨-, hsome, -, requests, hlisting, -, hboth⟩ :=
    lookup_by_answers scripted "http://api" "p" answers
  have htells := tellsHeight_scripted (success (toBytes blockDocument.toText))
  have hnames : NamesNode (blockOf scripted "http://api" "p" answers 7).1.value "n1" := by
    refine ⟨_, memberTrees [("n1", .object [])], ⟨200, by decide, by decide, rfl⟩, ?_, ?_,
      by decide, names_single "n1" _⟩
    · exact document_toBytes ⟨trivial, trivial⟩ (by decide +kernel)
    · exact ⟨⟨⟨"n1", text_textLit "n1"⟩, ⟨trivial, rfl⟩, trivial⟩, rfl⟩
  refine ⟨htells, hnames, (hsome "n1").mpr ⟨7, by decide, htells, hnames, by decide⟩, requests,
    hlisting [], ?_⟩
  rw [hboth 7 (by decide) htells]
  decide +kernel

/-- The number of a literal that is out of range. -/
def hugeLit : NumberLit := ⟨false, ['1'], none, some ⟨false, "9999999999".toList⟩⟩

def hugeDocument : Bytes := toBytes "\x7b\"n1\":1e9999999999\x7d"

/-- A document with a number that is out of range names no node, although it is an object with one
key. -/
theorem out_of_range_not_named :
    let answers := [success heightDocument, success hugeDocument]
    TellsHeight (latestOf scripted "http://api" "p" answers).1.value 7 ∧
      (∃ members, Delivers (blockOf scripted "http://api" "p" answers 7).1.value hugeDocument ∧
        Document (Text.decodeBytes hugeDocument) (.object members .closed) ∧
        ∀ name, (∃ m ∈ members, m.1.text = .ok name) ↔ name = "n1") ∧
      ((headApi scripted "http://api").lookup "p" answers).1.value =
        .error (.headLookup "p" "error decoding response body") := by
  intro answers
  have htells := tellsHeight_scripted (success hugeDocument)
  have hwhole : Digits ['1'] := ⟨by decide, List.all_eq_true.mp (by decide)⟩
  have hpower : Digits "9999999999".toList := ⟨by decide, List.all_eq_true.mp (by decide)⟩
  have hnumber : TokenText "1e9999999999".toList (.number hugeLit) := by
    refine .number ⟨hwhole, ?_, [], 'e' :: [] ++ "9999999999".toList, .none, ?_, rfl⟩
    · rintro ds ⟨⟩
    · exact .some (.inl rfl) .none hpower
  have hglyphs : Text.decodeBytes hugeDocument = before ['\x7b'] (before (writeString "n1")
      (before [':'] (before "1e9999999999".toList (before ['\x7d'] [])))) := by
    decide +kernel
  have hdoc : Document (Text.decodeBytes hugeDocument)
      (.object [(textLit "n1", .number hugeLit)] .closed) := by
    refine ⟨⟨⟨rfl, trivial, trivial⟩, rfl⟩, ?_⟩
    rw [hglyphs]
    exact .token .openObject nofun (.token (text_string "n1") nofun (.token .colon nofun
      (.token hnumber (fun _ _ => endsNumber_mark (by simp)) (.token .closeObject nofun .nil))))
  have hnamed : nodeNamed scripted "http://api" "p" answers 7 =
      .error "error decoding response body" := by
    have hread : Json.decodeBytes readMap hugeDocument = .error .numberOutOfRange :=
      (hdoc.hasTree.decode_eq readMap).trans rfl
    change (documentOf readMap (.ok (success hugeDocument))).bind (namedNode 7) = _
    simp only [documentOf, success, hread]
    rfl
  refine ⟨htells, ⟨_, ⟨200, by decide, by decide, rfl⟩, hdoc, names_single "n1" _⟩, ?_⟩
  rw [lookup_value, tellsHeight_iff.mp htells, headFrom, if_neg (by decide), hnamed]
  rfl

end ChainAudit.Http
