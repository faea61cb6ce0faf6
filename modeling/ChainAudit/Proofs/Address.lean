import ChainAudit.Address
import ChainAudit.Proofs.Text

/-!
# What addresses of stores are made of

A path is the address of a store if it has the four or five segments of the grammar, and every other
path is rejected for the first rule that it breaks. URLs do not start with a slash, so they stay as
they are. The port of a URL is written as it is in the path, with the plus sign that may stand in
front of a number.
-/

namespace ChainAudit.Address

open ChainAudit.Text

/-- A text is a path: these segments, with a slash in front of each. -/
structure IsPath (address : String) (segs : List (List Char)) : Prop where
  nonempty : segs ≠ []
  plain : ∀ s ∈ segs, '/' ∉ s
  joined : address.toList = '/' :: ['/'].intercalate segs

/-- The segments that name a host, a port and a scheme, whatever these are. -/
inductive Layout : List (List Char) → (protocol host port scheme : List Char) → Prop
  | bare (protocol host port : List Char) :
      Layout [protocol, host, "tcp".toList, port] protocol host port "http".toList
  | full (protocol host port : List Char) {scheme : List Char}
      (hscheme : scheme = "http".toList ∨ scheme = "https".toList) :
      Layout [protocol, host, "tcp".toList, port, scheme] protocol host port scheme

/-- What the host of a protocol looks like in a URL. -/
inductive HostText : (protocol host written : List Char) → Prop
  | plain {protocol host : List Char} (hprotocol : protocol = "dns".toList ∨
      protocol = "dns4".toList ∨ protocol = "dns6".toList ∨ protocol = "ip4".toList) :
      HostText protocol host host
  | bracketed (host : List Char) : HostText "ip6".toList host ('[' :: host ++ [']'])

/-- A number of 16 bits, which may have a plus sign in front. -/
def IsPort (port : List Char) : Prop :=
  ∃ n < 65536, Numeral port n ∨ ∃ digits, port = '+' :: digits ∧ Numeral digits n

def urlOf (scheme host port : List Char) : String :=
  String.ofList (scheme ++ "://".toList ++ host ++ ':' :: port)

/-- What becomes of an address by the grammar of paths. Each error comes where the rules before its
own are kept. -/
inductive Normalized (address : String) : Except AddressError String → Prop
  | unchanged (hstart : address.toList.head? ≠ some '/') : Normalized address (.ok address)
  | emptySegment {segs} (hpath : IsPath address segs) (hempty : [] ∈ segs) :
      Normalized address (.error (.emptySegment address))
  | unrecognized {segs} (hpath : IsPath address segs) (hfull : [] ∉ segs)
      (hlayout : ∀ protocol host port scheme, ¬ Layout segs protocol host port scheme) :
      Normalized address (.error (.unrecognized address))
  | unsupportedProtocol {segs protocol host port scheme} (hpath : IsPath address segs)
      (hfull : [] ∉ segs) (hlayout : Layout segs protocol host port scheme)
      (hprotocol : ∀ written, ¬ HostText protocol host written) :
      Normalized address (.error (.unsupportedProtocol (String.ofList protocol) address))
  | invalidPort {segs protocol host port scheme written} (hpath : IsPath address segs)
      (hfull : [] ∉ segs) (hlayout : Layout segs protocol host port scheme)
      (hhost : HostText protocol host written) (hport : ¬ IsPort port) :
      Normalized address (.error (.invalidPort (String.ofList port) address))
  | url {segs protocol host port scheme written} (hpath : IsPath address segs)
      (hfull : [] ∉ segs) (hlayout : Layout segs protocol host port scheme)
      (hhost : HostText protocol host written) (hport : IsPort port) :
      Normalized address (.ok (urlOf scheme written port))

section Paths

variable {address url : String} {segs : List (List Char)}
variable {protocol host port scheme written : List Char}

theorem isPath_iff : IsPath address segs ↔
    ∃ rest, address.toList = '/' :: rest ∧ segments '/' rest = segs := by
  constructor
  · rintro ⟨hne, hplain, hjoined⟩
    exact ⟨_, hjoined, segments_eq_iff.mpr ⟨hne, hplain, rfl⟩⟩
  · rintro ⟨rest, haddress, hsegs⟩
    obtain ⟨hne, hplain, hjoined⟩ := segments_eq_iff.mp hsegs
    exact ⟨hne, hplain, by rw [haddress, hjoined]⟩

theorem exists_isPath (hstart : address.toList.head? = some '/') : ∃ segs, IsPath address segs := by
  obtain ⟨rest, haddress⟩ : ∃ rest, address.toList = '/' :: rest :=
    ⟨_, (List.eq_cons_of_mem_head? hstart)⟩
  exact ⟨_, isPath_iff.mpr ⟨rest, haddress, rfl⟩⟩

theorem normalize_unchanged (hstart : address.toList.head? ≠ some '/') :
    normalize address = .ok address := by
  unfold normalize
  split
  · rename_i rest haddress
    exact absurd (congrArg List.head? haddress) hstart
  · rfl

private theorem normalize_path (hpath : IsPath address segs) (hfull : [] ∉ segs) :
    normalize address =
      match Path.ofSegments? segs with
      | none => .error (.unrecognized address)
      | some path => path.toUrl address := by
  obtain ⟨rest, haddress, rfl⟩ := isPath_iff.mp hpath
  have hany : (segments '/' rest).any List.isEmpty = false := by
    rw [List.any_eq_false]
    intro s hs hempty
    exact hfull (List.isEmpty_iff.mp hempty ▸ hs)
  unfold normalize
  rw [haddress]
  apply if_neg
  simp [hany]

theorem normalize_empty (hpath : IsPath address segs) (hempty : [] ∈ segs) :
    normalize address = .error (.emptySegment address) := by
  obtain ⟨rest, haddress, rfl⟩ := isPath_iff.mp hpath
  have hany : (segments '/' rest).any List.isEmpty = true :=
    List.any_eq_true.mpr ⟨[], hempty, rfl⟩
  unfold normalize
  rw [haddress]
  simp only [hany, if_true]

theorem hostOf?_eq_some_iff :
    hostOf? protocol host = some written ↔ HostText protocol host written := by
  constructor
  · intro h
    unfold hostOf? at h
    split at h
    · rename_i hprotocol
      obtain rfl := Option.some.inj h
      exact .plain (by simpa using hprotocol)
    · split at h
      · rename_i hprotocol
        obtain rfl := Option.some.inj h
        rw [hprotocol]
        exact .bracketed host
      · cases h
  · intro h
    cases h with
    | plain hprotocol => rcases hprotocol with rfl | rfl | rfl | rfl <;> rfl
    | bracketed => rfl

theorem isPort_iff : IsPort port ↔ ∃ n, readNumber? bound16 port = some n := by
  simp only [readNumber?_eq_some_iff, IsPort, bound16]
  constructor
  · rintro ⟨n, hn, hport⟩
    exact ⟨n, hport, hn⟩
  · rintro ⟨n, hport, hn⟩
    exact ⟨n, hn, hport⟩

/-- With segments that are laid out right, the protocol decides, and then the port. -/
theorem normalize_layout (hpath : IsPath address segs) (hfull : [] ∉ segs)
    (hlayout : Layout segs protocol host port scheme) :
    normalize address =
      match hostOf? protocol host with
      | none => .error (.unsupportedProtocol (String.ofList protocol) address)
      | some written =>
          match readNumber? bound16 port with
          | none => .error (.invalidPort (String.ofList port) address)
          | some _ => .ok (urlOf scheme written port) := by
  rw [normalize_path hpath hfull]
  cases hlayout with
  | bare => rfl
  | full _ _ _ hscheme => rcases hscheme with rfl | rfl <;> rfl

private theorem layout_of_segments {path : Path} (hsegs : Path.ofSegments? segs = some path)
    (htransport : path.transport = "tcp".toList) (hscheme : isScheme path.scheme = true) :
    Layout segs path.protocol path.host path.port path.scheme := by
  unfold Path.ofSegments? at hsegs
  split at hsegs
  · obtain rfl := Option.some.inj hsegs
    obtain rfl := htransport
    exact .bare _ _ _
  · obtain rfl := Option.some.inj hsegs
    obtain rfl := htransport
    exact .full _ _ _ (by simpa [isScheme] using hscheme)
  · cases hsegs

theorem normalize_misshapen (hpath : IsPath address segs) (hfull : [] ∉ segs)
    (hlayout : ∀ protocol host port scheme, ¬ Layout segs protocol host port scheme) :
    normalize address = .error (.unrecognized address) := by
  rw [normalize_path hpath hfull]
  split
  · rfl
  · rename_i path hsegs
    unfold Path.toUrl
    by_cases htransport : path.transport = "tcp".toList
    · have hscheme : isScheme path.scheme = false := by
        rw [Bool.eq_false_iff]
        intro hscheme
        exact hlayout _ _ _ _ (layout_of_segments hsegs htransport hscheme)
      rw [if_neg (not_not_intro htransport), hscheme]
      rfl
    · rw [if_pos htransport]

theorem exists_normalized (address : String) : ∃ r, Normalized address r := by
  by_cases hstart : address.toList.head? = some '/'
  · obtain ⟨segs, hpath⟩ := exists_isPath hstart
    by_cases hempty : [] ∈ segs
    · exact ⟨_, .emptySegment hpath hempty⟩
    by_cases hlayout : ∃ protocol host port scheme, Layout segs protocol host port scheme
    · obtain ⟨protocol, host, port, scheme, hlayout⟩ := hlayout
      by_cases hhost : ∃ written, HostText protocol host written
      · obtain ⟨written, hhost⟩ := hhost
        by_cases hport : IsPort port
        · exact ⟨_, .url hpath hempty hlayout hhost hport⟩
        · exact ⟨_, .invalidPort hpath hempty hlayout hhost hport⟩
      · exact ⟨_, .unsupportedProtocol hpath hempty hlayout (not_exists.mp hhost)⟩
    · exact ⟨_, .unrecognized hpath hempty (by simpa using hlayout)⟩
  · exact ⟨_, .unchanged hstart⟩

theorem Normalized.normalize_eq {r : Except AddressError String} (h : Normalized address r) :
    normalize address = r := by
  cases h with
  | unchanged hstart => exact normalize_unchanged hstart
  | emptySegment hpath hempty => exact normalize_empty hpath hempty
  | unrecognized hpath hfull hlayout => exact normalize_misshapen hpath hfull hlayout
  | @unsupportedProtocol _ protocol host _ _ hpath hfull hlayout hprotocol =>
    have hnone : hostOf? protocol host = none := by
      apply Option.eq_none_iff_forall_ne_some.mpr
      intro written hsome
      exact hprotocol written (hostOf?_eq_some_iff.mp hsome)
    rw [normalize_layout hpath hfull hlayout, hnone]
  | @invalidPort _ _ _ port _ _ hpath hfull hlayout hhost hport =>
    have hnone : readNumber? bound16 port = none := by
      apply Option.eq_none_iff_forall_ne_some.mpr
      intro n hsome
      exact hport (isPort_iff.mpr ⟨n, hsome⟩)
    rw [normalize_layout hpath hfull hlayout, hostOf?_eq_some_iff.mpr hhost, hnone]
  | url hpath hfull hlayout hhost hport =>
    obtain ⟨n, hn⟩ := isPort_iff.mp hport
    rw [normalize_layout hpath hfull hlayout, hostOf?_eq_some_iff.mpr hhost, hn]

theorem normalize_urlOf (hlayout : Layout segs protocol host port scheme) :
    normalize (urlOf scheme written port) = .ok (urlOf scheme written port) := by
  apply normalize_unchanged
  cases hlayout with
  | bare => simp [urlOf]
  | full _ _ _ hscheme => rcases hscheme with rfl | rfl <;> simp [urlOf]

theorem colon_not_mem_port (hport : IsPort port) : ':' ∉ port := by
  have hdigits : ∀ {ds n}, Numeral ds n → ':' ∉ ds := by
    intro ds n h hmem
    exact absurd (h.digits ':' hmem) (by decide)
  obtain ⟨n, -, h | ⟨digits, rfl, h⟩⟩ := hport
  · exact hdigits h
  · simpa using hdigits h

theorem numeral_iff_of_isPort (hport : IsPort port) :
    (∃ n ≤ 65535, Numeral port n) ↔ port.head? ≠ some '+' := by
  constructor
  · rintro ⟨n, -, h⟩ hplus
    exact absurd (h.digits '+' (List.mem_of_mem_head? hplus)) (by decide)
  · intro hplus
    obtain ⟨n, hn, h | ⟨digits, rfl, -⟩⟩ := hport
    · exact ⟨n, Nat.le_of_lt_succ hn, h⟩
    · exact absurd rfl hplus

end Paths

/-- What becomes of an address is what the grammar of paths says, and a URL that came out of it stays
as it is. -/
theorem normalize_follows_grammar (address : String) :
    (∀ r, normalize address = r ↔ Normalized address r) ∧
      (normalize address >>= normalize) = normalize address := by
  obtain ⟨r, h⟩ := exists_normalized address
  refine ⟨fun r' => ⟨?_, Normalized.normalize_eq⟩, ?_⟩
  · rintro rfl
    rw [h.normalize_eq]
    exact h
  · rw [h.normalize_eq]
    cases h with
    | unchanged hstart => exact normalize_unchanged hstart
    | url _ _ hlayout => exact normalize_urlOf hlayout
    | emptySegment | unrecognized | unsupportedProtocol | invalidPort => rfl

/-- The URL of a path ends with the fourth segment of the path behind its last colon. That is a port,
and without a plus sign in front it is decimal digits that denote a number of 16 bits. -/
theorem port_of_path {address url : String} (hstart : address.toList.head? = some '/')
    (hok : normalize address = .ok url) :
    ∃ segs before port, IsPath address segs ∧ segs[3]? = some port ∧
      url.toList = before ++ ':' :: port ∧ ':' ∉ port ∧ IsPort port ∧
      ((∃ n ≤ 65535, Numeral port n) ↔ port.head? ≠ some '+') := by
  obtain ⟨r, h⟩ := exists_normalized address
  obtain rfl := h.normalize_eq.symm.trans hok
  cases h with
  | unchanged hother => exact absurd hstart hother
  | @url segs _ _ port scheme written hpath _ hlayout _ hport =>
    refine ⟨segs, scheme ++ "://".toList ++ written, port, hpath, ?_, ?_,
      colon_not_mem_port hport, hport, numeral_iff_of_isPort hport⟩
    · cases hlayout with
      | bare => rfl
      | full => rfl
    · simp [urlOf]

theorem port_of_path_leadingZero :
    normalize "/ip6/::1/tcp/08080/https" = .ok "https://[::1]:08080" ∧
      ∃ segs before port, IsPath "/ip6/::1/tcp/08080/https" segs ∧ segs[3]? = some port ∧
        "https://[::1]:08080".toList = before ++ ':' :: port ∧ ':' ∉ port ∧ IsPort port ∧
        ((∃ n ≤ 65535, Numeral port n) ↔ port.head? ≠ some '+') := by
  have hok : normalize "/ip6/::1/tcp/08080/https" = .ok "https://[::1]:08080" := by decide +kernel
  exact ⟨hok, port_of_path (by decide +kernel) hok⟩

/-- A plus sign in front of the port of a path gets into the URL. -/
theorem plus_in_port :
    normalize "/dns/ipfs/tcp/+5001" = .ok "http://ipfs:+5001" ∧
      "http://ipfs:+5001".toList = "http://ipfs".toList ++ ':' :: "+5001".toList ∧
      ':' ∉ "+5001".toList ∧ ¬ ∃ n ≤ 65535, Numeral "+5001".toList n := by
  refine ⟨by decide +kernel, by decide +kernel, by decide +kernel, ?_⟩
  rintro ⟨n, -, h⟩
  exact absurd (h.digits '+' (by decide)) (by decide)

end ChainAudit.Address
