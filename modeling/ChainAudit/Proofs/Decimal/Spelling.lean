import ChainAudit.Decimal.Reading
import ChainAudit.Proofs.Text

/-!
# Which texts denote doubles

A double is read from the words for infinity and for no number, in letters of either case, and from
digits with a point among, before or after them and with a power of ten; a sign may stand in front
of each. There is no other text that it is read from.
-/

namespace ChainAudit.Decimal

open ChainAudit.Text

inductive Sign : List Char → Prop
  | none : Sign []
  | plus : Sign ['+']
  | minus : Sign ['-']

/-- A text of a kind, and a sign in front of it where one likes. -/
def Signed (P : List Char → Prop) (cs : List Char) : Prop :=
  ∃ sign rest, Sign sign ∧ P rest ∧ cs = sign ++ rest

/-- A text that denotes some number. -/
def WholeText (ds : List Char) : Prop := ∃ n, Numeral ds n

/-- A power of ten, or none. -/
inductive Power : List Char → Prop
  | none : Power []
  | some {e : Char} {ps : List Char} (he : e = 'e' ∨ e = 'E') (hps : Signed WholeText ps) :
      Power (e :: ps)

/-- One or more digits, with a point where one likes. -/
inductive Mantissa : List Char → Prop
  | whole {ds : List Char} (hds : WholeText ds) : Mantissa ds
  | pointed {ws fs : List Char} (hds : WholeText (ws ++ fs)) : Mantissa (ws ++ '.' :: fs)

/-- A double without a sign. -/
inductive Magnitude : List Char → Prop
  | word {cs : List Char}
      (hcs : cs.map lowerAscii ∈ ["inf".toList, "infinity".toList, "nan".toList]) : Magnitude cs
  | decimal {ms ps : List Char} (hms : Mantissa ms) (hps : Power ps) : Magnitude (ms ++ ps)

/-- The texts that denote doubles. -/
def DoubleText (cs : List Char) : Prop := Signed Magnitude cs

section Letters

variable {c d : Char} {cs ds : List Char} {n : Nat}

private theorem toNat_lowerAscii (hc : 'A' ≤ c ∧ c ≤ 'Z') :
    (lowerAscii c).toNat = c.toNat + 32 := by
  have hle : c.toNat ≤ 90 := hc.2
  have hvalid : (c.toNat + 32).isValidChar := .inl (by omega)
  rw [lowerAscii, if_pos hc, Char.ofNat, dif_pos hvalid]
  rfl

private theorem lowerAscii_eq_iff (hd : d < 'A') : lowerAscii c = d ↔ c = d := by
  have hlow : d.toNat < 65 := hd
  by_cases hc : 'A' ≤ c ∧ c ≤ 'Z'
  · have hletter : (lowerAscii c).toNat = c.toNat + 32 := toNat_lowerAscii hc
    have hle : 65 ≤ c.toNat := hc.1
    constructor
    · rintro rfl
      omega
    · rintro rfl
      omega
  · rw [lowerAscii, if_neg hc]

private theorem lowerAscii_eq_e_iff : lowerAscii c = 'e' ↔ c = 'e' ∨ c = 'E' := by
  by_cases hc : 'A' ≤ c ∧ c ≤ 'Z'
  · have hletter : (lowerAscii c).toNat = c.toNat + 32 := toNat_lowerAscii hc
    have hle : c.toNat ≤ 90 := hc.2
    have he : 'e'.toNat = 101 ∧ 'E'.toNat = 69 := ⟨rfl, rfl⟩
    rw [← Char.toNat_inj, ← Char.toNat_inj, ← Char.toNat_inj]
    omega
  · rw [lowerAscii, if_neg hc]
    refine ⟨.inl, ?_⟩
    rintro (rfl | rfl)
    · rfl
    · exact absurd (by decide) hc

private theorem map_lowerAscii_eq_iff (hds : ∀ d ∈ ds, d < 'A') :
    cs.map lowerAscii = ds ↔ cs = ds := by
  induction ds generalizing cs with
  | nil => simp
  | cons d ds ih =>
    obtain ⟨hd, hds⟩ := List.forall_mem_cons.mp hds
    cases cs with
    | nil => simp
    | cons c cs => simp [lowerAscii_eq_iff hd, ih hds]

end Letters

section Digits

variable {c : Char} {cs ds : List Char}

private theorem isNumeral_iff : isNumeral ds = true ↔ WholeText ds := by
  rw [isNumeral_eq_true_iff]
  exact ⟨fun ⟨hne, hds⟩ => ⟨_, hne, hds, rfl⟩, fun ⟨_, h⟩ => ⟨h.nonempty, h.digits⟩⟩

private theorem WholeText.isDigit (h : WholeText ds) (hc : c ∈ ds) : c.isDigit = true :=
  (isNumeral_eq_true_iff.mp (isNumeral_iff.mpr h)).2 c hc

private theorem lt_of_isDigit (hc : c.isDigit = true) : c < 'A' := by
  have hle : c.toNat ≤ 57 := by
    simpa [Char.isDigit, UInt32.le_iff_toNat_le] using (Bool.and_eq_true_iff.mp hc).2
  exact Nat.lt_of_le_of_lt hle (by decide)

private theorem Mantissa.mem (h : Mantissa cs) (hc : c ∈ cs) : c.isDigit = true ∨ c = '.' := by
  cases h with
  | whole hds => exact .inl (hds.isDigit hc)
  | pointed hds =>
    rcases List.mem_append.mp hc with hc | hc
    · exact .inl (hds.isDigit (List.mem_append_left _ hc))
    · rcases List.mem_cons.mp hc with rfl | hc
      · exact .inr rfl
      · exact .inl (hds.isDigit (List.mem_append_right _ hc))

private theorem Mantissa.lt (h : Mantissa cs) : ∀ c ∈ cs, c < 'A' := by
  intro c hc
  rcases h.mem hc with hdigit | rfl
  · exact lt_of_isDigit hdigit
  · decide

private theorem mantissa_iff : Mantissa cs ↔
    isNumeral (match cutAt? ['.'] cs with
      | some (w, f) => w ++ f
      | none => cs) = true := by
  have hpoint : ∀ {ds}, WholeText ds → '.' ∉ ds := fun hds hc => absurd (hds.isDigit hc) (by decide)
  rw [isNumeral_iff]
  cases hcut : cutAt? ['.'] cs with
  | none =>
    have hnone : '.' ∉ cs := cutAt?_eq_none_iff.mp hcut
    constructor
    · rintro (hds | -)
      · exact hds
      · simp at hnone
    · exact .whole
  | some parts =>
    obtain ⟨w, f⟩ := parts
    obtain ⟨hcs, -⟩ := cutAt?_eq_some_iff.mp hcut
    constructor
    · rintro (hds | @⟨ws, fs, hds⟩)
      · exact absurd (hcs ▸ List.mem_append_right w List.mem_cons_self) (hpoint hds)
      · have hws : '.' ∉ ws := fun h => hpoint hds (List.mem_append_left fs h)
        obtain ⟨rfl, rfl⟩ : ws = w ∧ fs = f := by simpa [cutAt?_append hws] using hcut
        exact hds
    · rintro hds
      exact hcs ▸ .pointed hds

end Digits

section Signs

variable {cs : List Char} {P : List Char → Prop}

/-- Whether a text has a minus sign in front, and the text without its sign. -/
private def signOf (cs : List Char) : Bool × List Char :=
  match cs with
  | '-' :: rest => (true, rest)
  | '+' :: rest => (false, rest)
  | other => (false, other)

private theorem signed_iff (hP : ∀ rest, P rest → rest.head? ≠ some '-' ∧ rest.head? ≠ some '+') :
    Signed P cs ↔ P (signOf cs).2 := by
  constructor
  · rintro ⟨sign, rest, hsign, hrest, rfl⟩
    cases hsign with
    | none =>
      obtain ⟨hminus, hplus⟩ := hP rest hrest
      have hplain : signOf rest = (false, rest) := by
        unfold signOf
        split <;> simp_all
      rwa [List.nil_append, hplain]
    | plus => exact hrest
    | minus => exact hrest
  · intro h
    unfold signOf at h
    split at h
    · exact ⟨_, _, .minus, h, rfl⟩
    · exact ⟨_, _, .plus, h, rfl⟩
    · exact ⟨[], _, .none, h, rfl⟩

private theorem WholeText.head? (h : WholeText cs) : cs.head? ≠ some '-' ∧ cs.head? ≠ some '+' := by
  constructor
  · exact fun hsign => absurd (h.isDigit (List.mem_of_mem_head? hsign)) (by decide)
  · exact fun hsign => absurd (h.isDigit (List.mem_of_mem_head? hsign)) (by decide)

private theorem Signed.lt (h : Signed WholeText cs) : ∀ c ∈ cs, c < 'A' := by
  obtain ⟨sign, ds, hsign, hds, rfl⟩ := h
  intro c hc
  rcases List.mem_append.mp hc with hc | hc
  · cases hsign <;> simp at hc <;> subst hc <;> decide
  · exact lt_of_isDigit (hds.isDigit hc)

private theorem readPower?_isSome_iff : (readPower? cs).isSome = true ↔ Signed WholeText cs := by
  have hread : readPower? cs =
      if isNumeral (signOf cs).2 then
        let n : Int := numberOfDigits (signOf cs).2
        some (if (signOf cs).1 then -n else n)
      else none := rfl
  rw [signed_iff fun _ => WholeText.head?, ← isNumeral_iff, hread]
  simp

end Signs

section Doubles

variable {cs ms ps : List Char}

private theorem e_not_mem (hcs : ∀ c ∈ cs, c < 'A') : 'e' ∉ cs :=
  fun h => absurd (hcs 'e' h) (by decide)

private theorem readMagnitude?_cut : (readMagnitude? cs).isSome = true ↔
    match cutAt? ['e'] (cs.map lowerAscii) with
    | some (ms, ps) => Mantissa ms ∧ (readPower? ps).isSome = true
    | none => Mantissa cs := by
  simp only [mantissa_iff]
  unfold readMagnitude?
  cases cutAt? ['e'] (cs.map lowerAscii) with
  | none =>
    dsimp only
    cases cutAt? ['.'] cs <;> simp
  | some parts =>
    dsimp only
    cases cutAt? ['.'] parts.1 <;> cases readPower? parts.2 <;> simp

private theorem readMagnitude?_isSome_iff : (readMagnitude? cs).isSome = true ↔
    ∃ ms ps, Mantissa ms ∧ Power ps ∧ cs = ms ++ ps := by
  rw [readMagnitude?_cut]
  constructor
  · intro h
    split at h
    · rename_i ms' ps' hcut
      obtain ⟨hmantissa, hpower⟩ := h
      obtain ⟨hparts, -⟩ := cutAt?_eq_some_iff.mp hcut
      obtain ⟨ms, rest, rfl, hms, hrest⟩ := List.map_eq_append_iff.mp hparts
      obtain ⟨e, ps, rfl, he, hps⟩ := List.map_eq_cons_iff.mp hrest
      have hsigned := readPower?_isSome_iff.mp hpower
      obtain rfl := (map_lowerAscii_eq_iff hmantissa.lt).mp hms
      obtain rfl := (map_lowerAscii_eq_iff hsigned.lt).mp hps
      exact ⟨_, _, hmantissa, .some (lowerAscii_eq_e_iff.mp he) hsigned, rfl⟩
    · exact ⟨cs, [], h, .none, (List.append_nil cs).symm⟩
  · rintro ⟨ms, ps, hms, hps, rfl⟩
    rw [List.map_append, (map_lowerAscii_eq_iff hms.lt).mpr rfl]
    cases hps with
    | none => simpa [cutAt?_eq_none_iff.mpr (e_not_mem hms.lt)] using hms
    | some he hsigned =>
      rw [List.map_cons, lowerAscii_eq_e_iff.mpr he, (map_lowerAscii_eq_iff hsigned.lt).mpr rfl,
        cutAt?_append (e_not_mem hms.lt)]
      exact ⟨hms, readPower?_isSome_iff.mpr hsigned⟩

private theorem Magnitude.head? (h : Magnitude cs) :
    cs.head? ≠ some '-' ∧ cs.head? ≠ some '+' := by
  cases h with
  | word hcs =>
    rcases cs with _ | ⟨c, cs⟩
    · simp
    · constructor
      · rintro ⟨⟩
        simp [lowerAscii] at hcs
      · rintro ⟨⟩
        simp [lowerAscii] at hcs
  | @decimal ms ps hms hps =>
    have hne : ms ≠ [] := by
      rintro rfl
      exact absurd (mantissa_iff.mp hms) (by decide)
    rw [List.head?_append_of_ne_nil _ hne]
    constructor
    · exact fun hsign => absurd (hms.mem (List.mem_of_mem_head? hsign)) (by decide)
    · exact fun hsign => absurd (hms.mem (List.mem_of_mem_head? hsign)) (by decide)

/-- The double that a text without a sign denotes. -/
private def unsigned? (cs : List Char) : Option Float :=
  if cs.map lowerAscii = "inf".toList ∨ cs.map lowerAscii = "infinity".toList then some (1.0 / 0.0)
  else if cs.map lowerAscii = "nan".toList then some (0.0 / 0.0)
  else readMagnitude? cs

private theorem unsigned?_isSome_iff : (unsigned? cs).isSome = true ↔ Magnitude cs := by
  have hwords : Magnitude cs ↔ (cs.map lowerAscii = "inf".toList ∨
      cs.map lowerAscii = "infinity".toList) ∨ cs.map lowerAscii = "nan".toList ∨
      (readMagnitude? cs).isSome = true := by
    rw [readMagnitude?_isSome_iff]
    constructor
    · rintro (hword | ⟨hms, hps⟩)
      · simp only [List.mem_cons, List.not_mem_nil, or_false] at hword
        exact (or_assoc.mpr hword).imp_right .inl
      · exact .inr (.inr ⟨_, _, hms, hps, rfl⟩)
    · rintro ((hword | hword) | hword | ⟨ms, ps, hms, hps, rfl⟩)
      · exact .word (by simp [hword])
      · exact .word (by simp [hword])
      · exact .word (by simp [hword])
      · exact .decimal hms hps
  rw [hwords, unsigned?]
  split
  · rename_i hword
    exact iff_of_true rfl (.inl hword)
  · rename_i hinfinity
    split
    · rename_i hword
      exact iff_of_true rfl (.inr (.inl hword))
    · rename_i hnan
      rw [or_iff_right hinfinity, or_iff_right hnan]

theorem readFloat?_isSome_iff : (readFloat? cs).isSome = true ↔ DoubleText cs := by
  have hread : readFloat? cs =
      (unsigned? (signOf cs).2).map fun x => if (signOf cs).1 then -x else x := rfl
  rw [hread, Option.isSome_map, unsigned?_isSome_iff, DoubleText,
    signed_iff fun _ => Magnitude.head?]

end Doubles

end ChainAudit.Decimal
