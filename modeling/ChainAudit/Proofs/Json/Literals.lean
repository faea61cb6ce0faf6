import ChainAudit.Json.Literal
import ChainAudit.Json.Value
import Mathlib.Tactic.IntervalCases

/-!
# Literals that are written are read back

A whole number of 64 bits is written without point and power, so its literal denotes it exactly. A
string is written character by character, each of them as itself, behind a backslash, or as a unit;
its literal is closed and denotes the string, whatever characters are in it.
-/

namespace ChainAudit.Json

open ChainAudit.Text

section Glyphs

/-- Characters in front of a text. -/
def before : List Char → List Glyph → List Glyph
  | [], rest => rest
  | c :: cs, rest => .char c :: before cs rest

variable (cs ds : List Char) (rest : List Glyph)

@[simp]
theorem before_nil : before [] rest = rest := rfl

@[simp]
theorem before_cons (c : Char) : before (c :: cs) rest = .char c :: before cs rest := rfl

@[simp]
theorem before_append : before (cs ++ ds) rest = before cs (before ds rest) := by
  induction cs with
  | nil => rfl
  | cons c cs ih => rw [List.cons_append, before_cons, ih, before_cons]

theorem length_before : (before cs rest).length = cs.length + rest.length := by
  induction cs with
  | nil => simp
  | cons c cs ih =>
    rw [before_cons, List.length_cons, List.length_cons, ih]
    omega

theorem glyphs_eq_before (s : String) : glyphs s = before s.toList [] := by
  unfold glyphs
  induction s.toList with
  | nil => rfl
  | cons c cs ih => rw [List.map_cons, ih, before_cons]

end Glyphs

section Digits

private theorem digitChar_spec :
    ∀ d < 10, isDigit d.digitChar = true ∧ digitValue? d.digitChar = some d := by decide

private theorem digitChar_ne_zero : ∀ d < 10, 0 < d → d.digitChar ≠ '0' := by decide

theorem writeNumber_step (n : Nat) :
    writeNumber n =
      if n < 10 then [n.digitChar] else writeNumber (n / 10) ++ [(n % 10).digitChar] :=
  Nat.toDigits_eq_if (by decide)

theorem writeNumber_ne_nil (n : Nat) : writeNumber n ≠ [] := Nat.toDigits_ne_nil

theorem isDigit_writeNumber (n : Nat) : ∀ c ∈ writeNumber n, isDigit c = true := by
  induction n using Nat.strongRecOn with
  | ind n ih =>
    intro c hc
    rw [writeNumber_step] at hc
    split at hc
    · rename_i hsmall
      rw [List.mem_singleton.mp hc]
      exact (digitChar_spec n hsmall).1
    · rcases List.mem_append.mp hc with hc | hc
      · exact ih (n / 10) (by omega) c hc
      · rw [List.mem_singleton.mp hc]
        exact (digitChar_spec _ (Nat.mod_lt n (by decide))).1

theorem writeNumber_head {n : Nat} (hn : 0 < n) : (writeNumber n).head? ≠ some '0' := by
  induction n using Nat.strongRecOn with
  | ind n ih =>
    rw [writeNumber_step]
    split
    · rename_i hsmall
      simpa using digitChar_ne_zero n hsmall hn
    · have hrest := ih (n / 10) (by omega) (by omega)
      rw [List.head?_append]
      cases hhead : (writeNumber (n / 10)).head? with
      | none => exact absurd (List.head?_eq_none_iff.mp hhead) (writeNumber_ne_nil _)
      | some d => simpa [hhead] using hrest

private theorem appendDigits_snoc {s m : Nat} {ds : List Char} (hds : appendDigits s ds = (m, 0))
    {d : Nat} (hd : d < 10) (hm : m * 10 + d < bound64) :
    appendDigits s (ds ++ [d.digitChar]) = (m * 10 + d, 0) := by
  induction ds generalizing s with
  | nil =>
    obtain rfl : s = m := congrArg Prod.fst hds
    simp only [List.nil_append, appendDigits, (digitChar_spec d hd).2, Option.getD_some]
    rw [if_pos hm]
  | cons c ds ih =>
    simp only [appendDigits] at hds
    simp only [List.cons_append, appendDigits]
    split at hds
    · rename_i hin
      rw [if_pos hin]
      exact ih hds
    · cases hds

theorem appendDigits_writeNumber {n : Nat} (hn : n < bound64) :
    appendDigits 0 (writeNumber n) = (n, 0) := by
  induction n using Nat.strongRecOn with
  | ind n ih =>
    rw [writeNumber_step]
    split
    · rename_i hsmall
      have hone : 0 * 10 + n < bound64 := by omega
      have hdigit : appendDigits 0 ([] ++ [n.digitChar]) = (0 * 10 + n, 0) :=
        appendDigits_snoc rfl hsmall hone
      simpa using hdigit
    · have hmany : n / 10 * 10 + n % 10 < bound64 := by omega
      have hwhole : n / 10 * 10 + n % 10 = n := by omega
      rw [appendDigits_snoc (ih (n / 10) (by omega) (by omega)) (Nat.mod_lt n (by decide)) hmany,
        hwhole]

end Digits

section Numbers

def wholeLit : Int → NumberLit
  | .ofNat n => ⟨false, writeNumber n, none, none⟩
  | .negSucc n => ⟨true, writeNumber (n + 1), none, none⟩

/-- The whole numbers of 64 bits, negative or not. -/
def Fits64 (i : Int) : Prop := -(2 ^ 63) ≤ i ∧ i < 2 ^ 64

theorem number_wholeLit {i : Int} (hi : Fits64 i) : (wholeLit i).number = .ok (.whole i) := by
  obtain ⟨hlow, hhigh⟩ := hi
  cases i with
  | ofNat n =>
    have hn : n < bound64 := by
      have hwhole : (n : Int) < 2 ^ 64 := hhigh
      unfold bound64
      omega
    simp [wholeLit, NumberLit.number, appendDigits_writeNumber hn]
  | negSucc n =>
    have hle : n + 1 ≤ 2 ^ 63 := by omega
    have hn : n + 1 < bound64 := by
      unfold bound64
      omega
    have hneg : -((n + 1 : Nat) : Int) = Int.negSucc n := rfl
    simp only [wholeLit, NumberLit.number, appendDigits_writeNumber hn]
    rw [if_neg (by simp), if_pos ⟨trivial, Nat.succ_ne_zero n, hle⟩, hneg]

/-- What may follow a number: nothing that would continue it. -/
def EndsNumber (rest : List Glyph) : Prop :=
  ∀ c after, rest = .char c :: after → isDigit c = false ∧ c ≠ '.' ∧ c ≠ 'e' ∧ c ≠ 'E'

end Numbers

section Strings

/-- The piece of a literal that a character is written as. -/
def pieceOf (c : Char) : Piece :=
  match writeChar c with
  | [_] => .glyph (.char c)
  | [_, _] => .escaped c
  | _ => .unit c.toNat

def textLit (s : String) : StringLit := ⟨s.toList.map pieceOf, .closed⟩

/-- The ways to write a character, and the pieces they are. -/
inductive WrittenAs (c : Char) : List Char → Piece → Prop
  | itself (hcontrol : isControl c = false) (hquote : c ≠ '\"') (hslash : c ≠ '\\') :
      WrittenAs c [c] (.glyph (.char c))
  | escaped {e : Char} (he : e ≠ 'u') (hchar : escapedChar? e = some c) :
      WrittenAs c ['\\', e] (.escaped c)
  | unit {w x y z : Char} (hsmall : c.toNat < 0x20)
      (hunit : unitOf? (.char w) (.char x) (.char y) (.char z) = some c.toNat) :
      WrittenAs c ['\\', 'u', w, x, y, z] (.unit c.toNat)

private theorem fourHex_control : ∀ n < 0x20, ∃ w x y z, fourHex n = [w, x, y, z] ∧
    unitOf? (.char w) (.char x) (.char y) (.char z) = some n := by
  intro n hn
  interval_cases n <;> exact ⟨_, _, _, _, rfl, by decide⟩

theorem writtenAs (c : Char) : WrittenAs c (writeChar c) (pieceOf c) := by
  unfold pieceOf writeChar
  split
  · exact .escaped (by decide) (by decide)
  · exact .escaped (by decide) (by decide)
  · exact .escaped (by decide) (by decide)
  · exact .escaped (by decide) (by decide)
  · exact .escaped (by decide) (by decide)
  · exact .escaped (by decide) (by decide)
  · exact .escaped (by decide) (by decide)
  · rename_i hquote hslash _ _ _ _ _
    split
    · rename_i hcontrol
      have hsmall : c.toNat < 0x20 := by simpa [isControl] using hcontrol
      obtain ⟨w, x, y, z, hfour, hunit⟩ := fourHex_control c.toNat hsmall
      rw [hfour]
      exact .unit hsmall hunit
    · rename_i hcontrol
      exact .itself (by simpa using hcontrol) hquote hslash

private theorem chars_unit {n : Nat} (hn : n < 0xD800) (ending : StringEnd) (rest : List Piece) :
    chars ending (.unit n :: rest) = (chars ending rest).map (Char.ofNat n :: ·) := by
  have hleading : isLeading n = false := by simp [isLeading]; omega
  have htrailing : isTrailing n = false := by simp [isTrailing]; omega
  match rest with
  | [] => simp [chars, hleading, htrailing]
  | .unit m :: rest => simp [chars, hleading, htrailing]
  | .glyph g :: rest => simp [chars, hleading, htrailing]
  | .escaped c :: rest => simp [chars, hleading, htrailing]

theorem chars_map_pieceOf (cs : List Char) : chars .closed (cs.map pieceOf) = .ok cs := by
  induction cs with
  | nil => rfl
  | cons c cs ih =>
    rw [List.map_cons]
    have hwritten := writtenAs c
    revert hwritten
    generalize writeChar c = written
    generalize pieceOf c = p
    intro hwritten
    cases hwritten with
    | itself _ _ _ => simp [chars, ih, Except.map]
    | escaped _ _ => simp [chars, ih, Except.map]
    | unit hsmall _ =>
      rw [chars_unit (by omega), ih]
      simp [Except.map]

theorem text_textLit (s : String) : (textLit s).text = .ok s := by
  simp [textLit, StringLit.text, chars_map_pieceOf, Except.map]

end Strings

end ChainAudit.Json
