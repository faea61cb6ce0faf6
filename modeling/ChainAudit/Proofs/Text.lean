import ChainAudit.Text.Blank
import ChainAudit.Text.Numeral
import ChainAudit.Text.Segments
import Mathlib.Data.List.Basic
import Mathlib.Data.List.Infix
import Mathlib.Data.List.TakeWhile

/-!
# Cutting, trimming and reading of texts

A text is cut into the one list of segments without separators that gives it back when it is put
together, or in front of and behind the first mark in it. Trimming takes away the blanks at both
ends and nothing else, and a number is read from the numerals that denote it.
-/

namespace ChainAudit.Text

section Segments

variable {sep : Char} {cs : List Char} {segs : List (List Char)}

private theorem segments_eq_splitOn (sep : Char) (cs : List Char) :
    segments sep cs = cs.splitOn sep := by
  induction cs with
  | nil => rfl
  | cons c cs ih =>
    rw [segments, List.splitOn_cons_eq_if_modifyHead, ← ih]
    by_cases hc : c = sep
    · simp [hc]
    · cases hsegs : segments sep cs with
      | nil => exact absurd (ih ▸ hsegs) (List.splitOn_ne_nil sep cs)
      | cons s ss => simp [hc]

private theorem not_mem_of_mem_segments {s : List Char} (hs : s ∈ segments sep cs) : sep ∉ s := by
  induction cs generalizing s with
  | nil => simp_all [segments]
  | cons c cs ih =>
    rw [segments] at hs
    by_cases hc : c = sep
    · rw [if_pos hc] at hs
      rcases List.mem_cons.mp hs with rfl | hs
      · exact List.not_mem_nil
      · exact ih hs
    · rw [if_neg hc] at hs
      split at hs
      · simp_all [Ne.symm hc]
      · rename_i s' ss hsegs
        rcases List.mem_cons.mp hs with rfl | hs
        · have hs' : sep ∉ s' := ih (by simp [hsegs])
          simp [hs', Ne.symm hc]
        · exact ih (by simp [hsegs, hs])

/-- The segments of a text are without separators, and the text is the separators between them. -/
theorem segments_eq_iff :
    segments sep cs = segs ↔
      segs ≠ [] ∧ (∀ s ∈ segs, sep ∉ s) ∧ [sep].intercalate segs = cs := by
  constructor
  · rintro rfl
    refine ⟨?_, fun s hs => not_mem_of_mem_segments hs, ?_⟩
    · rw [segments_eq_splitOn]
      exact List.splitOn_ne_nil sep cs
    · rw [segments_eq_splitOn]
      exact List.intercalate_splitOn sep
  · rintro ⟨hne, hplain, rfl⟩
    rw [segments_eq_splitOn]
    exact List.splitOn_intercalate sep hplain hne

theorem joinWith_eq_intercalate (sep : List Char) (segs : List (List Char)) :
    joinWith sep segs = sep.intercalate segs := by
  induction segs with
  | nil => rfl
  | cons s segs ih =>
    cases segs with
    | nil => simp [joinWith]
    | cons s' segs => simp [joinWith, ih]

end Segments

section Marks

variable {mark : List Char} {c : Char} {cs before after rest : List Char}

theorem stripStart?_eq_some_iff : stripStart? mark cs = some rest ↔ cs = mark ++ rest := by
  induction mark generalizing cs with
  | nil => simp [stripStart?, eq_comm]
  | cons m mark ih =>
    cases cs with
    | nil => simp [stripStart?]
    | cons c cs =>
      rw [stripStart?, List.cons_append, List.cons.injEq, ← ih]
      by_cases hc : m = c
      · simp [hc]
      · simp [hc, Ne.symm hc]

theorem stripStart?_eq_none_iff : stripStart? mark cs = none ↔ ¬ mark <+: cs := by
  rw [Option.eq_none_iff_forall_ne_some, List.IsPrefix, not_exists]
  exact forall_congr' fun rest => not_congr (stripStart?_eq_some_iff.trans eq_comm)

theorem cutAt?_mark_eq_none_iff (hmark : mark ≠ []) :
    cutAt? mark cs = none ↔ ¬ mark <:+: cs := by
  induction cs with
  | nil => simp [cutAt?, stripStart?_eq_none_iff, hmark]
  | cons c cs ih =>
    rw [cutAt?, List.infix_cons_iff, not_or, ← ih, ← stripStart?_eq_none_iff]
    cases stripStart? mark (c :: cs) <;> simp

/-- A mark at the start of a text is over before the next one is. -/
private theorem infix_of_starts (h : mark <+: c :: before ++ mark ++ after) :
    mark <:+: c :: before ++ mark.dropLast := by
  have hshort : c :: before ++ mark.dropLast <+: c :: before ++ mark ++ after :=
    ((List.prefix_append_right_inj _).mpr (List.dropLast_prefix mark)).trans
      (List.prefix_append _ _)
  refine (List.prefix_of_prefix_length_le h hshort ?_).isInfix
  simp only [List.length_append, List.length_cons, List.length_dropLast]
  omega

/-- A text is cut at a mark if no other one is over before the last character of this one. -/
theorem cutAt?_mark_append (hbefore : ¬ mark <:+: before ++ mark.dropLast)
    (after : List Char) : cutAt? mark (before ++ mark ++ after) = some (before, after) := by
  induction before with
  | nil =>
    have hstrip : stripStart? mark (mark ++ after) = some after := stripStart?_eq_some_iff.mpr rfl
    cases mark with
    | nil => exact absurd List.nil_infix hbefore
    | cons m mark =>
      rw [List.nil_append, List.cons_append, cutAt?, ← List.cons_append, hstrip]
  | cons c before ih =>
    have hstrip : stripStart? mark (c :: before ++ mark ++ after) = none :=
      stripStart?_eq_none_iff.mpr fun h => hbefore (infix_of_starts h)
    have hrest : ¬ mark <:+: before ++ mark.dropLast :=
      fun h => hbefore (List.infix_cons_iff.mpr (.inr h))
    simp only [List.cons_append] at hstrip ⊢
    rw [cutAt?, hstrip, ih hrest]
    rfl

/-- A text is cut in front of and behind the first mark in it. -/
theorem cutAt?_mark_eq_some_iff (hmark : mark ≠ []) :
    cutAt? mark cs = some (before, after) ↔
      cs = before ++ mark ++ after ∧ ¬ mark <:+: before ++ mark.dropLast := by
  constructor
  · intro h
    induction cs generalizing before with
    | nil => simp [cutAt?, stripStart?_eq_none_iff.mpr (mt List.prefix_nil.mp hmark)] at h
    | cons c cs ih =>
      rw [cutAt?] at h
      split at h
      · rename_i rest hstrip
        obtain ⟨rfl, rfl⟩ : [] = before ∧ rest = after := by simpa using h
        refine ⟨stripStart?_eq_some_iff.mp hstrip, fun hin => ?_⟩
        have hle := hin.length_le
        have hpos := List.length_pos_of_ne_nil hmark
        simp only [List.nil_append, List.length_dropLast] at hle
        omega
      · rename_i hstrip
        obtain ⟨⟨front, back⟩, hcut, hparts⟩ := Option.map_eq_some_iff.mp h
        obtain ⟨rfl, rfl⟩ : c :: front = before ∧ back = after := by simpa using hparts
        obtain ⟨rfl, hfront⟩ := ih hcut
        refine ⟨rfl, ?_⟩
        rw [List.cons_append, List.infix_cons_iff, not_or]
        refine ⟨fun hstart => stripStart?_eq_none_iff.mp hstrip (hstart.trans ?_), hfront⟩
        rw [List.append_assoc, ← List.cons_append, ← List.cons_append]
        exact (List.prefix_append_right_inj _).mpr
          ((List.dropLast_prefix mark).trans (List.prefix_append _ _))
  · rintro ⟨rfl, hbefore⟩
    exact cutAt?_mark_append hbefore after

theorem cutAt?_eq_none_iff : cutAt? [c] cs = none ↔ c ∉ cs := by
  rw [cutAt?_mark_eq_none_iff (by simp), List.singleton_infix_iff]

theorem cutAt?_append (hbefore : c ∉ before) (after : List Char) :
    cutAt? [c] (before ++ c :: after) = some (before, after) := by
  have hcut : ¬ [c] <:+: before ++ [c].dropLast := by simpa [List.singleton_infix_iff] using hbefore
  simpa using cutAt?_mark_append hcut after

/-- A text is cut in front of and behind the first character of a kind in it. -/
theorem cutAt?_eq_some_iff :
    cutAt? [c] cs = some (before, after) ↔ cs = before ++ c :: after ∧ c ∉ before := by
  rw [cutAt?_mark_eq_some_iff (by simp)]
  simp [List.singleton_infix_iff]

end Marks

section Trimming

theorem trimChars_of_not_blank {before : List Char} (hbefore : ∀ c ∈ before, isBlank c = true)
    {c : Char} (hc : isBlank c = false) (cs : List Char) :
    trimChars (before ++ c :: cs) = c :: dropBlankEnd cs := by
  rw [trimChars, List.dropWhile_append_of_pos hbefore, List.dropWhile_cons_of_neg (by simp [hc]),
    dropBlankEnd]
  split
  · rename_i hend
    simp [hc, hend]
  · rfl

variable {cs core front back : List Char}

/-- There are no blanks at either end. -/
structure Trimmed (cs : List Char) : Prop where
  first : ∀ c, cs.head? = some c → isBlank c = false
  last : ∀ c, cs.getLast? = some c → isBlank c = false

/-- A text is blanks around another one that has none at its ends. -/
structure TrimsTo (cs core : List Char) : Prop where
  blanks : ∃ front back, cs = front ++ core ++ back ∧
    (∀ c ∈ front, isBlank c = true) ∧ ∀ c ∈ back, isBlank c = true
  trimmed : Trimmed core

private theorem dropBlankEnd_append (hback : ∀ c ∈ back, isBlank c = true) :
    dropBlankEnd (core ++ back) = dropBlankEnd core := by
  induction core with
  | nil =>
    induction back with
    | nil => rfl
    | cons c back ih =>
      obtain ⟨hc, hback⟩ := List.forall_mem_cons.mp hback
      have hrest : dropBlankEnd back = [] := ih hback
      simp [dropBlankEnd, hrest, hc]
  | cons c core ih => rw [List.cons_append, dropBlankEnd, ih, dropBlankEnd]

private theorem dropBlankEnd_of_last (h : ∀ c, cs.getLast? = some c → isBlank c = false) :
    dropBlankEnd cs = cs := by
  induction cs with
  | nil => rfl
  | cons c cs ih =>
    rw [dropBlankEnd]
    cases cs with
    | nil => simp [dropBlankEnd, h c rfl]
    | cons d cs =>
      rw [ih fun e he => h e (by rw [List.getLast?_cons_cons, he])]

theorem TrimsTo.trimChars_eq (h : TrimsTo cs core) : trimChars cs = core := by
  obtain ⟨⟨front, back, rfl, hfront, hback⟩, hfirst, hlast⟩ := h
  rw [trimChars, List.append_assoc, List.dropWhile_append_of_pos hfront]
  cases core with
  | nil =>
    have hblank : back.dropWhile isBlank = [] := List.dropWhile_eq_nil_iff.mpr hback
    rw [List.nil_append, hblank, dropBlankEnd]
  | cons c core =>
    rw [List.cons_append, List.dropWhile_cons_of_neg (by simp [hfirst c rfl]), ← List.cons_append,
      dropBlankEnd_append hback, dropBlankEnd_of_last hlast]

private theorem exists_dropBlankEnd (cs : List Char) :
    ∃ back, cs = dropBlankEnd cs ++ back ∧ (∀ c ∈ back, isBlank c = true) ∧
      ∀ c, (dropBlankEnd cs).getLast? = some c → isBlank c = false := by
  induction cs with
  | nil => exact ⟨[], rfl, nofun, nofun⟩
  | cons c cs ih =>
    obtain ⟨back, hcs, hback, hlast⟩ := ih
    rw [dropBlankEnd]
    split
    · rename_i hend
      rw [hend, List.nil_append] at hcs
      subst hcs
      by_cases hc : isBlank c = true
      · exact ⟨c :: cs, by simp [hc], List.forall_mem_cons.mpr ⟨hc, hback⟩, by simp [hc]⟩
      · exact ⟨cs, by simp [hc], hback, by simp [hc]⟩
    · rename_i hend
      obtain ⟨d, ds, hds⟩ := List.exists_cons_of_ne_nil hend
      refine ⟨back, congrArg (c :: ·) hcs, hback, fun e he => hlast e ?_⟩
      rwa [hds, List.getLast?_cons_cons, ← hds] at he

theorem trimsTo_trimChars (cs : List Char) : TrimsTo cs (trimChars cs) := by
  obtain ⟨back, hcs, hback, hlast⟩ := exists_dropBlankEnd (cs.dropWhile isBlank)
  refine ⟨⟨cs.takeWhile isBlank, back, ?_, fun c => List.mem_takeWhile_imp, hback⟩, ?_, hlast⟩
  · rw [trimChars, List.append_assoc, ← hcs, List.takeWhile_append_dropWhile]
  · intro c hc
    have hfirst : (cs.dropWhile isBlank).head? = some c := by
      rw [hcs, List.head?_append]
      rw [trimChars] at hc
      simp [hc]
    have hnot := List.head?_dropWhile_not isBlank cs
    rwa [hfirst] at hnot

/-- Trimming takes away the blanks at both ends, and nothing else. -/
theorem trimChars_eq_iff : trimChars cs = core ↔ TrimsTo cs core :=
  ⟨fun h => h ▸ trimsTo_trimChars cs, TrimsTo.trimChars_eq⟩

theorem trimChars_of_trimmed (h : Trimmed cs) : trimChars cs = cs :=
  TrimsTo.trimChars_eq ⟨⟨[], [], by simp, nofun, nofun⟩, h⟩

theorem mem_of_mem_trimChars {c : Char} (hc : c ∈ trimChars cs) : c ∈ cs := by
  obtain ⟨⟨front, back, hcs, -, -⟩, -⟩ := trimsTo_trimChars cs
  rw [hcs]
  simp [hc]

end Trimming

section Numerals

/-- The list of decimal digits `ds` denotes the number `n`. -/
structure Numeral (ds : List Char) (n : Nat) : Prop where
  nonempty : ds ≠ []
  digits : ∀ d ∈ ds, d.isDigit = true
  value : Nat.ofDigitChars 10 ds 0 = n

variable {ds : List Char} {n : Nat}

private theorem isDigit_eq (c : Char) : isDigit c = c.isDigit := by
  simp [isDigit, Char.isDigit, Char.le_def]

private theorem numberOfDigits_eq (hds : ∀ d ∈ ds, d.isDigit = true) :
    numberOfDigits ds = Nat.ofDigitChars 10 ds 0 := by
  rw [numberOfDigits, Nat.ofDigitChars_eq_foldl]
  apply List.foldl_ext
  intro m d hd
  have hdigit : '0' ≤ d ∧ d ≤ '9' := by simpa [isDigit] using (isDigit_eq d).trans (hds d hd)
  simp [digitValue?, hdigit]

theorem isNumeral_eq_true_iff : isNumeral ds = true ↔ ds ≠ [] ∧ ∀ d ∈ ds, d.isDigit = true := by
  simp [isNumeral, isDigit_eq]

private theorem digits_eq_some_iff {bound : Nat} :
    (if isNumeral ds = true then
      if numberOfDigits ds < bound then some (numberOfDigits ds) else none
      else none) = some n ↔ Numeral ds n ∧ n < bound := by
  by_cases hds : isNumeral ds = true
  · obtain ⟨hne, hdigits⟩ := isNumeral_eq_true_iff.mp hds
    rw [if_pos hds, numberOfDigits_eq hdigits, Option.ite_none_right_eq_some, Option.some.injEq]
    constructor
    · rintro ⟨hbound, rfl⟩
      exact ⟨⟨hne, hdigits, rfl⟩, hbound⟩
    · rintro ⟨h, hbound⟩
      exact ⟨h.value ▸ hbound, h.value⟩
  · rw [if_neg hds]
    constructor
    · intro h
      cases h
    · rintro ⟨h, -⟩
      exact absurd (isNumeral_eq_true_iff.mpr ⟨h.nonempty, h.digits⟩) hds

/-- A number is read from a numeral below the bound, which may have a plus sign in front. -/
theorem readNumber?_eq_some_iff {bound : Nat} {cs : List Char} :
    readNumber? bound cs = some n ↔
      (Numeral cs n ∨ ∃ ds, cs = '+' :: ds ∧ Numeral ds n) ∧ n < bound := by
  unfold readNumber?
  split
  · rename_i rest
    have hplus : ¬ Numeral ('+' :: rest) n := by
      intro h
      exact absurd (h.digits '+' List.mem_cons_self) (by decide)
    rw [digits_eq_some_iff]
    simp [hplus]
  · rename_i hsign
    have hnone : ¬ ∃ ds, cs = '+' :: ds ∧ Numeral ds n := by
      rintro ⟨ds, hds, -⟩
      exact hsign ds hds
    rw [digits_eq_some_iff]
    simp [hnone]

end Numerals

end ChainAudit.Text
