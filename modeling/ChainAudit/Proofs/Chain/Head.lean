import ChainAudit.Chain.Head
import Mathlib.Data.List.Induction

/-!
# The highest head of a history

Whatever order the heads of a chain are seen in, and at whatever moments, the known head is the
first of the highest ones. A head is stuck if it does not pass that one and comes later than the
threshold allows.
-/

namespace ChainAudit.Chain

open ChainAudit.Clock

/-- A head that was seen, and the moment it was seen at. -/
structure Sighting where
  height : Height
  seenAt : Moment
  deriving DecidableEq, Repr

/-- The first of the highest sightings: those before it are lower, and none after it is higher. -/
def FirstHighest (seen : List Sighting) (top : Sighting) : Prop :=
  ∃ before after, seen = before ++ top :: after ∧
    (∀ o ∈ before, o.height < top.height) ∧ ∀ o ∈ after, o.height ≤ top.height

/-- A sighting is overdue if some head was as high before, and the first of the highest ones was
seen longer ago than the threshold. -/
def Overdue (threshold : Span) (seen : List Sighting) (o : Sighting) : Prop :=
  ∃ top, FirstHighest seen top ∧ o.height ≤ top.height ∧
    (threshold.nanos : Int) < o.seenAt.nanos - top.seenAt.nanos

def KnownHead.next (known : Option KnownHead) (o : Sighting) : KnownHead :=
  match known with
  | none => ⟨o.height, o.seenAt⟩
  | some k => k.observe o.height o.seenAt

def knownAfter (seen : List Sighting) : Option KnownHead :=
  seen.foldl (fun known o => some (KnownHead.next known o)) none

section Histories

variable {seen : List Sighting} {o top : Sighting} {k : KnownHead}

theorem knownAfter_snoc (seen : List Sighting) (o : Sighting) :
    knownAfter (seen ++ [o]) = some (KnownHead.next (knownAfter seen) o) := by
  rw [knownAfter, List.foldl_append, ← knownAfter]
  rfl

theorem FirstHighest.mem (h : FirstHighest seen top) : top ∈ seen := by
  obtain ⟨before, after, rfl, _, _⟩ := h
  simp

theorem FirstHighest.le (h : FirstHighest seen top) : ∀ o ∈ seen, o.height ≤ top.height := by
  obtain ⟨before, after, rfl, hbefore, hafter⟩ := h
  intro o ho
  rcases List.mem_append.mp ho with ho | ho
  · exact Int64.le_of_lt (hbefore o ho)
  · rcases List.mem_cons.mp ho with rfl | ho
    · exact Int64.le_refl _
    · exact hafter o ho

theorem FirstHighest.snoc_higher (h : ∀ s ∈ seen, s.height < o.height) :
    FirstHighest (seen ++ [o]) o :=
  ⟨seen, [], rfl, h, by simp⟩

theorem FirstHighest.snoc_lower (h : FirstHighest seen top) (hle : o.height ≤ top.height) :
    FirstHighest (seen ++ [o]) top := by
  obtain ⟨before, after, rfl, hbefore, hafter⟩ := h
  refine ⟨before, after ++ [o], by simp, hbefore, ?_⟩
  intro s hs
  rcases List.mem_append.mp hs with hs | hs
  · exact hafter s hs
  · rw [List.mem_singleton.mp hs]
    exact hle

/-- The known head is the first of the highest sightings, and there is none without any. -/
theorem knownAfter_spec (seen : List Sighting) :
    match knownAfter seen with
    | none => seen = []
    | some k => FirstHighest seen ⟨k.height, k.advancedAt⟩ := by
  induction seen using List.reverseRecOn with
  | nil => rfl
  | append_singleton seen o ih =>
    rw [knownAfter_snoc]
    cases hknown : knownAfter seen with
    | none =>
      rw [hknown] at ih
      subst ih
      exact .snoc_higher (by simp)
    | some k =>
      rw [hknown] at ih
      simp only [KnownHead.next, KnownHead.observe]
      split
      · rename_i hlt
        exact .snoc_higher fun s hs => Int64.lt_of_le_of_lt (ih.le s hs) hlt
      · rename_i hle
        exact ih.snoc_lower (Int64.not_lt.mp hle)

private theorem same_top {before between after after' : List Sighting} {top' : Sighting}
    (hbefore : ∀ o ∈ before ++ between, o.height < top'.height) (hle : top'.height ≤ top.height)
    (h : top :: after = between ++ top' :: after') : top = top' := by
  cases between with
  | nil => exact (List.cons.inj h).1
  | cons o between =>
    obtain ⟨rfl, _⟩ := List.cons.inj h
    have hlt := hbefore top (by simp)
    exact absurd hle (Int64.not_le.mpr hlt)

theorem FirstHighest.unique {top' : Sighting} (h : FirstHighest seen top)
    (h' : FirstHighest seen top') : top = top' := by
  have hle := h.le top' h'.mem
  have hle' := h'.le top h.mem
  obtain ⟨before, after, hseen, hbefore, _⟩ := h
  obtain ⟨before', after', hseen', hbefore', _⟩ := h'
  rcases List.append_eq_append_iff.mp (hseen.symm.trans hseen') with
    ⟨between, rfl, hrest⟩ | ⟨between, rfl, hrest⟩
  · exact same_top hbefore' hle hrest
  · exact (same_top hbefore hle' hrest).symm

theorem overdue_iff {threshold : Span} :
    Overdue threshold seen o ↔ ∃ k, knownAfter seen = some k ∧ o.height ≤ k.height ∧
      (threshold.nanos : Int) < o.seenAt.nanos - k.advancedAt.nanos := by
  have hspec := knownAfter_spec seen
  constructor
  · rintro ⟨top, htop, hle, hlate⟩
    cases hknown : knownAfter seen with
    | none =>
      rw [hknown] at hspec
      subst hspec
      exact absurd htop.mem List.not_mem_nil
    | some k =>
      rw [hknown] at hspec
      obtain rfl := htop.unique hspec
      exact ⟨k, rfl, hle, hlate⟩
  · rintro ⟨k, hknown, hle, hlate⟩
    rw [hknown] at hspec
    exact ⟨_, hspec, hle, hlate⟩

end Histories

section Checks

theorem stuckIssue?_some (threshold : Span) (head : Height) (k : KnownHead) (now : Moment) :
    stuckIssue? threshold head (some k) now =
      if head ≤ k.height ∧ (threshold.nanos : Int) < now.nanos - k.advancedAt.nanos then
        some (.stuck head (Int64.ofInt now.seconds))
      else none := by
  simp only [stuckIssue?, Moment.since?, Option.bind_eq_bind, Option.bind_some]
  by_cases hup : k.height < head
  · rw [if_pos hup, if_neg fun h => Int64.not_le.mpr hup h.1]
  · have hle := Int64.not_lt.mp hup
    rw [if_neg hup]
    by_cases hback : k.advancedAt.nanos ≤ now.nanos
    · rw [if_pos hback, Option.bind_some]
      by_cases hlate : (threshold.nanos : Int) < now.nanos - k.advancedAt.nanos
      · have hlong : ¬ (now.nanos - k.advancedAt.nanos).toNat ≤ threshold.nanos := by omega
        rw [if_neg hlong, if_pos ⟨hle, hlate⟩]
      · have hshort : (now.nanos - k.advancedAt.nanos).toNat ≤ threshold.nanos := by omega
        rw [if_pos hshort, if_neg fun h => hlate h.2]
    · rw [if_neg hback, Option.bind_none, if_neg]
      rintro ⟨_, hlate⟩
      omega

theorem eq_stuck_of_stuckIssue? {threshold : Span} {head : Height} {previous : Option KnownHead}
    {now : Moment} {i : Issue} (h : stuckIssue? threshold head previous now = some i) :
    i = .stuck head (Int64.ofInt now.seconds) := by
  cases previous with
  | none => cases h
  | some k =>
    rw [stuckIssue?_some] at h
    split at h
    · exact (Option.some.inj h).symm
    · cases h

theorem stuckIssue?_kind {threshold : Span} {head : Height} {previous : Option KnownHead}
    {now : Moment} {i : Issue} (h : stuckIssue? threshold head previous now = some i) :
    i.kind = .stuck := by
  rw [eq_stuck_of_stuckIssue? h]
  rfl

/-- After a history, a head is reported as stuck exactly if its sighting is overdue. -/
theorem stuckIssue?_knownAfter (threshold : Span) (seen : List Sighting) (o : Sighting) :
    (Overdue threshold seen o → stuckIssue? threshold o.height (knownAfter seen) o.seenAt =
        some (.stuck o.height (Int64.ofInt o.seenAt.seconds))) ∧
      (¬ Overdue threshold seen o →
        stuckIssue? threshold o.height (knownAfter seen) o.seenAt = none) := by
  rw [overdue_iff]
  cases hknown : knownAfter seen with
  | none => simp [stuckIssue?]
  | some k =>
    rw [stuckIssue?_some]
    constructor
    · rintro ⟨k', hk', hle, hlate⟩
      obtain rfl := Option.some.inj hk'
      exact if_pos ⟨hle, hlate⟩
    · intro hnot
      exact if_neg fun h => hnot ⟨k, rfl, h.1, h.2⟩

end Checks

end ChainAudit.Chain
