import ChainAudit.Proofs.Chain.Exact
import Mathlib.Algebra.Ring.Int.Defs
import Mathlib.Data.List.Dedup
import Mathlib.Data.List.Pairwise

/-!
# How many heights are missing

A gap counts the heights of its range as exactly as 64 bits can tell. No height between the least
and the greatest one is left out and none is counted twice: the heights that are there and those
that are counted as missing make up the whole range together, unless a gap is too long to be
counted.
-/

namespace ChainAudit.Chain

open ChainAudit.Clock

namespace Issue

/-- The length of the range of a gap, which need not be a number of 64 bits. It is negative if the
bounds are the wrong way round. -/
def extent (i : Issue) : Int :=
  match i.kind with
  | .gap => i.missingTo.toInt - i.missingFrom.toInt + 1
  | .duplicate | .stuck => 0

variable {i : Issue}

theorem extent_of_gap (h : i.kind = .gap) :
    i.extent = i.missingTo.toInt - i.missingFrom.toInt + 1 := by
  rw [extent, h]

theorem extent_of_ne_gap (h : i.kind ≠ .gap) : i.extent = 0 := by
  cases hkind : i.kind with
  | gap => exact absurd hkind h
  | duplicate => rw [extent, hkind]
  | stuck => rw [extent, hkind]

theorem missingCount_of_gap (h : i.kind = .gap) :
    i.missingCount =
      max (clamp64 ((clamp64 (i.missingTo.toInt - i.missingFrom.toInt)).toInt + 1)) 0 := by
  rw [missingCount, h]

theorem missingCount_of_ne_gap (h : i.kind ≠ .gap) : i.missingCount = 0 := by
  cases hkind : i.kind with
  | gap => exact absurd hkind h
  | duplicate => rw [missingCount, hkind]
  | stuck => rw [missingCount, hkind]

private theorem toInt_max (x y : Int64) : (max x y).toInt = max x.toInt y.toInt := by
  change (if x ≤ y then y else x).toInt = _
  split
  · rename_i hle
    exact (Int.max_eq_right (Int64.le_iff_toInt_le.mp hle)).symm
  · rename_i hlt
    exact (Int.max_eq_left (Int64.le_iff_toInt_le.mp (Int64.le_of_lt (Int64.not_le.mp hlt)))).symm

/-- The count is the length of the range within its limits. The difference of the bounds and the
number above it are limited one after the other, but what the first limit takes away the second one
or zero would take away too. -/
theorem toInt_missingCount (i : Issue) :
    i.missingCount.toInt = max 0 (min Int64.maxValue.toInt i.extent) := by
  have hlow : Int64.minValue.toInt = -2 ^ 63 := Int64.toInt_minValue
  have hhigh : Int64.maxValue.toInt = 2 ^ 63 - 1 := Int64.toInt_maxValue
  by_cases hgap : i.kind = .gap
  · rw [missingCount_of_gap hgap, extent_of_gap hgap, toInt_max, toInt_clamp64, toInt_clamp64,
      Int64.toInt_zero]
    omega
  · rw [missingCount_of_ne_gap hgap, extent_of_ne_gap hgap, Int64.toInt_zero]
    omega

/-- Bounds as far apart as they can be, and bounds the wrong way round. -/
example : (gap Int64.minValue Int64.maxValue 0).missingCount = Int64.maxValue ∧
    (gap 10 4 0).missingCount = 0 := by decide

end Issue

def extents (issues : List Issue) : Int := (issues.map Issue.extent).sum

/-- All that issues count as missing, without a limit for the sum. -/
def missingIn (issues : List Issue) : Int := (issues.map fun i => i.missingCount.toInt).sum

section Sums

variable {issues : List Issue}

theorem extents_append (is js : List Issue) : extents (is ++ js) = extents is + extents js := by
  rw [extents, List.map_append, List.sum_append]
  rfl

theorem missingIn_eq_iff (h : ∀ i ∈ issues, 0 ≤ i.extent) :
    missingIn issues ≤ extents issues ∧ (missingIn issues = extents issues ↔
      ∀ i ∈ issues, i.extent ≤ Int64.maxValue.toInt) := by
  induction issues with
  | nil => simp [missingIn, extents]
  | cons i issues ih =>
    obtain ⟨hi, hrest⟩ := List.forall_mem_cons.mp h
    obtain ⟨hless, hexact⟩ := ih hrest
    have hcount := i.toInt_missingCount
    have hlimit : (0 : Int) ≤ Int64.maxValue.toInt := by decide
    have hmissing : missingIn (i :: issues) = i.missingCount.toInt + missingIn issues := rfl
    have hextents : extents (i :: issues) = i.extent + extents issues := rfl
    rw [List.forall_mem_cons, ← hexact, hmissing, hextents]
    omega

end Sums

section Scans

/-- From a height to its neighbour one passes the gap between them, if there is one, and then takes
one more step, unless the neighbour is the same height again. -/
private theorem extents_between (t : Int64) {lower upper : Height} (h : lower ≤ upper) :
    extents (betweenNeighbours t lower upper) + (if lower = upper then 0 else 1) =
      upper.toInt - lower.toInt := by
  unfold betweenNeighbours
  split
  · rename_i heq
    rw [heq, Int.sub_self]
    rfl
  · rename_i hne
    have hlt := Int64.lt_of_le_of_ne h hne
    split
    · rename_i hnext
      have hstep := (add_one_eq_iff hlt).mp hnext
      change (0 : Int) + 1 = _
      omega
    · change ((upper - 1).toInt - (lower + 1).toInt + 1 + 0) + 1 = _
      rw [toInt_add_one hlt, toInt_sub_one hlt]
      omega

/-- In ascending order, the different heights and the gaps between them fill the range from the
first height to the last one. -/
theorem extents_scan {t : Int64} {l : List Height} (hl : Rising l) (hne : l ≠ []) :
    (l.dedup.length : Int) + extents (scanAscending t l) =
      (l.getLast hne).toInt - (l.head hne).toInt + 1 := by
  fun_induction scanAscending t l with
  | case1 lower upper rest ih =>
    obtain ⟨hlower, hupper⟩ := List.pairwise_cons.mp hl
    have hbetween := extents_between t (hlower upper List.mem_cons_self)
    have hrest := ih hupper (List.cons_ne_nil _ _)
    rw [extents_append, List.getLast_cons (List.cons_ne_nil upper rest)]
    rw [List.head_cons] at hrest ⊢
    by_cases heq : lower = upper
    · rw [if_pos heq] at hbetween
      rw [List.dedup_cons_of_mem ((lowest_mem_iff hl).mpr heq)]
      omega
    · rw [if_neg heq] at hbetween
      have hnew : lower ∉ upper :: rest := fun hmem => heq ((lowest_mem_iff hl).mp hmem)
      rw [List.dedup_cons_of_notMem hnew, List.length_cons]
      omega
  | case2 l hshort =>
    rcases nil_or_single_of_short hshort with rfl | ⟨h, rfl⟩
    · exact absurd rfl hne
    · change (1 : Int) + 0 = h.toInt - h.toInt + 1
      omega

end Scans

section Analyses

variable {heights : List Height}

theorem extent_nonneg {now : Moment} {i : Issue} (hi : i ∈ analyze heights now) : 0 ≤ i.extent := by
  by_cases hgap : i.kind = .gap
  · obtain ⟨_, _, _, _, hfar, hfrom, hto, _⟩ := gap_fills hi hgap
    rw [Issue.extent_of_gap hgap]
    omega
  · exact Int.le_of_eq (Issue.extent_of_ne_gap hgap).symm

/-- Heights have a least and a greatest one, and what is there and what is missing fill the range
between the two. -/
theorem extents_analyze (now : Moment) (hne : heights ≠ []) :
    ∃ least ∈ heights, ∃ greatest ∈ heights, (∀ h ∈ heights, least ≤ h ∧ h ≤ greatest) ∧
      (heights.dedup.length : Int) + extents (analyze heights now) =
        greatest.toInt - least.toInt + 1 := by
  have hperm := ascending_perm heights
  have hrising := ascending_rising heights
  have hsorted : ascending heights ≠ [] := fun hnil => hne (List.Perm.nil_eq (hnil ▸ hperm)).symm
  refine ⟨(ascending heights).head hsorted, hperm.mem_iff.mp (List.head_mem hsorted),
    (ascending heights).getLast hsorted, hperm.mem_iff.mp (List.getLast_mem hsorted), ?_, ?_⟩
  · intro h hh
    have hmem := hperm.mem_iff.mpr hh
    exact ⟨hrising.rel_head hmem, hrising.rel_getLast hmem⟩
  · rw [← hperm.dedup.length_eq]
    exact extents_scan hrising hsorted

/-- Whatever its bounds are, a gap counts the heights from one to the other exactly, within the
limits of zero and of the 64 bits, and on the way nothing wraps around. Among any heights, the
different ones and all that are counted as missing make up the range from the least to the greatest
one, exactly if no gap is too long to be counted. -/
theorem missing_counted_exactly :
    (∀ x : Int,
      (clamp64 x).toInt = max Int64.minValue.toInt (min Int64.maxValue.toInt x)) ∧
    (∀ i : Issue, i.kind = .gap → i.missingCount.toInt =
      max 0 (min Int64.maxValue.toInt (i.missingTo.toInt - i.missingFrom.toInt + 1))) ∧
    ∀ (heights : List Height) (now : Moment), heights ≠ [] →
      ∃ least ∈ heights, ∃ greatest ∈ heights, (∀ h ∈ heights, least ≤ h ∧ h ≤ greatest) ∧
        ((heights.dedup.length : Int) + missingIn (analyze heights now) =
            greatest.toInt - least.toInt + 1 ↔
          ∀ i ∈ analyze heights now, i.extent ≤ Int64.maxValue.toInt) := by
  refine ⟨toInt_clamp64, ?_, ?_⟩
  · intro i hgap
    rw [i.toInt_missingCount, Issue.extent_of_gap hgap]
  · intro heights now hne
    obtain ⟨least, hleast, greatest, hgreatest, hbounds, hfilled⟩ := extents_analyze now hne
    refine ⟨least, hleast, greatest, hgreatest, hbounds, ?_⟩
    rw [← (missingIn_eq_iff fun i hi => extent_nonneg hi).2, ← hfilled]
    exact Int.add_right_inj _

/-- Up to zero there is the longest gap that can be counted, and the heights are counted right from
the least number of 64 bits to the greatest one. -/
theorem missing_counted_exactly_extremes :
    let heights := [Int64.maxValue, 0, Int64.minValue, 0]
    heights ≠ [] ∧ (∀ i ∈ analyze heights ⟨0⟩, i.extent ≤ Int64.maxValue.toInt) ∧
      ∃ least ∈ heights, ∃ greatest ∈ heights, (∀ h ∈ heights, least ≤ h ∧ h ≤ greatest) ∧
        (heights.dedup.length : Int) + missingIn (analyze heights ⟨0⟩) =
          greatest.toInt - least.toInt + 1 := by
  have hsorted : ascending [Int64.maxValue, 0, Int64.minValue, 0] =
      [Int64.minValue, 0, 0, Int64.maxValue] :=
    (ascending_of_perm (by decide)).trans (ascending_of_rising (by decide))
  have hcountable : ∀ i ∈ analyze [Int64.maxValue, 0, Int64.minValue, 0] ⟨0⟩,
      i.extent ≤ Int64.maxValue.toInt := by
    rw [analyze, hsorted]
    decide
  obtain ⟨least, hleast, greatest, hgreatest, hbounds, hcounted⟩ :=
    missing_counted_exactly.2.2 [Int64.maxValue, 0, Int64.minValue, 0] ⟨0⟩ (by decide)
  exact ⟨by decide, hcountable, least, hleast, greatest, hgreatest, hbounds,
    hcounted.mpr hcountable⟩

end Analyses

end ChainAudit.Chain
