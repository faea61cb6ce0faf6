import ChainAudit.Proofs.Chain.Heights

/-!
# The analysis of heights is exact

Read as integers, the gaps of any heights are the missing ones between the least and the greatest
height, in as few ranges as possible. The bounds of a gap stand next to heights of the list, so that
they are computed without leaving the 64 bits even next to the least and the greatest number.
-/

namespace ChainAudit.Chain

open ChainAudit.Clock

/-- What an exact analysis says of heights, all numbers read as integers. -/
structure Exact (heights : List Height) (issues : List Issue) : Prop where
  covers : ∀ x : Int, (∃ g ∈ gapRanges issues, g.1.toInt ≤ x ∧ x ≤ g.2.toInt) ↔
    (∃ a ∈ heights, a.toInt < x) ∧ (∃ b ∈ heights, x < b.toInt) ∧ ∀ h ∈ heights, h.toInt ≠ x
  nonempty : ∀ g ∈ gapRanges issues, g.1.toInt ≤ g.2.toInt
  /-- Between two gaps there is at least one height that is in neither. -/
  apart : (gapRanges issues).Pairwise fun g g' => g.2.toInt + 1 < g'.1.toInt
  below : ∀ i ∈ issues, i.kind = .gap → ∃ h ∈ heights, i.missingFrom.toInt = h.toInt + 1
  attached : ∀ i ∈ issues, i.kind = .gap →
    i.height ∈ heights ∧ i.height.toInt = i.missingTo.toInt + 1
  duplicates : ∀ h, duplicatesAt h issues = heights.count h - 1
  kinds : ∀ i ∈ issues, i.kind = .gap ∨ i.kind = .duplicate

section Bounds

variable {t : Int64} {lower upper : Height}

/-- On the way to the nearest number of 64 bits nothing wraps around. -/
theorem toInt_clamp64 (x : Int) :
    (clamp64 x).toInt = max Int64.minValue.toInt (min Int64.maxValue.toInt x) := by
  have hlow : Int64.minValue.toInt = -2 ^ 63 := Int64.toInt_minValue
  have hhigh : Int64.maxValue.toInt = 2 ^ 63 - 1 := Int64.toInt_maxValue
  exact Int64.toInt_ofInt_of_le (by omega) (by omega)

theorem clamp64_toInt (h : Height) : clamp64 h.toInt = h := by
  have hlow : Int64.minValue.toInt ≤ h.toInt := h.minValue_le_toInt
  have hhigh : h.toInt ≤ Int64.maxValue.toInt := h.toInt_le
  rw [← Int64.toInt_inj, toInt_clamp64]
  omega

private theorem lt_of_apart (h : lower.toInt + 1 < upper.toInt) : lower < upper := by
  rw [Int64.lt_iff_toInt_lt]
  omega

private theorem mem_between {i : Issue} (hle : lower ≤ upper)
    (hi : i ∈ betweenNeighbours t lower upper) :
    i = .duplicate lower t ∨
      lower.toInt + 1 < upper.toInt ∧ i = .gap (lower + 1) (upper - 1) t := by
  unfold betweenNeighbours at hi
  split at hi
  · exact Or.inl (List.mem_singleton.mp hi)
  · rename_i hne
    have hlt := Int64.lt_of_le_of_ne hle hne
    have hnext := add_one_eq_iff hlt
    rw [Int64.lt_iff_toInt_lt] at hlt
    split at hi
    · exact absurd hi List.not_mem_nil
    · rename_i hfar
      rw [hnext] at hfar
      exact Or.inr ⟨by omega, List.mem_singleton.mp hi⟩

theorem mem_scanAscending {l : List Height} (hl : Rising l) {i : Issue}
    (hi : i ∈ scanAscending t l) :
    (∃ h ∈ l, i = .duplicate h t) ∨ ∃ lower ∈ l, ∃ upper ∈ l,
      lower.toInt + 1 < upper.toInt ∧ i = .gap (lower + 1) (upper - 1) t := by
  fun_induction scanAscending t l with
  | case1 lower upper rest ih =>
    obtain ⟨hlower, hupper⟩ := List.pairwise_cons.mp hl
    rcases List.mem_append.mp hi with hi | hi
    · rcases mem_between (hlower upper List.mem_cons_self) hi with hdup | ⟨hfar, hgap⟩
      · exact Or.inl ⟨lower, List.mem_cons_self, hdup⟩
      · exact Or.inr ⟨lower, List.mem_cons_self, upper, by simp, hfar, hgap⟩
    · rcases ih hupper hi with ⟨h, hmem, hdup⟩ | ⟨a, ha, b, hb, hfar, hgap⟩
      · exact Or.inl ⟨h, List.mem_cons_of_mem _ hmem, hdup⟩
      · exact Or.inr ⟨a, List.mem_cons_of_mem _ ha, b, List.mem_cons_of_mem _ hb, hfar, hgap⟩
  | case2 l _ => exact absurd hi List.not_mem_nil

private theorem exists_height {a b : Height} {x : Int} (ha : a.toInt ≤ x) (hb : x ≤ b.toInt) :
    ∃ h : Height, h.toInt = x := by
  have hlow := a.le_toInt
  have hhigh := b.toInt_lt
  exact ⟨Int64.ofInt x, Int64.toInt_ofInt_of_le (by omega) (by omega)⟩

private theorem mem_gapRanges {issues : List Issue} {g : Height × Height} :
    g ∈ gapRanges issues ↔ ∃ i ∈ issues, i.kind = .gap ∧ (i.missingFrom, i.missingTo) = g := by
  simp [gapRanges, and_assoc]

end Bounds

section Analyses

variable {heights : List Height} {now : Moment}

theorem ascending_of_perm {others : List Height} (h : heights.Perm others) :
    ascending others = ascending heights := by
  refine List.Perm.eq_of_pairwise (fun a b _ _ => Int64.le_antisymm) (ascending_rising others)
    (ascending_rising heights) ?_
  exact (ascending_perm others).trans (h.symm.trans (ascending_perm heights).symm)

theorem neighbours_in_range {lower upper : Height} (h : [lower, upper] <:+: ascending heights)
    (hne : lower ≠ upper) :
    (lower + 1).toInt = lower.toInt + 1 ∧ (upper - 1).toInt = upper.toInt - 1 := by
  have hpair : Rising [lower, upper] := List.Pairwise.sublist h.sublist (ascending_rising heights)
  have hle : lower ≤ upper := by simpa using hpair
  have hlt := Int64.lt_of_le_of_ne hle hne
  exact ⟨toInt_add_one hlt, toInt_sub_one hlt⟩

private theorem mem_analyze {i : Issue} (hi : i ∈ analyze heights now) :
    (∃ h ∈ heights, i = .duplicate h (Int64.ofInt now.seconds)) ∨
      ∃ lower ∈ heights, ∃ upper ∈ heights, lower.toInt + 1 < upper.toInt ∧
        i = .gap (lower + 1) (upper - 1) (Int64.ofInt now.seconds) := by
  have hmem : ∀ a, a ∈ ascending heights ↔ a ∈ heights := fun a => (ascending_perm heights).mem_iff
  simpa only [hmem] using mem_scanAscending (ascending_rising heights) hi

theorem analyze_kind {i : Issue} (hi : i ∈ analyze heights now) :
    i.kind = .gap ∨ i.kind = .duplicate := by
  rcases mem_analyze hi with ⟨_, _, rfl⟩ | ⟨_, _, _, _, _, rfl⟩
  · exact Or.inr rfl
  · exact Or.inl rfl

theorem analyzeWalk_kind {i : Issue} (hi : i ∈ analyzeWalk heights now) :
    i.kind = .gap ∨ i.kind = .duplicate := by
  rcases List.mem_append.mp hi with hi | hi
  · exact Or.inr (risingLinks_kind i hi)
  · exact analyze_kind hi

theorem gap_fills {i : Issue} (hi : i ∈ analyze heights now) (hgap : i.kind = .gap) :
    ∃ lower ∈ heights, ∃ upper ∈ heights, lower.toInt + 1 < upper.toInt ∧
      i.missingFrom.toInt = lower.toInt + 1 ∧ i.missingTo.toInt = upper.toInt - 1 ∧
      i.height = upper := by
  rcases mem_analyze hi with ⟨h, _, rfl⟩ | ⟨lower, hlower, upper, hupper, hfar, rfl⟩
  · cases hgap
  · have hlt := lt_of_apart hfar
    have hsub := toInt_sub_one hlt
    have hheight : clamp64 ((upper - 1).toInt + 1) = upper := by
      rw [hsub, Int.sub_add_cancel, clamp64_toInt]
    exact ⟨lower, hlower, upper, hupper, hfar, toInt_add_one hlt, hsub, hheight⟩

private theorem range_fills {g : Height × Height} (hg : g ∈ gapRanges (analyze heights now)) :
    ∃ lower ∈ heights, ∃ upper ∈ heights, lower.toInt + 1 < upper.toInt ∧
      g.1.toInt = lower.toInt + 1 ∧ g.2.toInt = upper.toInt - 1 := by
  obtain ⟨i, hi, hgap, rfl⟩ := mem_gapRanges.mp hg
  obtain ⟨lower, hlower, upper, hupper, hfar, hfrom, hto, _⟩ := gap_fills hi hgap
  exact ⟨lower, hlower, upper, hupper, hfar, hfrom, hto⟩

private theorem gap_height_iff (h : Height) :
    (∃ g ∈ gapRanges (analyze heights now), g.1.toInt ≤ h.toInt ∧ h.toInt ≤ g.2.toInt) ↔
      (∃ a ∈ heights, a.toInt < h.toInt) ∧ (∃ b ∈ heights, h.toInt < b.toInt) ∧
        ∀ h' ∈ heights, h'.toInt ≠ h.toInt := by
  have hiff := gap_analyze_iff heights now h
  simp only [Int64.le_iff_toInt_le, Int64.lt_iff_toInt_lt] at hiff
  have hout : h ∉ heights ↔ ∀ h' ∈ heights, h'.toInt ≠ h.toInt := by
    simp only [ne_eq, Int64.toInt_inj, List.forall_mem_ne']
  rw [hiff, hout, and_comm, and_assoc]

private theorem gap_int_iff (x : Int) :
    (∃ g ∈ gapRanges (analyze heights now), g.1.toInt ≤ x ∧ x ≤ g.2.toInt) ↔
      (∃ a ∈ heights, a.toInt < x) ∧ (∃ b ∈ heights, x < b.toInt) ∧
        ∀ h ∈ heights, h.toInt ≠ x := by
  constructor
  · rintro ⟨g, hg, hlow, hhigh⟩
    obtain ⟨h, rfl⟩ := exists_height hlow hhigh
    exact (gap_height_iff h).mp ⟨g, hg, hlow, hhigh⟩
  · rintro ⟨⟨a, ha, hax⟩, ⟨b, hb, hxb⟩, hout⟩
    obtain ⟨h, rfl⟩ := exists_height (Int.le_of_lt hax) (Int.le_of_lt hxb)
    exact (gap_height_iff h).mpr ⟨⟨a, ha, hax⟩, ⟨b, hb, hxb⟩, hout⟩

private theorem gapRanges_apart :
    (gapRanges (analyze heights now)).Pairwise fun g g' => g.2.toInt + 1 < g'.1.toInt := by
  refine List.Pairwise.imp_of_mem ?_ (gapRanges_scan_apart (ascending_rising heights))
  intro g g' hg hg' hlt
  obtain ⟨_, _, upper, hupper, _, _, hto⟩ := range_fills hg
  obtain ⟨_, _, _, _, hfar, hfrom, hto'⟩ := range_fills hg'
  -- the height above the lower gap is in no gap, and the upper one begins with a missing height
  have hmissing := ((gap_int_iff g'.1.toInt).mp ⟨g', hg', by omega, by omega⟩).2.2 upper hupper
  rw [Int64.lt_iff_toInt_lt] at hlt
  omega

/-- The analysis of heights is exact, leaves the 64 bits nowhere, and depends only on which heights
there are and how often. -/
theorem analyze_exact (heights : List Height) (now : Moment) :
    Exact heights (analyze heights now) ∧
      (∀ lower upper, [lower, upper] <:+: ascending heights → lower ≠ upper →
        (lower + 1).toInt = lower.toInt + 1 ∧ (upper - 1).toInt = upper.toInt - 1) ∧
      ∀ others, heights.Perm others → analyze others now = analyze heights now := by
  refine ⟨?_, fun lower upper => neighbours_in_range, ?_⟩
  · constructor
    · exact gap_int_iff
    · intro g hg
      obtain ⟨_, _, _, _, hfar, hfrom, hto⟩ := range_fills hg
      omega
    · exact gapRanges_apart
    · intro i hi hgap
      obtain ⟨lower, hlower, _, _, _, hfrom, _⟩ := gap_fills hi hgap
      exact ⟨lower, hlower, hfrom⟩
    · intro i hi hgap
      obtain ⟨_, _, upper, hupper, _, _, hto, hheight⟩ := gap_fills hi hgap
      rw [hheight]
      exact ⟨hupper, by omega⟩
    · intro h
      rw [analyze, duplicatesAt_scan (ascending_rising heights) h,
        (ascending_perm heights).count_eq]
    · exact fun _ => analyze_kind
  · intro others h
    rw [analyze, analyze, ascending_of_perm h]

/-- Next to the greatest and the least height there are, and with one height twice. -/
theorem analyze_exact_extremes :
    let heights := [Int64.maxValue, 3, Int64.minValue, 3]
    Exact heights (analyze heights ⟨0⟩) ∧
      ((Int64.minValue + 1).toInt = Int64.minValue.toInt + 1 ∧
        ((3 : Int64) - 1).toInt = (3 : Int64).toInt - 1) ∧
      analyze [3, Int64.minValue, 3, Int64.maxValue] ⟨0⟩ = analyze heights ⟨0⟩ := by
  obtain ⟨hexact, hrange, hperm⟩ := analyze_exact [Int64.maxValue, 3, Int64.minValue, 3] ⟨0⟩
  have hsorted : ascending [Int64.maxValue, 3, Int64.minValue, 3] =
      [Int64.minValue, 3, 3, Int64.maxValue] :=
    (ascending_of_perm (by decide)).trans (ascending_of_rising (by decide))
  refine ⟨hexact, hrange Int64.minValue 3 ?_ (by decide), hperm _ (by decide)⟩
  rw [hsorted]
  decide

end Analyses

end ChainAudit.Chain
