import ChainAudit.Chain.Heights
import Mathlib.Data.List.Chain

/-!
# What the analysis of heights finds

In ascending order the gaps are the heights between two neighbours, so that a height lies in a gap
if and only if it is missing and stands between two that are there. A height is found as duplicate
once less often than it occurs. No issue at all is found in a walk if and only if the heights fall
by one from node to node.
-/

namespace ChainAudit.Chain

open ChainAudit.Clock

def gapRanges (issues : List Issue) : List (Height × Height) :=
  (issues.filter (·.kind = .gap)).map fun i => (i.missingFrom, i.missingTo)

/-- How often a height is reported as a duplicate. -/
def duplicatesAt (h : Height) (issues : List Issue) : Nat :=
  issues.countP fun i => i.kind = .duplicate ∧ i.height = h

/-- Heights in an order in which they never fall. -/
abbrev Rising (heights : List Height) : Prop := heights.Pairwise (· ≤ ·)

theorem nil_or_single_of_short {l : List Height}
    (hshort : ∀ first second rest, l = first :: second :: rest → False) :
    l = [] ∨ ∃ h, l = [h] := by
  match l, hshort with
  | [], _ => exact .inl rfl
  | [h], _ => exact .inr ⟨h, rfl⟩
  | first :: second :: rest, hshort => exact (hshort first second rest rfl).elim

section Neighbours

variable {lower upper : Height} {t : Int64}

theorem toInt_add_one (h : lower < upper) : (lower + 1).toInt = lower.toInt + 1 := by
  have hlt := Int64.lt_iff_toInt_lt.mp h
  have hup := upper.toInt_lt
  have hge := lower.le_toInt
  rw [Int64.toInt_add, show (1 : Int64).toInt = 1 from rfl]
  apply Int.bmod_eq_of_le <;> omega

theorem toInt_sub_one (h : lower < upper) : (upper - 1).toInt = upper.toInt - 1 := by
  have hlt := Int64.lt_iff_toInt_lt.mp h
  have hup := upper.toInt_lt
  have hge := lower.le_toInt
  rw [Int64.toInt_sub, show (1 : Int64).toInt = 1 from rfl]
  apply Int.bmod_eq_of_le <;> omega

theorem add_one_eq_iff (h : lower < upper) :
    lower + 1 = upper ↔ upper.toInt = lower.toInt + 1 := by
  rw [← Int64.toInt_inj, toInt_add_one h]
  exact eq_comm

theorem betweenNeighbours_eq_nil_iff (h : lower ≤ upper) :
    betweenNeighbours t lower upper = [] ↔ upper.toInt = lower.toInt + 1 := by
  unfold betweenNeighbours
  split
  · rename_i heq
    subst heq
    simp only [List.cons_ne_nil, false_iff]
    omega
  · rename_i hne
    rw [← add_one_eq_iff (Int64.lt_of_le_of_ne h hne)]
    simp

theorem gap_between_iff (h : lower ≤ upper) (x : Height) :
    (∃ g ∈ gapRanges (betweenNeighbours t lower upper), g.1 ≤ x ∧ x ≤ g.2) ↔
      lower < x ∧ x < upper := by
  unfold betweenNeighbours
  split
  · rename_i heq
    subst heq
    simp only [gapRanges, Issue.duplicate]
    simpa using Int64.le_of_lt
  · rename_i hne
    have hlt := Int64.lt_of_le_of_ne h hne
    have hadd := toInt_add_one hlt
    have hsub := toInt_sub_one hlt
    have hnext := add_one_eq_iff hlt
    simp only [Int64.lt_iff_toInt_lt]
    split
    · rename_i heq
      have := hnext.mp heq
      simp only [gapRanges, List.filter_nil, List.map_nil, List.not_mem_nil, false_and,
        exists_false, false_iff]
      omega
    · simp only [gapRanges, Issue.gap, decide_true, List.filter_cons_of_pos, List.filter_nil,
        List.map_cons, List.map_nil, List.mem_singleton, exists_eq_left, Int64.le_iff_toInt_le]
      omega

private theorem gapRanges_between (h : lower ≤ upper) :
    gapRanges (betweenNeighbours t lower upper) = [] ∨
      ∃ g, gapRanges (betweenNeighbours t lower upper) = [g] ∧ g.1 ≤ g.2 := by
  unfold betweenNeighbours
  split
  · exact Or.inl rfl
  · rename_i hne
    have hlt := Int64.lt_of_le_of_ne h hne
    have hadd := toInt_add_one hlt
    have hsub := toInt_sub_one hlt
    have hnext := add_one_eq_iff hlt
    rw [Int64.lt_iff_toInt_lt] at hlt
    split
    · exact Or.inl rfl
    · rename_i hfar
      refine Or.inr ⟨_, rfl, ?_⟩
      rw [hnext] at hfar
      simp only [Issue.gap, Int64.le_iff_toInt_le]
      omega

private theorem duplicatesAt_between (h : Height) :
    duplicatesAt h (betweenNeighbours t lower upper) =
      if lower = upper ∧ lower = h then 1 else 0 := by
  unfold betweenNeighbours
  by_cases heq : lower = upper
  · subst heq
    by_cases hh : lower = h <;> simp [duplicatesAt, Issue.duplicate, hh]
  · rw [if_neg heq, if_neg (c := lower = upper ∧ lower = h) fun hboth => heq hboth.1]
    split
    · rfl
    · simp [duplicatesAt, Issue.gap]

end Neighbours

section Scans

variable {t : Int64}

theorem gapRanges_append (is js : List Issue) :
    gapRanges (is ++ js) = gapRanges is ++ gapRanges js := by
  simp [gapRanges]

theorem duplicatesAt_append (h : Height) (is js : List Issue) :
    duplicatesAt h (is ++ js) = duplicatesAt h is + duplicatesAt h js :=
  List.countP_append

theorem gapRanges_scan_time (t t' : Int64) (l : List Height) :
    gapRanges (scanAscending t l) = gapRanges (scanAscending t' l) := by
  fun_induction scanAscending t l with
  | case1 lower upper rest ih =>
    rw [scanAscending, gapRanges_append, gapRanges_append, ih]
    congr 1
    simp only [betweenNeighbours, gapRanges, Issue.duplicate, Issue.gap]
    split
    · rfl
    · split <;> rfl
  | case2 l hshort =>
    rw [scanAscending.eq_2 _ l hshort]

/-- A scan can be cut at any height, which belongs to both parts. -/
theorem scanAscending_append (xs : List Height) (y : Height) (zs : List Height) :
    scanAscending t (xs ++ y :: zs) = scanAscending t (xs ++ [y]) ++ scanAscending t (y :: zs) := by
  induction xs with
  | nil => rfl
  | cons x xs ih =>
    cases xs with
    | nil =>
      change betweenNeighbours t x y ++ scanAscending t (y :: zs) =
        (betweenNeighbours t x y ++ []) ++ scanAscending t (y :: zs)
      rw [List.append_nil]
    | cons x' xs =>
      change betweenNeighbours t x x' ++ scanAscending t (x' :: xs ++ y :: zs) =
        (betweenNeighbours t x x' ++ scanAscending t (x' :: xs ++ [y])) ++ _
      rw [ih, List.append_assoc]

/-- In ascending order, a height lies in a gap if and only if it is missing and stands between two
heights that are there. -/
theorem gap_scan_iff {l : List Height} (hl : Rising l) (x : Height) :
    (∃ g ∈ gapRanges (scanAscending t l), g.1 ≤ x ∧ x ≤ g.2) ↔
      x ∉ l ∧ (∃ a ∈ l, a < x) ∧ ∃ b ∈ l, x < b := by
  fun_induction scanAscending t l with
  | case1 lower upper rest ih =>
    obtain ⟨hlower, hupper⟩ := List.pairwise_cons.mp hl
    have hle := hlower upper List.mem_cons_self
    have hbetween := gap_between_iff (t := t) hle x
    have hrest := ih hupper
    have hleast : ∀ a ∈ upper :: rest, upper ≤ a := by
      intro a ha
      rcases List.mem_cons.mp ha with rfl | ha
      · exact Int64.le_refl _
      · exact (List.pairwise_cons.mp hupper).1 a ha
    -- above the second height the lowest one makes no difference, as `upper` is below as well
    simp only [gapRanges_append, List.mem_append, or_and_right, exists_or, hbetween, hrest]
    constructor
    · rintro (⟨hlo, hup⟩ | ⟨hx, ⟨a, ha, hax⟩, b, hb, hxb⟩)
      · refine ⟨?_, ⟨lower, List.mem_cons_self, hlo⟩, upper, by simp, hup⟩
        intro hx
        rcases List.mem_cons.mp hx with rfl | hx
        · exact Int64.lt_irrefl hlo
        · exact Int64.not_le.mpr hup (hleast x hx)
      · refine ⟨?_, ⟨a, List.mem_cons_of_mem _ ha, hax⟩, b, List.mem_cons_of_mem _ hb, hxb⟩
        intro hmem
        rcases List.mem_cons.mp hmem with rfl | hmem
        · exact Int64.not_le.mpr hax (hlower a ha)
        · exact hx hmem
    · rintro ⟨hx, ⟨a, ha, hax⟩, b, hb, hxb⟩
      have hxrest : x ∉ upper :: rest := fun h => hx (List.mem_cons_of_mem _ h)
      have hlo : lower < x := by
        rcases List.mem_cons.mp ha with rfl | ha
        · exact hax
        · exact Int64.lt_of_le_of_lt (hlower a ha) hax
      have hb' : b ∈ upper :: rest := by
        rcases List.mem_cons.mp hb with rfl | hb
        · exact absurd hlo (Int64.lt_asymm hxb)
        · exact hb
      by_cases hup : x < upper
      · exact Or.inl ⟨hlo, hup⟩
      · have hne : upper ≠ x := fun h => hxrest (h ▸ List.mem_cons_self)
        have hux : upper < x := Int64.lt_of_le_of_ne (Int64.not_lt.mp hup) hne
        exact Or.inr ⟨hxrest, ⟨upper, List.mem_cons_self, hux⟩, b, hb', hxb⟩
  | case2 l hshort =>
    simp only [gapRanges, List.filter_nil, List.map_nil, List.not_mem_nil, false_and, exists_false,
      false_iff]
    rintro ⟨hx, ⟨a, ha, hax⟩, b, hb, hxb⟩
    rcases nil_or_single_of_short hshort with rfl | ⟨c, rfl⟩
    · exact absurd ha List.not_mem_nil
    · rw [List.mem_singleton.mp ha] at hax
      rw [List.mem_singleton.mp hb] at hxb
      exact Int64.lt_asymm hax hxb

private theorem gap_scan_le {l : List Height} (hl : Rising l) {g : Height × Height}
    (hg : g ∈ gapRanges (scanAscending t l)) : g.1 ≤ g.2 := by
  fun_induction scanAscending t l with
  | case1 lower upper rest ih =>
    obtain ⟨hlower, hupper⟩ := List.pairwise_cons.mp hl
    rw [gapRanges_append, List.mem_append] at hg
    rcases hg with hg | hg
    · rcases gapRanges_between (t := t) (hlower upper List.mem_cons_self) with
        hnone | ⟨g', hone, hle⟩
      · simp [hnone] at hg
      · rw [hone, List.mem_singleton] at hg
        exact hg ▸ hle
    · exact ih hupper hg
  | case2 l hshort => simp [gapRanges] at hg

/-- The gaps of heights in ascending order follow one another without overlap. -/
theorem gapRanges_scan_apart {l : List Height} (hl : Rising l) :
    (gapRanges (scanAscending t l)).Pairwise fun g g' => g.2 < g'.1 := by
  fun_induction scanAscending t l with
  | case1 lower upper rest ih =>
    obtain ⟨hlower, hupper⟩ := List.pairwise_cons.mp hl
    have hle := hlower upper List.mem_cons_self
    rw [gapRanges_append]
    rcases gapRanges_between (t := t) hle with hnone | ⟨g, hone, hg⟩
    · rw [hnone]
      exact ih hupper
    · rw [hone]
      refine List.pairwise_cons.mpr ⟨?_, ih hupper⟩
      intro g' hg'
      have hbelow : g.2 < upper :=
        ((gap_between_iff (t := t) hle g.2).mp ⟨g, by simp [hone], hg, Int64.le_refl _⟩).2
      obtain ⟨_, ⟨a, ha, hag⟩, _⟩ := (gap_scan_iff hupper g'.1).mp
        ⟨g', hg', Int64.le_refl _, gap_scan_le hupper hg'⟩
      rcases List.mem_cons.mp ha with rfl | ha
      · exact Int64.lt_trans hbelow hag
      · have hle := (List.pairwise_cons.mp hupper).1 a ha
        exact Int64.lt_trans (Int64.lt_of_lt_of_le hbelow hle) hag
  | case2 l hshort => exact .nil

theorem gapRanges_scan_nodup {l : List Height} (hl : Rising l) :
    (gapRanges (scanAscending t l)).Nodup := by
  refine (List.Pairwise.imp_of_mem ?_ (gapRanges_scan_apart hl) :)
  intro g g' hg _ hlt heq
  subst heq
  exact Int64.not_le.mpr hlt (gap_scan_le hl hg)

/-- In ascending order the lowest height occurs again at once or not at all. -/
theorem lowest_mem_iff {lower upper : Height} {rest : List Height}
    (h : Rising (lower :: upper :: rest)) : lower ∈ upper :: rest ↔ lower = upper := by
  obtain ⟨hlower, hupper⟩ := List.pairwise_cons.mp h
  constructor
  · intro hmem
    rcases List.mem_cons.mp hmem with heq | hmem
    · exact heq
    · have hle := (List.pairwise_cons.mp hupper).1 lower hmem
      exact Int64.le_antisymm (hlower upper List.mem_cons_self) hle
  · rintro rfl
    exact List.mem_cons_self

theorem duplicatesAt_scan {l : List Height} (hl : Rising l) (h : Height) :
    duplicatesAt h (scanAscending t l) = l.count h - 1 := by
  fun_induction scanAscending t l with
  | case1 lower upper rest ih =>
    obtain ⟨hlower, hupper⟩ := List.pairwise_cons.mp hl
    rw [duplicatesAt_append, duplicatesAt_between, ih hupper]
    by_cases hh : lower = h
    · subst hh
      rw [List.count_cons_self]
      by_cases heq : lower = upper
      · have hpos : 0 < (upper :: rest).count lower :=
          List.count_pos_iff.mpr (heq ▸ List.mem_cons_self)
        rw [if_pos ⟨heq, rfl⟩]
        omega
      · have hnone : lower ∉ upper :: rest := fun hmem => heq ((lowest_mem_iff hl).mp hmem)
        rw [if_neg fun h => heq h.1, List.count_eq_zero.mpr hnone]
    · rw [if_neg fun h => hh h.2, List.count_cons_of_ne hh, Nat.zero_add]
  | case2 l hshort =>
    rcases nil_or_single_of_short hshort with rfl | ⟨c, rfl⟩
    · rfl
    · change 0 = [c].count h - 1
      have := List.count_le_length (a := h) (l := [c])
      simp only [List.length_singleton] at this
      omega

end Scans

section Walks

/-- Heights in the order of a walk along which they never rise. -/
abbrev Falling (heights : List Height) : Prop := heights.Pairwise (· ≥ ·)

theorem ascending_perm (l : List Height) : (ascending l).Perm l := List.mergeSort_perm _ _

theorem ascending_rising (l : List Height) : Rising (ascending l) := by
  have h : (ascending l).Pairwise fun a b => decide (a ≤ b) = true :=
    List.pairwise_mergeSort (by simpa using fun _ _ _ => Int64.le_trans)
      (by simpa using Int64.le_total) l
  exact h.imp fun hle => by simpa using hle

theorem ascending_of_rising {l : List Height} (hl : Rising l) : ascending l = l :=
  List.mergeSort_of_pairwise (hl.imp fun hle => by simpa using hle)

theorem ascending_of_falling {l : List Height} (hl : Falling l) : ascending l = l.reverse := by
  have hreverse : Rising l.reverse := List.pairwise_reverse.mpr hl
  refine List.Perm.eq_of_pairwise (fun a b _ _ => Int64.le_antisymm) (ascending_rising l)
    hreverse ?_
  exact (ascending_perm l).trans (List.reverse_perm l).symm

private theorem falling_iff_isChain {l : List Height} : Falling l ↔ l.IsChain (· ≥ ·) := by
  have : Trans (fun a b : Height => a ≥ b) (· ≥ ·) (· ≥ ·) :=
    ⟨fun hab hbc => Int64.le_trans hbc hab⟩
  exact List.isChain_iff_pairwise.symm

theorem risingLinks_eq_nil_iff {t : Int64} {l : List Height} :
    risingLinks t l = [] ↔ Falling l := by
  rw [falling_iff_isChain]
  fun_induction risingLinks t l with
  | case1 successor predecessor rest ih =>
    rw [List.append_eq_nil_iff, ih, List.isChain_cons_cons]
    simp [Int64.not_lt]
  | case2 l hshort =>
    rcases nil_or_single_of_short hshort with rfl | ⟨c, rfl⟩
    · simp
    · simp

theorem risingLinks_kind {t : Int64} {l : List Height} :
    ∀ i ∈ risingLinks t l, i.kind = .duplicate := by
  fun_induction risingLinks t l with
  | case1 successor predecessor rest ih =>
    intro i hi
    rcases List.mem_append.mp hi with hi | hi
    · split at hi
      · rw [List.mem_singleton.mp hi]
        rfl
      · exact absurd hi List.not_mem_nil
    · exact ih i hi
  | case2 l hshort => simp

theorem gapRanges_analyzeWalk (l : List Height) (now : Moment) :
    gapRanges (analyzeWalk l now) = gapRanges (analyze l now) := by
  have hnone : gapRanges (risingLinks (Int64.ofInt now.seconds) l) = [] := by
    simp only [gapRanges, List.map_eq_nil_iff, List.filter_eq_nil_iff, decide_eq_true_eq]
    intro i hi hgap
    rw [risingLinks_kind i hi] at hgap
    exact absurd hgap (by decide)
  rw [analyzeWalk, gapRanges_append, hnone, List.nil_append]

theorem analyzeWalk_of_falling {l : List Height} (hl : Falling l) (now : Moment) :
    analyzeWalk l now = scanAscending (Int64.ofInt now.seconds) l.reverse := by
  rw [analyzeWalk, risingLinks_eq_nil_iff.mpr hl, analyze, ascending_of_falling hl, List.nil_append]

/-- A height lies in a gap of an analysis if and only if it is missing and stands between two
heights that are there. -/
theorem gap_analyze_iff (l : List Height) (now : Moment) (x : Height) :
    (∃ g ∈ gapRanges (analyze l now), g.1 ≤ x ∧ x ≤ g.2) ↔
      x ∉ l ∧ (∃ a ∈ l, a < x) ∧ ∃ b ∈ l, x < b := by
  have hmem : ∀ a, a ∈ ascending l ↔ a ∈ l := fun a => (ascending_perm l).mem_iff
  rw [analyze, gap_scan_iff (ascending_rising l)]
  simp only [hmem]

private theorem scanAscending_eq_nil_iff {t : Int64} {l : List Height} (hl : Rising l) :
    scanAscending t l = [] ↔ l.IsChain fun lower upper => upper.toInt = lower.toInt + 1 := by
  fun_induction scanAscending t l with
  | case1 lower upper rest ih =>
    obtain ⟨hlower, hupper⟩ := List.pairwise_cons.mp hl
    rw [List.append_eq_nil_iff, ih hupper, List.isChain_cons_cons,
      betweenNeighbours_eq_nil_iff (hlower upper List.mem_cons_self)]
  | case2 l hshort =>
    rcases nil_or_single_of_short hshort with rfl | ⟨c, rfl⟩
    · simp
    · simp

/-- No issue is found in a walk if and only if every height is one above that of the predecessor. -/
theorem analyzeWalk_eq_nil_iff (l : List Height) (now : Moment) :
    analyzeWalk l now = [] ↔
      l.IsChain fun successor predecessor => successor.toInt = predecessor.toInt + 1 := by
  constructor
  · intro hnil
    have hfalling := risingLinks_eq_nil_iff.mp (List.append_eq_nil_iff.mp hnil).1
    rw [analyzeWalk_of_falling hfalling,
      scanAscending_eq_nil_iff (List.pairwise_reverse.mpr hfalling), List.isChain_reverse] at hnil
    exact hnil
  · intro hchain
    have hfalling : Falling l := by
      rw [falling_iff_isChain]
      refine hchain.imp fun successor predecessor hstep => ?_
      rw [ge_iff_le, Int64.le_iff_toInt_le]
      omega
    rw [analyzeWalk_of_falling hfalling,
      scanAscending_eq_nil_iff (List.pairwise_reverse.mpr hfalling), List.isChain_reverse]
    exact hchain

theorem analyzeWalk_short {l : List Height} (hshort : l.length ≤ 1) (now : Moment) :
    analyzeWalk l now = [] := by
  rw [analyzeWalk_eq_nil_iff]
  match l, hshort with
  | [], _ => exact .nil
  | [_], _ => exact .singleton _

end Walks

end ChainAudit.Chain
