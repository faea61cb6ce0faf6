import ChainAudit.Proofs.Chain.Exact

/-!
# The two scans of a walk

A walk is scanned link by link as it goes, and then height by height in ascending order. The first
scan sees a link only where the predecessor stands above its successor, and the second one sees
only how often a height occurs. A link between equal heights is thus left to the second scan.
-/

namespace ChainAudit.Chain

open ChainAudit.Clock

variable {t : Int64}

/-- The links of a walk: every height together with that of its predecessor. -/
def links (heights : List Height) : List (Height × Height) := heights.zip heights.tail

private theorem links_cons (successor predecessor : Height) (rest : List Height) :
    links (successor :: predecessor :: rest) =
      (successor, predecessor) :: links (predecessor :: rest) := rfl

private theorem links_of_short {heights : List Height}
    (hshort : ∀ successor predecessor rest, heights = successor :: predecessor :: rest → False) :
    links heights = [] := by
  rcases nil_or_single_of_short hshort with rfl | ⟨h, rfl⟩
  · rfl
  · rfl

theorem isChain_iff_links {R : Height → Height → Prop} (heights : List Height) :
    heights.IsChain R ↔ ∀ link ∈ links heights, R link.1 link.2 := by
  induction heights with
  | nil => simp [links]
  | cons successor rest ih =>
    cases rest with
    | nil => simp [links]
    | cons predecessor rest => rw [List.isChain_cons_cons, ih, links_cons, List.forall_mem_cons]

theorem duplicatesAt_risingLinks (heights : List Height) (h : Height) :
    duplicatesAt h (risingLinks t heights) =
      (links heights).countP fun link => link.2 = h ∧ link.1 < h := by
  fun_induction risingLinks t heights with
  | case1 successor predecessor rest ih =>
    have hlink : duplicatesAt h
        (if successor < predecessor then [.duplicate predecessor t] else []) =
          if predecessor = h ∧ successor < h then 1 else 0 := by
      by_cases hh : predecessor = h
      · subst hh
        by_cases hlt : successor < predecessor <;> simp [duplicatesAt, Issue.duplicate, hlt]
      · by_cases hlt : successor < predecessor <;> simp [duplicatesAt, Issue.duplicate, hlt, hh]
    rw [duplicatesAt_append, ih, hlink, links_cons, List.countP_cons, Nat.add_comm]
    simp only [decide_eq_true_eq]
  | case2 heights hshort =>
    rw [links_of_short hshort]
    rfl

theorem filter_gap_risingLinks (heights : List Height) :
    (risingLinks t heights).filter (·.kind = .gap) = [] := by
  rw [List.filter_eq_nil_iff]
  intro i hi hgap
  rw [risingLinks_kind i hi] at hgap
  exact absurd hgap (by decide)

theorem duplicatesAt_analyze (heights : List Height) (now : Moment) (h : Height) :
    duplicatesAt h (analyze heights now) = heights.count h - 1 := by
  rw [analyze, duplicatesAt_scan (ascending_rising heights), (ascending_perm heights).count_eq]

/-- No issue is found in a walk if and only if every link falls by one. The gaps are those of the
heights alone. A height is a duplicate once for every link in which it stands above its successor,
which only the first scan reports, and once for every occurrence beyond the first, which only the
second one reports. -/
theorem analyzeWalk_scans (heights : List Height) (now : Moment) :
    (analyzeWalk heights now = [] ↔
      ∀ link ∈ links heights, link.1.toInt = link.2.toInt + 1) ∧
    (analyzeWalk heights now).filter (·.kind = .gap) =
      (analyze heights now).filter (·.kind = .gap) ∧
    ∀ h,
      duplicatesAt h (risingLinks (Int64.ofInt now.seconds) heights) =
        (links heights).countP (fun link => link.2 = h ∧ link.1 < h) ∧
      duplicatesAt h (analyze heights now) = heights.count h - 1 ∧
      duplicatesAt h (analyzeWalk heights now) =
        (links heights).countP (fun link => link.2 = h ∧ link.1 < h) + (heights.count h - 1) := by
  refine ⟨?_, ?_, fun h => ⟨duplicatesAt_risingLinks heights h, duplicatesAt_analyze heights now h,
    ?_⟩⟩
  · rw [analyzeWalk_eq_nil_iff, isChain_iff_links]
  · rw [analyzeWalk, List.filter_append, filter_gap_risingLinks, List.nil_append]
  · rw [analyzeWalk, duplicatesAt_append, duplicatesAt_risingLinks, duplicatesAt_analyze]

end ChainAudit.Chain
