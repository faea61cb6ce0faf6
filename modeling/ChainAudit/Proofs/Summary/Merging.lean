import ChainAudit.Proofs.Summary.Totals
import ChainAudit.Proofs.Table
import Mathlib.Algebra.BigOperators.Group.List.Basic
import Mathlib.Tactic.Tauto

/-!
# Totals put together in any way

Totals are a commutative monoid under merging, and adding a project is merging its own totals. So
totals depend on the findings that went into them alone, and their summary is the one that describes
these findings. The summary of two tables is that of one finding for each name in either of them.
-/

namespace ChainAudit

open ChainAudit.Chain

section Describing

private theorem leastHead_unique {heads : List Height} {a b : Height}
    (ha : a ∈ heads ∧ ∀ h ∈ heads, a ≤ h) (hb : b ∈ heads ∧ ∀ h ∈ heads, b ≤ h) : a = b :=
  Int64.le_antisymm (ha.2 b hb.1) (hb.2 a ha.1)

theorem Summary.Describes.unique {fs : List Finding} {s u : Summary} (hs : s.Describes fs)
    (hu : u.Describes fs) : s = u := by
  have hleast : s.minHeight = u.minHeight := by
    by_cases hnone : headsOf fs = []
    · rw [hs.noHead hnone, hu.noHead hnone]
    · exact leastHead_unique (hs.leastHead hnone) (hu.leastHead hnone)
  have htracked := hs.tracked.trans hu.tracked.symm
  have hissues := hs.withIssues.trans hu.withIssues.symm
  have hstuck := hs.stuck.trans hu.stuck.symm
  have hincomplete := hs.incomplete.trans hu.incomplete.symm
  have hall := hs.issues.trans hu.issues.symm
  have hgaps := hs.gaps.trans hu.gaps.symm
  have hduplicates := hs.duplicates.trans hu.duplicates.symm
  cases s
  cases u
  simp only at hleast htracked hissues hstuck hincomplete hall hgaps hduplicates
  simp only [hleast, htracked, hissues, hstuck, hincomplete, hall, hgaps, hduplicates]

end Describing

theorem lowerHead_comm (a b : Option Height) : lowerHead a b = lowerHead b a := by
  have hmin : ∀ x y : Height, min x y = min y x := Std.Commutative.comm
  cases a <;> cases b <;> simp [lowerHead, hmin]

theorem lowerHead_assoc (a b c : Option Height) :
    lowerHead (lowerHead a b) c = lowerHead a (lowerHead b c) := by
  have hmin : ∀ x y z : Height, min (min x y) z = min x (min y z) := Std.Associative.assoc
  cases a <;> cases b <;> cases c <;> simp [lowerHead, hmin]

theorem lowerHead_none (a : Option Height) : lowerHead none a = a := by
  cases a <;> rfl

namespace Totals

instance : Zero Totals := ⟨empty⟩

instance : Add Totals := ⟨merge⟩

theorem merge_comm (t u : Totals) : t.merge u = u.merge t := by
  simp only [merge, lowerHead_comm t.minHead, Nat.add_comm]

theorem merge_assoc (t u v : Totals) : (t.merge u).merge v = t.merge (u.merge v) := by
  simp only [merge, lowerHead_assoc, Nat.add_assoc]

theorem empty_merge (t : Totals) : empty.merge t = t := by
  simp only [merge, empty, lowerHead_none, Nat.zero_add]

instance : AddCommMonoid Totals where
  add_assoc := merge_assoc
  add_comm := merge_comm
  zero_add := empty_merge
  add_zero t := (merge_comm t empty).trans (empty_merge t)
  nsmul := nsmulRec

def single (f : Finding) : Totals := empty.add f

theorem add_eq_merge (t : Totals) (f : Finding) : t.add f = t + single f := by
  change t.add f = t.merge (empty.add f)
  simp only [merge, add, empty, lowerHead_none, Nat.zero_add]

theorem ofFindings_eq_sum (fs : List Finding) : ofFindings fs = (fs.map single).sum := by
  induction fs using List.reverseRecOn with
  | nil => rfl
  | append_singleton fs f ih =>
    rw [ofFindings_snoc, add_eq_merge, ih, List.map_append, List.sum_append, List.map_singleton,
      List.sum_singleton]

theorem ofFindings_append (fs gs : List Finding) :
    ofFindings (fs ++ gs) = (ofFindings fs).merge (ofFindings gs) := by
  simp only [ofFindings_eq_sum, List.map_append, List.sum_append]
  rfl

theorem ofFindings_perm {fs gs : List Finding} (h : fs.Perm gs) :
    ofFindings fs = ofFindings gs := by
  rw [ofFindings_eq_sum, ofFindings_eq_sum]
  exact (h.map single).sum_eq

end Totals

/-- A way to put totals together: start with none, add a project, merge what two ways came to. -/
inductive Assembly where
  | start
  | add (rest : Assembly) (f : Finding)
  | merge (left right : Assembly)

namespace Assembly

def totals : Assembly → Totals
  | .start => .empty
  | .add rest f => rest.totals.add f
  | .merge left right => left.totals.merge right.totals

def findings : Assembly → List Finding
  | .start => []
  | .add rest f => rest.findings ++ [f]
  | .merge left right => left.findings ++ right.findings

theorem totals_eq (p : Assembly) : p.totals = Totals.ofFindings p.findings := by
  induction p with
  | start => rfl
  | add rest f ih => rw [totals, findings, Totals.ofFindings_snoc, ih]
  | merge left right ihl ihr => rw [totals, findings, Totals.ofFindings_append, ihl, ihr]

end Assembly

/-- What two tables say of the projects of a list; the walks are taken to be complete. -/
def findingsOf (issues : Table (List Issue)) (heads : Table Height) (names : List String) :
    List Finding :=
  names.map fun name => ⟨(issues.get? name).getD [], heads.get? name, true⟩

theorem aggregate_eq (issues : Table (List Issue)) (heads : Table Height) {names : List String}
    (hnodup : names.Nodup)
    (hnames : ∀ name, name ∈ names ↔ name ∈ issues.names ∨ name ∈ heads.names) :
    aggregate issues heads = (Totals.ofFindings (findingsOf issues heads names)).summary := by
  have hperm : (issues.names ++ heads.names).eraseDups.Perm names := by
    rw [List.perm_ext_iff_of_nodup (eraseDups_nodup _) hnodup]
    intro name
    rw [List.mem_eraseDups, List.mem_append, hnames]
  have htotals := Totals.ofFindings_perm (hperm.map fun name =>
    (⟨(issues.get? name).getD [], heads.get? name, true⟩ : Finding))
  unfold aggregate findingsOf
  dsimp only
  rw [htotals]

/-- In whatever order findings are added, however they are split into groups and however the totals
of the groups are merged, the totals are the same and their summary is the one that describes the
findings. Two tables are summarized as one finding for each name in either of them. -/
theorem assembled_alike {fs : List Finding} {p : Assembly} (hp : p.findings.Perm fs) :
    p.totals = Totals.ofFindings fs ∧
      (∀ s : Summary, s.Describes fs ↔ s = p.totals.summary) ∧
      ∀ (issues : Table (List Issue)) (heads : Table Height) (names : List String),
        names.Nodup → (∀ name, name ∈ names ↔ name ∈ issues.names ∨ name ∈ heads.names) →
        fs.Perm (findingsOf issues heads names) → aggregate issues heads = p.totals.summary := by
  have htotals : p.totals = Totals.ofFindings fs :=
    p.totals_eq.trans (Totals.ofFindings_perm hp)
  rw [htotals]
  have hdescribes : (Totals.ofFindings fs).summary.Describes fs := Totals.summary_describes fs
  refine ⟨rfl, ?_, ?_⟩
  · intro s
    constructor
    · intro hs
      exact hs.unique hdescribes
    · rintro rfl
      exact hdescribes
  · intro issues heads names hnodup hnames hfs
    rw [aggregate_eq issues heads hnodup hnames, Totals.ofFindings_perm hfs]

/-- Issues of two projects, and the heads of one of them and of a third. -/
def someIssues : Table (List Issue) :=
  [("q", [.gap 4 6 0, .duplicate 7 0, .stuck 12 0]), ("p", [])]

def someHeads : Table Height := [("r", 5), ("q", 12)]

/-- The totals over the third project, merged with none, and with those over the other two. -/
def someAssembly : Assembly :=
  .merge (.merge (.add .start ⟨[], some 5, true⟩) .start)
    (.add (.add .start ⟨[.gap 4 6 0, .duplicate 7 0, .stuck 12 0], some 12, true⟩)
      ⟨[], none, true⟩)

theorem assembled_alike_three_projects :
    someAssembly.totals.summary = ⟨3, 1, 1, 0, 5, 3, 1, 1⟩ ∧
      aggregate someIssues someHeads = someAssembly.totals.summary := by
  have hp : someAssembly.findings.Perm (findingsOf someIssues someHeads ["p", "q", "r"]) := by
    decide
  have hnames : ∀ name, name ∈ ["p", "q", "r"] ↔
      name ∈ someIssues.names ∨ name ∈ someHeads.names := by
    intro name
    simp only [Table.names, someIssues, someHeads, List.map_cons, List.map_nil, List.mem_cons,
      List.not_mem_nil, or_false]
    tauto
  obtain ⟨htotals, _, haggregate⟩ := assembled_alike hp
  have hsummary : (Totals.ofFindings (findingsOf someIssues someHeads ["p", "q", "r"])).summary =
      ⟨3, 1, 1, 0, 5, 3, 1, 1⟩ := by decide
  refine ⟨?_, haggregate someIssues someHeads _ (by decide) hnames (List.Perm.refl _)⟩
  rw [htotals, hsummary]

end ChainAudit
