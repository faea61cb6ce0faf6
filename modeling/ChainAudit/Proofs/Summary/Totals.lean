import ChainAudit.Summary.Totals
import Mathlib.Algebra.BigOperators.Group.List.Basic
import Mathlib.Algebra.GroupWithZero.Nat
import Mathlib.Data.List.Induction

/-!
# What totals amount to

The totals over a list of findings are its counts and sums, and the least of its heads. Nothing in
them depends on the order in which the findings were added.
-/

namespace ChainAudit

open ChainAudit.Chain

def headsOf (fs : List Finding) : List Height := fs.filterMap (·.head)

/-- A summary says of findings what their counts and sums are, and the least head: zero if no head
was reached. -/
structure Summary.Describes (fs : List Finding) (s : Summary) : Prop where
  tracked : s.tracked = fs.length
  withIssues : s.withIssues = fs.countP fun f => !f.issues.isEmpty
  stuck : s.stuck = fs.countP fun f => f.issues.any fun i => i.kind == .stuck
  incomplete : s.incomplete = fs.countP fun f => !f.complete
  issues : s.issues = (fs.map fun f => f.issues.length).sum
  gaps : s.gaps = (fs.map fun f => f.issues.countP fun i => i.kind == .gap).sum
  duplicates : s.duplicates = (fs.map fun f => f.issues.countP fun i => i.kind == .duplicate).sum
  noHead : headsOf fs = [] → s.minHeight = 0
  leastHead : headsOf fs ≠ [] →
    s.minHeight ∈ headsOf fs ∧ ∀ h ∈ headsOf fs, s.minHeight ≤ h

namespace Totals

variable {fs : List Finding} {f : Finding}

theorem ofFindings_snoc (fs : List Finding) (f : Finding) :
    ofFindings (fs ++ [f]) = (ofFindings fs).add f := by
  rw [ofFindings, List.foldl_append]
  rfl

theorem ofFindings_counts (fs : List Finding) :
    (ofFindings fs).tracked = fs.length ∧
      (ofFindings fs).withIssues = fs.countP (fun f => !f.issues.isEmpty) ∧
      (ofFindings fs).stuck = fs.countP (fun f => f.issues.any fun i => i.kind == .stuck) ∧
      (ofFindings fs).incomplete = fs.countP (fun f => !f.complete) := by
  induction fs using List.reverseRecOn with
  | nil => exact ⟨rfl, rfl, rfl, rfl⟩
  | append_singleton fs f ih =>
    obtain ⟨htracked, hissues, hstuck, hincomplete⟩ := ih
    simp only [ofFindings_snoc, add, htracked, hissues, hstuck, hincomplete, List.countP_append,
      List.countP_singleton, List.length_append, List.length_singleton, Bool.not_eq_true',
      true_and]
    constructor
    · cases f.issues.isEmpty <;> rfl
    · cases f.complete <;> rfl

theorem ofFindings_sums (fs : List Finding) :
    (ofFindings fs).issues = (fs.map fun f => f.issues.length).sum ∧
      (ofFindings fs).gaps = (fs.map fun f => f.issues.countP fun i => i.kind == .gap).sum ∧
      (ofFindings fs).duplicates =
        (fs.map fun f => f.issues.countP fun i => i.kind == .duplicate).sum := by
  induction fs using List.reverseRecOn with
  | nil => exact ⟨rfl, rfl, rfl⟩
  | append_singleton fs f ih =>
    obtain ⟨hissues, hgaps, hduplicates⟩ := ih
    simp only [ofFindings_snoc, add, countKind, hissues, hgaps, hduplicates, List.map_append,
      List.sum_append, List.map_cons, List.map_nil, List.sum_singleton, and_self]

theorem headsOf_snoc (fs : List Finding) (f : Finding) :
    headsOf (fs ++ [f]) = headsOf fs ++ f.head.toList := by
  rw [headsOf, List.filterMap_append, ← headsOf]
  cases h : f.head <;> simp [h]

theorem lowerHead_le (least h : Height) :
    ∃ m, lowerHead (some least) (some h) = some m ∧ m ≤ least ∧ m ≤ h ∧ (m = least ∨ m = h) :=
  ⟨min least h, rfl, Std.min_le_left, Std.min_le_right, Std.MinEqOr.min_eq_or least h⟩

theorem ofFindings_minHead (fs : List Finding) :
    match (ofFindings fs).minHead with
    | none => headsOf fs = []
    | some least => least ∈ headsOf fs ∧ ∀ h ∈ headsOf fs, least ≤ h := by
  induction fs using List.reverseRecOn with
  | nil => rfl
  | append_singleton fs f ih =>
    have hadd : (ofFindings (fs ++ [f])).minHead = lowerHead (ofFindings fs).minHead f.head := by
      rw [ofFindings_snoc, add]
    rw [hadd, headsOf_snoc]
    cases hleast : (ofFindings fs).minHead with
    | none =>
      rw [hleast] at ih
      cases f.head <;> simp [lowerHead, ih]
    | some least =>
      rw [hleast] at ih
      obtain ⟨hmem, hle⟩ := ih
      cases f.head with
      | none => simpa [lowerHead] using ⟨hmem, hle⟩
      | some h =>
        obtain ⟨m, hm, hmleast, hmh, hmeq⟩ := lowerHead_le least h
        rw [hm]
        constructor
        · rcases hmeq with rfl | rfl
          · exact List.mem_append_left _ hmem
          · simp
        · intro h' hh'
          rcases List.mem_append.mp hh' with hin | hin
          · exact Int64.le_trans hmleast (hle h' hin)
          · rw [show h' = h by simpa using hin]
            exact hmh

theorem summary_describes (fs : List Finding) : (ofFindings fs).summary.Describes fs := by
  obtain ⟨htracked, hissues, hstuck, hincomplete⟩ := ofFindings_counts fs
  obtain ⟨hsum, hgaps, hduplicates⟩ := ofFindings_sums fs
  have hleast := ofFindings_minHead fs
  refine ⟨htracked, hissues, hstuck, hincomplete, hsum, hgaps, hduplicates, ?_, ?_⟩
  · intro hnone
    rw [summary]
    cases hmin : (ofFindings fs).minHead with
    | none => rfl
    | some least =>
      rw [hmin, hnone] at hleast
      exact absurd hleast.1 List.not_mem_nil
  · intro hsome
    rw [summary]
    cases hmin : (ofFindings fs).minHead with
    | none =>
      rw [hmin] at hleast
      exact absurd hleast hsome
    | some least =>
      rw [hmin] at hleast
      exact hleast

end Totals

end ChainAudit
