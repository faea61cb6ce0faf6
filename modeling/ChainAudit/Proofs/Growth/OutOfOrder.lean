import ChainAudit.Proofs.Growth.Chain

/-!
# Chains whose heights may fall

A walk ends at the first node that is not above the verified height, whatever lies behind it. If
heights fall somewhere along the chain, nodes behind that one may be higher, and a gap that is
reported above it may hold their heights. Heights that the pass visited are never in a gap, nor are
those behind that do not exceed the height at which the walk ended.
-/

namespace ChainAudit

open ChainAudit.Chain ChainAudit.Clock ChainAudit.Store

/-- Whether a height lies in a gap among issues. -/
def InGap (h : Height) (issues : List Issue) : Prop :=
  ∃ g ∈ gapRanges issues, g.1 ≤ h ∧ h ≤ g.2

theorem untilVerified_least {verified : Option Height} {heights : List Height} {h : Height}
    (hmem : h ∈ heights) (hout : h ∉ untilVerified verified heights) :
    ∃ last, (untilVerified verified heights).getLast? = some last ∧
      ∀ a ∈ untilVerified verified heights, last ≤ a := by
  -- the induction needs that the last one was verified: all before it are above that height
  suffices hend : ∃ last, (untilVerified verified heights).getLast? = some last ∧
      verified.any (last ≤ ·) = true ∧ ∀ a ∈ untilVerified verified heights, last ≤ a by
    obtain ⟨last, hlast, _, hleast⟩ := hend
    exact ⟨last, hlast, hleast⟩
  induction heights with
  | nil => exact absurd hmem List.not_mem_nil
  | cons x rest ih =>
    rw [untilVerified] at hout ⊢
    split at hout
    · rename_i hdown
      rw [if_pos hdown]
      refine ⟨x, rfl, hdown, ?_⟩
      intro a ha
      rw [List.mem_singleton.mp ha]
      exact Int64.le_refl _
    · rename_i hup
      rw [if_neg hup]
      have hne : h ≠ x := fun heq => hout (heq ▸ List.mem_cons_self)
      have hrest : h ∈ rest := (List.mem_cons.mp hmem).resolve_left hne
      obtain ⟨last, hlast, hdown, hleast⟩ :=
        ih hrest fun hin => hout (List.mem_cons_of_mem _ hin)
      refine ⟨last, ?_, hdown, ?_⟩
      · rw [List.getLast?_cons, hlast]
        rfl
      · intro a ha
        rcases List.mem_cons.mp ha with rfl | ha
        · obtain ⟨v, rfl, hv⟩ : ∃ v, verified = some v ∧ last ≤ v := by
            simpa [Option.any_eq_true] using hdown
          have hva : v < a := Int64.not_le.mp (by simpa using hup)
          exact Int64.le_of_lt (Int64.lt_of_le_of_lt hv hva)
        · exact hleast a ha

section Passes

variable [Limiter.Quantity α] {chain : GrowingChain} {p : String} {n : Nat} {tracker : Tracker}
variable {passes : List (Pass α ω)} {lengths : List Nat} {e : Auditor.PassEnd α ω}

/-- The greatest height that the newest node had at any of the lengths of a list. -/
def GrowingChain.highestHead (chain : GrowingChain) (lengths : List Nat) : Option Height :=
  lengths.foldl (fun highest n =>
    match (chain.heightsAt n).getLast? with
    | none => highest
    | some h => some (Tracker.raise h highest)) none

/-- The heights that a pass visits, the newest first, which follows passes at other lengths. -/
def GrowingChain.visitedAfter (chain : GrowingChain) (earlier : List Nat) (n : Nat) :
    List Height :=
  chain.visitedAt n (chain.highestHead earlier)

theorem runAll_covers {earlier : List Nat}
    (hsees : List.Forall₂ (fun q n => q.Sees chain p n) passes lengths)
    (hcomplete : ∀ e ∈ Pass.runAll tracker passes, e.isComplete p = true)
    (hverified : tracker.verified? p = chain.highestHead earlier) {i : Nat}
    (he : (Pass.runAll tracker passes)[i]? = some e) (hn : lengths[i]? = some n) :
    ∃ r now, e.project? p = some r ∧
      Pass.Covers chain n (chain.highestHead (earlier ++ lengths.take i)) now r := by
  -- the tracker carries the highest head of the lengths before from pass to pass
  induction hsees generalizing tracker earlier i with
  | nil => cases hn
  | @cons q n' passes lengths hq _ ih =>
    have hqcomplete := hcomplete _ List.mem_cons_self
    cases i with
    | zero =>
      obtain rfl := Option.some.inj he
      obtain rfl := Option.some.inj hn
      obtain ⟨r, hr, hrcomplete, _⟩ := (q.run tracker).exists_complete hqcomplete
      refine ⟨r, q.now, hr, ?_⟩
      rw [List.take_zero, List.append_nil, ← hverified]
      exact Pass.sees_covers hq hr hrcomplete
    | succ i =>
      have hnext : (q.run tracker).tracker.verified? p = chain.highestHead (earlier ++ [n']) := by
        rw [Pass.verified?_run hq hqcomplete, hverified, GrowingChain.highestHead,
          GrowingChain.highestHead, List.foldl_append]
        rfl
      rw [List.take_succ_cons, List.append_cons]
      exact ih (fun e he => hcomplete e (List.mem_cons_of_mem _ he)) hnext he hn

/-- In every pass of a series, a gap holds the height of a node if and only if that height is above
the node at which the walk ended, below some visited node, and not that of a visited node. -/
theorem gap_holds_height_iff
    (hsees : List.Forall₂ (fun q n => q.Sees chain p n) passes lengths)
    (hcomplete : ∀ e ∈ Pass.runAll [] passes, e.isComplete p = true) {i : Nat}
    (he : (Pass.runAll [] passes)[i]? = some e) (hn : lengths[i]? = some n) :
    ∃ r, e.project? p = some r ∧
      r.nodesWalked = (chain.visitedAfter (lengths.take i) n).length ∧
      ∀ h ∈ chain.heightsAt n, InGap h r.issues ↔
        h ∉ chain.visitedAfter (lengths.take i) n ∧
          (∃ last ∈ (chain.visitedAfter (lengths.take i) n).getLast?, last < h) ∧
          ∃ above ∈ chain.visitedAfter (lengths.take i) n, h < above := by
  have hempty : Tracker.verified? p [] = chain.highestHead [] := rfl
  obtain ⟨r, now, hr, hcovers⟩ := runAll_covers hsees hcomplete hempty he hn
  rw [List.nil_append] at hcovers
  refine ⟨r, hr, hcovers.nodesWalked, ?_⟩
  intro h hnode
  rw [InGap, hcovers.gapRanges_eq, gap_analyze_iff, GrowingChain.visitedAfter]
  constructor
  · rintro ⟨hout, ⟨a, ha, hah⟩, habove⟩
    obtain ⟨last, hlast, hleast⟩ := untilVerified_least (List.mem_reverse.mpr hnode) hout
    exact ⟨hout, ⟨last, hlast, Int64.lt_of_le_of_lt (hleast a ha) hah⟩, habove⟩
  · rintro ⟨hout, ⟨last, hlast, hlt⟩, habove⟩
    exact ⟨hout, ⟨last, List.mem_of_getLast? hlast, hlt⟩, habove⟩

end Passes

section Detour

/-- Three nodes, of which the second one is lower than the first one. -/
def detourNodes : Memory := .ofChain [("n1", 5), ("n2", 3), ("n3", 9)]

def detourChain : GrowingChain where
  blocks := ["n1", "n2", "n3"].map detourNodes.block
  distinct := by decide +kernel
  named := by decide +kernel
  first := by decide +kernel
  linked := by decide +kernel

/-- Passes over the first one and over all of these nodes. -/
def detourPasses : List (Pass Rat Memory) :=
  ["n1", "n3"].map fun head => .ofMemory "p" head detourNodes

private theorem detour_nodes : ∀ cid ∈ ["n1", "n2", "n3"], (detourNodes.node? cid).isSome := by
  decide +kernel

private theorem detour_sees :
    List.Forall₂ (fun q n => q.Sees detourChain "p" n) detourPasses [1, 3] :=
  .cons (Pass.ofMemory_sees rfl detour_nodes rfl)
    (.cons (Pass.ofMemory_sees rfl detour_nodes rfl) .nil)

private theorem detour_complete :
    ∀ e ∈ Pass.runAll [] detourPasses, e.isComplete "p" = true := by
  decide +kernel

theorem gap_holds_height_iff_detour :
    ∃ e ∈ (Pass.runAll [] detourPasses)[1]?, ∃ r, e.project? "p" = some r ∧
      r.nodesWalked = (detourChain.visitedAfter [1] 3).length ∧
      ∀ h ∈ detourChain.heightsAt 3, InGap h r.issues ↔
        h ∉ detourChain.visitedAfter [1] 3 ∧
          (∃ last ∈ (detourChain.visitedAfter [1] 3).getLast?, last < h) ∧
          ∃ above ∈ detourChain.visitedAfter [1] 3, h < above :=
  ⟨_, rfl, gap_holds_height_iff detour_sees detour_complete (i := 1) rfl rfl⟩

/-- The walk of the second pass ends at the lower node, and the gap that is reported above it holds
the height of the node behind. -/
theorem gap_holds_height_behind :
    List.Forall₂ (fun q n => q.Sees detourChain "p" n) detourPasses [1, 3] ∧
      [1, 3].Pairwise (· ≤ ·) ∧
      (∀ e ∈ Pass.runAll [] detourPasses, e.isComplete "p" = true) ∧
      5 ∈ detourChain.heightsAt 3 ∧
      ∃ e ∈ (Pass.runAll [] detourPasses)[1]?, InGap 5 (e.issuesOn "p") := by
  refine ⟨detour_sees, by decide, detour_complete, by decide +kernel, _, rfl, ?_⟩
  have hsees : (Pass.ofMemory "p" "n3" detourNodes).Sees detourChain "p" 3 :=
    Pass.ofMemory_sees rfl detour_nodes rfl
  rw [InGap, Pass.gapRanges_run hsees (detour_complete _ (by simp [detourPasses, Pass.runAll])),
    gap_analyze_iff]
  decide +kernel

end Detour

end ChainAudit
