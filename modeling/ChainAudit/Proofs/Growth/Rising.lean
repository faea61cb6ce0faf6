import ChainAudit.Proofs.Growth.Chain
import Mathlib.Data.List.Pairwise

/-!
# Chains whose heights never fall

Where the heights never fall along a chain, the passes over it find every gap once, just as one
analysis of all its heights does. A duplicate is found as long as it is seen by the pass that is
the first one to see its height; a node that is appended at a verified height is not found.
-/

namespace ChainAudit

open ChainAudit.Chain ChainAudit.Clock ChainAudit.Store

section Boundary

variable {t : Int64}

private theorem pairwise_last {β : Type} {R : β → β → Prop} [Std.Refl R] {l : List β}
    (hl : l.Pairwise R) {last : β} (hlast : l.getLast? = some last) : ∀ b ∈ l, R b last := by
  intro b hb
  have hgreatest := hl.rel_getLast hb
  rwa [(List.getLast_eq_iff_getLast?_eq_some _).mpr hlast] at hgreatest

theorem rising_le_last {l : List Height} (hl : Rising l) {last : Height}
    (hlast : l.getLast? = some last) : ∀ h ∈ l, h ≤ last :=
  pairwise_last hl hlast

theorem length_le_last {lengths : List Nat} (hgrow : lengths.Pairwise (· ≤ ·)) {n : Nat}
    (hn : n ∈ lengths) : n ≤ lengths.getLastD 0 := by
  cases hlast : lengths.getLast? with
  | none =>
    rw [List.getLast?_eq_none_iff.mp hlast] at hn
    exact absurd hn List.not_mem_nil
  | some last =>
    rw [List.getLastD_eq_getLast?, hlast]
    exact pairwise_last hgrow hlast n hn

private theorem gapRanges_scan_snoc (l : List Height) (last h : Height) :
    gapRanges (scanAscending t (l ++ [last] ++ [h])) =
      gapRanges (scanAscending t (l ++ [last])) ++ gapRanges (scanAscending t [last, h]) := by
  rw [List.append_assoc, List.singleton_append, scanAscending_append, gapRanges_append]

private theorem gapRanges_scan_twice (h : Height) : gapRanges (scanAscending t [h, h]) = [] := by
  simp [scanAscending, betweenNeighbours, gapRanges, Issue.duplicate]

/-- The gaps of a chain are those below a boundary, and those that a walk finds which goes from the
newest node down to the first one that is not above the boundary. -/
theorem gapRanges_boundary {old new : List Height} (hl : Rising (old ++ new)) :
    gapRanges (scanAscending t (old ++ new)) = gapRanges (scanAscending t old) ++
      gapRanges (scanAscending t (untilVerified old.getLast? (old ++ new).reverse).reverse) := by
  -- from the newest node down, as the walk goes: either it repeats the boundary and ends the walk,
  -- or it adds what lies between it and the node below
  induction new using List.reverseRecOn with
  | nil =>
    cases hlast : old.getLast? with
    | none =>
      obtain rfl := List.getLast?_eq_none_iff.mp hlast
      rfl
    | some v =>
      obtain ⟨init, rfl⟩ := List.getLast?_eq_some_iff.mp hlast
      simp [untilVerified, scanAscending, gapRanges]
  | append_singleton new h ih =>
    rw [← List.append_assoc] at hl ⊢
    have hbelow := ih (List.pairwise_append.mp hl).1
    rw [List.reverse_append, List.reverse_singleton, List.singleton_append, untilVerified]
    cases hlast : (old ++ new).getLast? with
    | none =>
      obtain ⟨rfl, rfl⟩ := List.append_eq_nil_iff.mp (List.getLast?_eq_none_iff.mp hlast)
      rfl
    | some last =>
      obtain ⟨init, hinit⟩ := List.getLast?_eq_some_iff.mp hlast
      have hle : last ≤ h := by
        rw [hinit] at hl
        exact (List.pairwise_append.mp hl).2.2 last (by simp) h (List.mem_singleton_self _)
      rw [hinit, gapRanges_scan_snoc, ← hinit, hbelow]
      split
      · -- the new node repeats the height of the boundary, as does the one below it
        rename_i hdown
        obtain ⟨v, hv, hhv⟩ : ∃ v, old.getLast? = some v ∧ h ≤ v := by
          simpa [Option.any_eq_true] using hdown
        have hvlast : v ≤ last := rising_le_last (List.pairwise_append.mp hl).1 hlast v
          (List.mem_append_left _ (List.mem_of_getLast? hv))
        obtain rfl : h = last := Int64.le_antisymm (Int64.le_trans hhv hvlast) hle
        have hone : untilVerified old.getLast? (old ++ new).reverse = [h] := by
          rw [hinit, List.reverse_append, List.reverse_singleton, List.singleton_append,
            untilVerified, if_pos hdown]
        rw [hone, gapRanges_scan_twice, List.append_nil]
      · have hhead := untilVerified_head? old.getLast? (old ++ new).reverse
        rw [List.head?_reverse, hlast] at hhead
        obtain ⟨above, habove⟩ := List.head?_eq_some_iff.mp hhead
        rw [habove, List.reverse_cons, List.reverse_cons, List.reverse_cons, gapRanges_scan_snoc,
          List.append_assoc]

private theorem count_untilVerified_le {h v : Height} (hle : h ≤ v) (l : List Height) :
    (untilVerified (some v) l).count h ≤ 1 := by
  induction l with
  | nil => exact Nat.zero_le 1
  | cons x rest ih =>
    rw [untilVerified]
    split
    · exact List.count_le_length
    · rename_i hup
      have hne : x ≠ h := by
        rintro rfl
        exact hup (by simpa using hle)
      rw [List.count_cons_of_ne hne]
      exact ih

private theorem count_untilVerified_above {h v : Height} (hlt : v < h) {l : List Height}
    (hl : Falling l) : (untilVerified (some v) l).count h = l.count h := by
  induction l with
  | nil => rfl
  | cons x rest ih =>
    obtain ⟨hx, hrest⟩ := List.pairwise_cons.mp hl
    rw [untilVerified]
    split
    · rename_i hdown
      have hxv : x ≤ v := by simpa using hdown
      have hnone : h ∉ rest := by
        intro hmem
        exact Int64.not_le.mpr hlt (Int64.le_trans (hx h hmem) hxv)
      rw [List.count_cons, List.count_cons, List.count_eq_zero.mpr hnone, List.count_nil]
    · rw [List.count_cons, List.count_cons, ih hrest]

/-- A walk down to a boundary meets a height of the old part at most once, and any other one as
often as the whole chain has it. -/
theorem count_boundary {old new : List Height} (hl : Rising (old ++ new)) (h : Height) :
    (untilVerified old.getLast? (old ++ new).reverse).count h - 1 =
      if h ∈ old then 0 else (old ++ new).count h - 1 := by
  cases hlast : old.getLast? with
  | none =>
    obtain rfl := List.getLast?_eq_none_iff.mp hlast
    rw [untilVerified_none, List.count_reverse, if_neg List.not_mem_nil]
  | some v =>
    obtain ⟨hold, _, hnew⟩ := List.pairwise_append.mp hl
    have hv : v ∈ old := List.mem_of_getLast? hlast
    split
    · rename_i hmem
      have hle := count_untilVerified_le (rising_le_last hold hlast h hmem) (old ++ new).reverse
      omega
    · rename_i hmem
      by_cases hlt : v < h
      · rw [count_untilVerified_above hlt (List.pairwise_reverse.mpr hl), List.count_reverse]
      · have hnone : h ∉ old ++ new := by
          intro hboth
          rcases List.mem_append.mp hboth with hin | hin
          · exact hmem hin
          · have heq := Int64.le_antisymm (Int64.not_lt.mp hlt) (hnew v hv h hin)
            exact hmem (heq ▸ hv)
        have hvisited : h ∉ untilVerified (some v) (old ++ new).reverse := by
          intro hin
          exact hnone (List.mem_reverse.mp ((untilVerified_initial _ _).subset hin))
        rw [List.count_eq_zero.mpr hvisited, List.count_eq_zero.mpr hnone]

end Boundary

section Reports

/-- How often passes report a height as a duplicate, taken together. -/
def duplicatesReported (p : String) (h : Height) (ends : List (Auditor.PassEnd α ω)) : Nat :=
  duplicatesAt h (ends.flatMap fun e => e.issuesOn p)

private theorem duplicatesReported_cons (p : String) (h : Height) (e : Auditor.PassEnd α ω)
    (ends : List (Auditor.PassEnd α ω)) : duplicatesReported p h (e :: ends) =
      duplicatesAt h (e.issuesOn p) + duplicatesReported p h ends := by
  rw [duplicatesReported, List.flatMap_cons, duplicatesAt_append]
  rfl

/-- What is listed once over all passes is reported by one pass only. -/
theorem existsUnique_of_nodup_flatMap {ε β : Type} {ends : List ε} {f : ε → List β}
    (hnodup : (ends.flatMap f).Nodup) {b : β} (hb : b ∈ ends.flatMap f) :
    ∃! i : Nat, ∃ e, ends[i]? = some e ∧ b ∈ f e := by
  have hapart := (List.nodup_flatMap.mp hnodup).2
  have honce : ∀ (i j : Nat) e e', i < j → ends[i]? = some e → ends[j]? = some e' → b ∈ f e →
      b ∉ f e' := by
    intro i j e e' hij hi hj he he'
    obtain ⟨hilt, rfl⟩ := List.getElem?_eq_some_iff.mp hi
    obtain ⟨hjlt, rfl⟩ := List.getElem?_eq_some_iff.mp hj
    exact List.pairwise_iff_getElem.mp hapart i j hilt hjlt hij he he'
  obtain ⟨e, he, hbe⟩ := List.mem_flatMap.mp hb
  obtain ⟨i, hi⟩ := List.mem_iff_getElem?.mp he
  refine ⟨i, ⟨e, hi, hbe⟩, ?_⟩
  rintro j ⟨e', hj, hbe'⟩
  rcases Nat.lt_trichotomy i j with hij | hij | hij
  · exact absurd hbe' (honce i j e e' hij hi hj hbe)
  · exact hij.symm
  · exact absurd hbe (honce j i e' e hij hj hi hbe')

end Reports

section Series

variable [Limiter.Quantity α] {chain : GrowingChain} {p : String} {m n : Nat} {tracker : Tracker}
variable {q : Pass α ω} {passes : List (Pass α ω)} {lengths : List Nat}

/-- The heights of a chain never fall. -/
def GrowingChain.NeverFalls (chain : GrowingChain) : Prop := Rising (chain.blocks.map Block.height)

theorem GrowingChain.NeverFalls.heightsAt (hchain : chain.NeverFalls) (n : Nat) :
    Rising (chain.heightsAt n) := by
  rw [GrowingChain.heightsAt, List.map_take]
  exact List.Pairwise.sublist (List.take_sublist _ _) hchain

/-- Passes that go on from the first `m` nodes of a chain: each of them is complete, sees no fewer
nodes than the one before, and knows as verified the height of the newest node seen by then. -/
inductive GoOn (chain : GrowingChain) (p : String) :
    Nat → Tracker → List (Pass α ω) → List Nat → Prop
  | nil {m : Nat} {tracker : Tracker} : GoOn chain p m tracker [] []
  | cons {m n : Nat} {tracker : Tracker} {q : Pass α ω} {passes : List (Pass α ω)}
      {lengths : List Nat} (hle : m ≤ n) (hsees : q.Sees chain p n)
      (hcomplete : (q.run tracker).isComplete p = true)
      (hverified : tracker.verified? p = (chain.heightsAt m).getLast?)
      (hrest : GoOn chain p n (q.run tracker).tracker passes lengths) :
      GoOn chain p m tracker (q :: passes) (n :: lengths)

theorem verified?_run_newest (hchain : chain.NeverFalls) (hle : m ≤ n)
    (hsees : q.Sees chain p n) (hcomplete : (q.run tracker).isComplete p = true)
    (hverified : tracker.verified? p = (chain.heightsAt m).getLast?) :
    (q.run tracker).tracker.verified? p = (chain.heightsAt n).getLast? := by
  obtain ⟨new, hnew⟩ := chain.heightsAt_append hle
  rw [Pass.verified?_run hsees hcomplete, hverified]
  cases hlast : (chain.heightsAt n).getLast? with
  | none =>
    rw [List.getLast?_eq_none_iff, hnew] at hlast
    rw [(List.append_eq_nil_iff.mp hlast).1]
    rfl
  | some h =>
    cases hold : (chain.heightsAt m).getLast? with
    | none => rfl
    | some v =>
      have hmem : v ∈ chain.heightsAt n := by
        rw [hnew]
        exact List.mem_append_left _ (List.mem_of_getLast? hold)
      have hvh := rising_le_last (hchain.heightsAt n) hlast v hmem
      change some (if v ≤ h then h else v) = some h
      rw [if_pos hvh]

theorem goOn_of_complete (hchain : chain.NeverFalls)
    (hsees : List.Forall₂ (fun q n => q.Sees chain p n) passes lengths)
    (hgrow : (m :: lengths).Pairwise (· ≤ ·))
    (hcomplete : ∀ e ∈ Pass.runAll tracker passes, e.isComplete p = true)
    (hverified : tracker.verified? p = (chain.heightsAt m).getLast?) :
    GoOn chain p m tracker passes lengths := by
  induction hsees generalizing m tracker with
  | nil => exact .nil
  | @cons q n passes lengths hq _ ih =>
    obtain ⟨hle, hgrow'⟩ := List.pairwise_cons.mp hgrow
    have hm := hle n List.mem_cons_self
    have hqcomplete := hcomplete _ List.mem_cons_self
    refine .cons hm hq hqcomplete hverified (ih hgrow' ?_ ?_)
    · intro e he
      exact hcomplete e (List.mem_cons_of_mem _ he)
    · exact verified?_run_newest hchain hm hq hqcomplete hverified

/-- A series of complete passes goes on from the empty chain. -/
theorem goOn_from_start (hchain : chain.NeverFalls)
    (hsees : List.Forall₂ (fun q n => q.Sees chain p n) passes lengths)
    (hgrow : lengths.Pairwise (· ≤ ·))
    (hcomplete : ∀ e ∈ Pass.runAll [] passes, e.isComplete p = true) :
    GoOn chain p 0 [] passes lengths :=
  goOn_of_complete hchain hsees (List.pairwise_cons.mpr ⟨fun _ _ => Nat.zero_le _, hgrow⟩)
    hcomplete rfl

theorem goOn_verified (hchain : chain.NeverFalls) (h : GoOn chain p m tracker passes lengths) :
    List.Forall₂ (fun e n => e.tracker.verified? p = (chain.heightsAt n).getLast?)
      (Pass.runAll tracker passes) lengths := by
  induction h with
  | nil => exact .nil
  | cons hle hsees hcomplete hverified _ ih =>
    exact .cons (verified?_run_newest hchain hle hsees hcomplete hverified) ih

private theorem visitedAt_falling (hchain : chain.NeverFalls) (n : Nat) (verified : Option Height) :
    Falling (chain.visitedAt n verified) :=
  List.Pairwise.sublist (untilVerified_initial _ _).sublist
    (List.pairwise_reverse.mpr (hchain.heightsAt n))

/-- The gaps of a longer part of a chain are those of a shorter one and those that the pass over
the longer part reports. -/
theorem gapRanges_run_newest (hchain : chain.NeverFalls) (hle : m ≤ n) (hsees : q.Sees chain p n)
    (hcomplete : (q.run tracker).isComplete p = true)
    (hverified : tracker.verified? p = (chain.heightsAt m).getLast?) (now : Moment) :
    gapRanges (analyze (chain.heightsAt n) now) = gapRanges (analyze (chain.heightsAt m) now) ++
      gapRanges ((q.run tracker).issuesOn p) := by
  obtain ⟨new, hnew⟩ := chain.heightsAt_append hle
  have hrising := hchain.heightsAt n
  rw [Pass.gapRanges_run hsees hcomplete, hverified, analyze, analyze, analyze,
    ascending_of_rising hrising, ascending_of_rising (hchain.heightsAt m),
    ascending_of_falling (visitedAt_falling hchain n _),
    gapRanges_scan_time _ (Int64.ofInt now.seconds) (List.reverse _), GrowingChain.visitedAt]
  rw [hnew] at hrising ⊢
  exact gapRanges_boundary hrising

theorem goOn_gapRanges (hchain : chain.NeverFalls) (h : GoOn chain p m tracker passes lengths)
    (now : Moment) :
    gapRanges (analyze (chain.heightsAt (lengths.getLastD m)) now) =
      gapRanges (analyze (chain.heightsAt m) now) ++
        (Pass.runAll tracker passes).flatMap fun e => gapRanges (e.issuesOn p) := by
  induction h with
  | nil => rw [Pass.runAll, List.flatMap_nil, List.append_nil]; rfl
  | cons hle hsees hcomplete hverified _ ih =>
    rw [List.getLastD_cons, ih, gapRanges_run_newest hchain hle hsees hcomplete hverified now,
      Pass.runAll, List.flatMap_cons, List.append_assoc]

/-- A pass over a longer part of a chain reports no duplicate at a height of the shorter one, and
at any other height one less than there are nodes. -/
theorem duplicatesAt_run_newest (hchain : chain.NeverFalls) (hle : m ≤ n)
    (hsees : q.Sees chain p n) (hcomplete : (q.run tracker).isComplete p = true)
    (hverified : tracker.verified? p = (chain.heightsAt m).getLast?) (h : Height) :
    duplicatesAt h ((q.run tracker).issuesOn p) =
      if h ∈ chain.heightsAt m then 0 else (chain.heightsAt n).count h - 1 := by
  obtain ⟨new, hnew⟩ := chain.heightsAt_append hle
  have hrising := hchain.heightsAt n
  have hfalling := visitedAt_falling hchain n (tracker.verified? p)
  rw [Pass.duplicatesAt_run hsees hcomplete, analyzeWalk_of_falling hfalling,
    duplicatesAt_scan (List.pairwise_reverse.mpr hfalling), List.count_reverse,
    GrowingChain.visitedAt, hverified]
  rw [hnew] at hrising ⊢
  exact count_boundary hrising h

private theorem goOn_duplicates_seen (hchain : chain.NeverFalls)
    (hgo : GoOn chain p m tracker passes lengths) {h : Height} (hseen : h ∈ chain.heightsAt m) :
    duplicatesReported p h (Pass.runAll tracker passes) = 0 := by
  induction hgo with
  | nil => rfl
  | @cons m n _ _ _ _ hle hsees hcomplete hverified _ ih =>
    obtain ⟨new, hnew⟩ := chain.heightsAt_append hle
    have hn : h ∈ chain.heightsAt n := by
      rw [hnew]
      exact List.mem_append_left _ hseen
    rw [Pass.runAll, duplicatesReported_cons,
      duplicatesAt_run_newest hchain hle hsees hcomplete hverified, if_pos hseen, ih hn]

theorem goOn_duplicates (hchain : chain.NeverFalls)
    (hgo : GoOn chain p m tracker passes lengths) {h : Height} (hunseen : h ∉ chain.heightsAt m)
    (hfirst : lengths.find? (fun n => h ∈ chain.heightsAt n) = some n) :
    duplicatesReported p h (Pass.runAll tracker passes) = (chain.heightsAt n).count h - 1 := by
  induction hgo with
  | nil => cases hfirst
  | @cons m n' _ _ _ _ hle hsees hcomplete hverified hrest ih =>
    rw [Pass.runAll, duplicatesReported_cons,
      duplicatesAt_run_newest hchain hle hsees hcomplete hverified, if_neg hunseen]
    by_cases hseen : h ∈ chain.heightsAt n'
    · rw [List.find?_cons_of_pos (by simpa using hseen)] at hfirst
      obtain rfl := Option.some.inj hfirst
      rw [goOn_duplicates_seen hchain hrest hseen, Nat.add_zero]
    · rw [List.find?_cons_of_neg (by simpa using hseen)] at hfirst
      rw [List.count_eq_zero.mpr hseen, ih hseen hfirst, Nat.zero_sub, Nat.zero_add]

/-- Over all passes together, the gaps are those that one analysis of the chain finds, each of
them in one pass, and after each pass the height of the newest node is verified. -/
theorem gaps_found_once (hchain : chain.NeverFalls)
    (hsees : List.Forall₂ (fun q n => q.Sees chain p n) passes lengths)
    (hgrow : lengths.Pairwise (· ≤ ·))
    (hcomplete : ∀ e ∈ Pass.runAll [] passes, e.isComplete p = true) (now : Moment) :
    ((Pass.runAll [] passes).flatMap fun e => gapRanges (e.issuesOn p)) =
        gapRanges (analyze (chain.heightsAt (lengths.getLastD 0)) now) ∧
      (∀ g ∈ gapRanges (analyze (chain.heightsAt (lengths.getLastD 0)) now),
        ∃! i : Nat, ∃ e, (Pass.runAll [] passes)[i]? = some e ∧ g ∈ gapRanges (e.issuesOn p)) ∧
      List.Forall₂ (fun e n => e.tracker.verified? p = (chain.heightsAt n).getLast?)
        (Pass.runAll [] passes) lengths := by
  have hgo := goOn_from_start hchain hsees hgrow hcomplete
  have hall : ((Pass.runAll [] passes).flatMap fun e => gapRanges (e.issuesOn p)) =
      gapRanges (analyze (chain.heightsAt (lengths.getLastD 0)) now) := by
    have hnil : gapRanges (analyze (chain.heightsAt 0) now) = [] := by
      rw [analyze, ascending_of_rising (hchain.heightsAt 0)]
      rfl
    rw [goOn_gapRanges hchain hgo now, hnil, List.nil_append]
  refine ⟨hall, ?_, goOn_verified hchain hgo⟩
  intro g hg
  rw [← hall] at hg
  refine existsUnique_of_nodup_flatMap ?_ hg
  rw [hall]
  exact gapRanges_scan_nodup (ascending_rising _)

/-- Five nodes, of which three have the same height between two gaps. -/
def terraceNodes : Memory :=
  .ofChain [("n1", 5), ("n2", 8), ("n3", 8), ("n4", 8), ("n5", 11)]

def terraceChain : GrowingChain where
  blocks := ["n1", "n2", "n3", "n4", "n5"].map terraceNodes.block
  distinct := by decide +kernel
  named := by decide +kernel
  first := by decide +kernel
  linked := by decide +kernel

/-- Passes over the first one, the first three and all of these nodes. -/
def terracePasses : List (Pass Rat Memory) :=
  ["n1", "n3", "n5"].map fun head => .ofMemory "p" head terraceNodes

private theorem terrace_heights : terraceChain.blocks.map Block.height = [5, 8, 8, 8, 11] := by
  decide +kernel

private theorem terrace_heightsAt (n : Nat) :
    terraceChain.heightsAt n = [5, 8, 8, 8, 11].take n := by
  rw [GrowingChain.heightsAt, List.map_take, terrace_heights]

private theorem terrace_neverFalls : terraceChain.NeverFalls := by
  rw [GrowingChain.NeverFalls, terrace_heights]
  decide

private theorem terrace_sees :
    List.Forall₂ (fun q n => q.Sees terraceChain "p" n) terracePasses [1, 3, 5] := by
  have hnodes : ∀ cid ∈ ["n1", "n2", "n3", "n4", "n5"], (terraceNodes.node? cid).isSome := by
    decide +kernel
  have hsees (n : Nat) {head : String}
      (hhead : (["n1", "n2", "n3", "n4", "n5"].take n).getLast? = some head) :
      (Pass.ofMemory "p" head terraceNodes).Sees terraceChain "p" n :=
    Pass.ofMemory_sees rfl hnodes hhead
  exact .cons (hsees 1 rfl) (.cons (hsees 3 rfl) (.cons (hsees 5 rfl) .nil))

private theorem terrace_complete :
    ∀ e ∈ Pass.runAll [] terracePasses, e.isComplete "p" = true := by
  decide +kernel

theorem gaps_found_once_terrace :
    ((Pass.runAll [] terracePasses).flatMap fun e => gapRanges (e.issuesOn "p")) =
        gapRanges (analyze (terraceChain.heightsAt 5) ⟨0⟩) ∧
      (∀ g ∈ gapRanges (analyze (terraceChain.heightsAt 5) ⟨0⟩),
        ∃! i : Nat, ∃ e, (Pass.runAll [] terracePasses)[i]? = some e ∧
          g ∈ gapRanges (e.issuesOn "p")) ∧
      List.Forall₂ (fun e n => e.tracker.verified? "p" = (terraceChain.heightsAt n).getLast?)
        (Pass.runAll [] terracePasses) [1, 3, 5] :=
  gaps_found_once terrace_neverFalls terrace_sees (by decide) terrace_complete ⟨0⟩

/-- Over all passes together, a height is reported as a duplicate once less often than the first
pass that sees it finds nodes there: as often as the chain has it in the end, less one, exactly if
no node was appended at that height later. -/
theorem duplicates_found_at_first_sight (hchain : chain.NeverFalls)
    (hsees : List.Forall₂ (fun q n => q.Sees chain p n) passes lengths)
    (hgrow : lengths.Pairwise (· ≤ ·))
    (hcomplete : ∀ e ∈ Pass.runAll [] passes, e.isComplete p = true) {h : Height}
    (hfirst : lengths.find? (fun n => h ∈ chain.heightsAt n) = some n) :
    duplicatesReported p h (Pass.runAll [] passes) = (chain.heightsAt n).count h - 1 ∧
      ((chain.heightsAt (lengths.getLastD 0)).count h - 1 ≤
          duplicatesReported p h (Pass.runAll [] passes) ↔
        (chain.heightsAt (lengths.getLastD 0)).count h = (chain.heightsAt n).count h) := by
  have hgo := goOn_from_start hchain hsees hgrow hcomplete
  have htotal := goOn_duplicates hchain hgo List.not_mem_nil hfirst
  refine ⟨htotal, ?_⟩
  have hpos : 0 < (chain.heightsAt n).count h :=
    List.count_pos_iff.mpr (by simpa using List.find?_some hfirst)
  have hlast : n ≤ lengths.getLastD 0 := length_le_last hgrow (List.mem_of_find?_eq_some hfirst)
  obtain ⟨new, hnew⟩ := chain.heightsAt_append hlast
  have hmore : (chain.heightsAt n).count h ≤ (chain.heightsAt (lengths.getLastD 0)).count h := by
    rw [hnew, List.count_append]
    exact Nat.le_add_right _ _
  rw [htotal]
  omega

theorem duplicates_found_at_first_sight_terrace :
    duplicatesReported "p" 8 (Pass.runAll [] terracePasses) =
        (terraceChain.heightsAt 3).count 8 - 1 ∧
      ((terraceChain.heightsAt 5).count 8 - 1 ≤
          duplicatesReported "p" 8 (Pass.runAll [] terracePasses) ↔
        (terraceChain.heightsAt 5).count 8 = (terraceChain.heightsAt 3).count 8) :=
  duplicates_found_at_first_sight terrace_neverFalls terrace_sees (by decide) terrace_complete
    (by simp only [terrace_heightsAt]; decide)

/-- The third of three nodes at a height is appended when the height is verified already, and only
one duplicate is ever reported. -/
theorem duplicate_lost_at_verified_height :
    terraceChain.NeverFalls ∧
      List.Forall₂ (fun q n => q.Sees terraceChain "p" n) terracePasses [1, 3, 5] ∧
      [1, 3, 5].Pairwise (· ≤ ·) ∧
      (∀ e ∈ Pass.runAll [] terracePasses, e.isComplete "p" = true) ∧
      (terraceChain.heightsAt 5).count 8 = 3 ∧
      ¬ 3 - 1 ≤ duplicatesReported "p" 8 (Pass.runAll [] terracePasses) := by
  refine ⟨terrace_neverFalls, terrace_sees, by decide, terrace_complete, ?_, ?_⟩
  · rw [terrace_heightsAt]
    decide
  · have hgo := goOn_from_start terrace_neverFalls terrace_sees (by decide) terrace_complete
    have hfirst : [1, 3, 5].find? (fun n => 8 ∈ terraceChain.heightsAt n) = some 3 := by
      simp only [terrace_heightsAt]
      decide
    rw [goOn_duplicates terrace_neverFalls hgo List.not_mem_nil hfirst, terrace_heightsAt]
    decide

end Series

end ChainAudit
