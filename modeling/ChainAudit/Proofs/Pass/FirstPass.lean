import ChainAudit.Limiter.Quantity
import ChainAudit.Proofs.Chain.Heights
import ChainAudit.Proofs.Pass.Run
import ChainAudit.Proofs.Store.Memory

/-!
# First passes

Of a project of which nothing is remembered, a pass walks the whole chain. Where the links of its
head lead over nodes that the store holds to the first node of the chain, the report is complete,
and it has no issue if and only if every node stands one above its predecessor.
-/

namespace ChainAudit

open ChainAudit.Chain ChainAudit.Clock ChainAudit.Limiter ChainAudit.Store ChainAudit.Text

section FirstWalk

variable {answers : String → Fetched → Prop} {stop : Option Instant}
variable {depth : Nat} {head : String} {w : Walk} {path : List Block}

/-- Without a verified height, a walk that gets every node of a path visits them all. -/
theorem walked_all
    (htrue : ∀ b ∈ path, ∀ r, answers b.cid r → ∃ bytes, r = .answered (.ok bytes) ∧
      Node.ofBytes bytes = .ok b.node)
    (hpath : LeadsToGenesis head path) (hdepth : path.length ≤ depth)
    (hw : Walked answers stop depth none depth head [] w) (hend : w.ending ≠ .cancelled) :
    w.heights = path.map Block.height ∧ w.ending = .genesis := by
  have hok : ∀ b ∈ path, ∀ bytes, answers b.cid (.answered (.ok bytes)) →
      Node.ofBytes bytes = .ok b.node := by
    intro b hb bytes hanswer
    obtain ⟨bytes', hbytes, hnode⟩ := htrue b hb _ hanswer
    rw [Except.ok.inj (Fetched.answered.inj hbytes)]
    exact hnode
  rcases walked_path hok hpath hw with ⟨hcomplete, hheights⟩ | ⟨_, hhindered⟩
  · rw [untilVerified_none] at hheights
    exact ⟨hheights, walked_genesis hw hcomplete⟩
  · rcases hhindered with hcancelled | hshort | ⟨b, hb, r, hanswer, hfailed⟩
    · exact absurd hcancelled hend
    · exact absurd hshort (Nat.not_lt_of_le hdepth)
    · obtain ⟨bytes, hbytes, _⟩ := htrue b hb r hanswer
      exact absurd hbytes (hfailed bytes)

theorem issuesOf_first (threshold : Span) (now : Moment) (w : Walk) :
    issuesOf threshold none now w = analyzeWalk w.heights now := by
  unfold issuesOf stuckIssue?
  split <;> simp

end FirstWalk

namespace Auditor

variable [Quantity α] {a : Auditor ω} {projects : List String} {signal : Signal} {now : Moment}
variable {tracker : Tracker} {start : Instant} {s : Limited α ω}

/-- The first pass over a project reports its chain as complete, and as free of issues if and only
if every link of it is clean. -/
theorem first_pass_report {p head : String} {path : List Block} (hp : p ∈ projects)
    (hfirst : tracker.get? p = none) (hfree : s.limiter = .unlimited)
    (hhead : ∀ t, a.Reaches s.behind t → (a.heads.lookup p t).1.value = .ok (some head))
    (hpath : LeadsToGenesis head path) (hdepth : path.length ≤ a.maxDepth)
    (hstored : ∀ b ∈ path, a.Holds s.behind b)
    (hrun : ¬ (a.run projects signal now tracker start s).Drops p) :
    ∃ r, (a.run projects signal now tracker start s).project? p = some r ∧
      r.complete = true ∧ r.stop = "genesis" ∧ r.nodesWalked = path.length ∧
      (r.issues = [] ↔
        path.IsChain fun b previous => b.height.toInt = previous.height.toInt + 1) := by
  obtain ⟨r, hr⟩ := exists_project (onClock_unlimited hfree) hp hrun
  have houtcome := project?_outcome hr
  unfold PassOutcome at houtcome
  rw [hfirst] at houtcome
  rcases outcome_report houtcome with ⟨t, e, ht, hlookup, _⟩ | ⟨t, ht, hlookup, _⟩ |
    ⟨t, head', w, label, ht, hlookup, hwalk, hend, hlabel, hreport⟩
  · rw [hhead t ht] at hlookup
    cases hlookup
  · rw [hhead t ht] at hlookup
    cases hlookup
  · rw [hhead t ht] at hlookup
    cases hlookup
    have htrue : ∀ b ∈ path, ∀ r, a.Answers s.behind s.limiter start b.cid r →
        ∃ bytes, r = .answered (.ok bytes) ∧ Node.ofBytes bytes = .ok b.node :=
      fun b hb r hanswer => answers_of_holds (hstored b hb) hfree hanswer
    obtain ⟨hheights, hgenesis⟩ := walked_all htrue hpath hdepth hwalk hend
    rw [hgenesis] at hlabel
    obtain rfl := Option.some.inj hlabel
    have hissues : r.issues = analyzeWalk (path.map Block.height) now := by
      rw [hreport, ← hheights]
      exact issuesOf_first _ _ _
    refine ⟨r, hr, ?_, ?_, ?_, ?_⟩
    · rw [hreport]
      simp [walkReport, hgenesis, WalkEnd.isComplete]
    · rw [hreport]
      rfl
    · rw [hreport]
      simp [walkReport, hheights]
    · rw [hissues, analyzeWalk_eq_nil_iff, List.isChain_map]

/-- Two nodes, of which the upper one links to the lower one between blanks. -/
def twoNodes : Memory := .ofNodes [("n1", 7, ""), ("n2", 8, " n1 ")]

theorem first_pass_report_two_nodes :
    ∃ r, ((Auditor.ofMemory [("p", "n2")]).run ["p"] .never ⟨0⟩ [] 0
        (⟨.unlimited, twoNodes⟩ : Limited Rat Memory)).project? "p" = some r ∧
      r.complete = true ∧ r.stop = "genesis" ∧ r.nodesWalked = 2 ∧
      (r.issues = [] ↔ (["n2", "n1"].map twoNodes.block).IsChain fun b previous =>
        b.height.toInt = previous.height.toInt + 1) := by
  have ha := Auditor.ofMemory_inMemory [("p", "n2")]
  have hlink : (twoNodes.block "n2").node.previous? = some "n1" := by decide +kernel
  have hfirst : (twoNodes.block "n1").node.previous? = none := by decide +kernel
  have hpath : LeadsToGenesis "n2" (["n2", "n1"].map twoNodes.block) :=
    .link hlink (.first hfirst)
  refine first_pass_report (by decide) rfl rfl (fun t _ => ha.lookup "p" t) hpath (by decide) ?_
    (not_drops_of_all (by decide +kernel) "p")
  intro b hb
  obtain ⟨cid, hcid, rfl⟩ := List.mem_map.mp hb
  have hread : ∀ cid ∈ ["n2", "n1"],
      (twoNodes.node? cid).isSome ∧ twoNodes.delays.get? cid = none := by decide +kernel
  exact ha.holds (hread cid hcid).1 (hread cid hcid).2

end Auditor

end ChainAudit
