import ChainAudit.Proofs.Chain.Head
import ChainAudit.Proofs.Chain.Heights
import ChainAudit.Proofs.Pass.Stuck

/-!
# Passes over a chain that grows

Nodes are only ever appended to a chain, and a pass sees as many of them as there are when it runs.
If its report is complete, it is on the nodes from the newest one down to the first that is not
above the verified height, and that height is raised to the one of the newest node.
-/

namespace ChainAudit

open ChainAudit.Chain ChainAudit.Clock ChainAudit.Limiter ChainAudit.Store ChainAudit.Text

/-- A chain to which nodes are appended, the oldest node first. -/
structure GrowingChain where
  blocks : List Block
  distinct : (blocks.map (·.cid)).Nodup
  named : ∀ b ∈ blocks, b.cid ≠ "" ∧ trim b.cid = b.cid
  first : ∀ b ∈ blocks.head?, b.node.previous? = none
  linked : blocks.IsChain fun b next => next.node.previous? = some b.cid

namespace GrowingChain

/-- The heights of the first nodes of a chain, in the order in which they were appended. -/
def heightsAt (c : GrowingChain) (n : Nat) : List Height := (c.blocks.take n).map Block.height

theorem heightsAt_append (c : GrowingChain) {m n : Nat} (h : m ≤ n) :
    ∃ new, c.heightsAt n = c.heightsAt m ++ new := by
  have hprefix : c.heightsAt m <+: c.heightsAt n := (List.take_prefix_take_left h).map _
  obtain ⟨new, hnew⟩ := hprefix
  exact ⟨new, hnew.symm⟩

/-- The heights that a walk visits among the first nodes of a chain, the newest one first. -/
def visitedAt (c : GrowingChain) (n : Nat) (verified : Option Height) : List Height :=
  untilVerified verified (c.heightsAt n).reverse

private theorem leadsToGenesis_reverse {blocks : List Block}
    (hfirst : ∀ b ∈ blocks.head?, b.node.previous? = none)
    (hlinked : blocks.IsChain fun b next => next.node.previous? = some b.cid) :
    ∀ b ∈ blocks.getLast?, LeadsToGenesis b.cid blocks.reverse := by
  induction blocks using List.reverseRecOn with
  | nil => simp
  | append_singleton blocks b ih =>
    intro last hlast
    obtain rfl : b = last := by simpa using hlast
    rw [List.reverse_append, List.reverse_singleton, List.singleton_append]
    cases hbelow : blocks.getLast? with
    | none =>
      obtain rfl := List.getLast?_eq_none_iff.mp hbelow
      exact .first (hfirst b rfl)
    | some below =>
      obtain ⟨hrest, _, hlink⟩ := List.isChain_append.mp hlinked
      have hne : blocks ≠ [] := by
        rintro rfl
        cases hbelow
      have hfirst' : ∀ b' ∈ blocks.head?, b'.node.previous? = none := by
        intro b' hb'
        exact hfirst b' (by rw [List.head?_append_of_ne_nil _ hne]; exact hb')
      exact .link (hlink below hbelow b rfl) (ih hfirst' hrest below hbelow)

theorem leadsToGenesis_take (c : GrowingChain) (n : Nat) :
    ∀ b ∈ (c.blocks.take n).getLast?, LeadsToGenesis b.cid (c.blocks.take n).reverse := by
  apply leadsToGenesis_reverse
  · intro b hb
    cases n with
    | zero => simp at hb
    | succ n =>
      rw [List.head?_take, if_neg (Nat.succ_ne_zero n)] at hb
      exact c.first b hb
  · exact c.linked.take n

end GrowingChain

/-- The height verified so far, if there is one. -/
def Tracker.verified? (project : String) (t : Tracker) : Option Height :=
  (t.get? project).bind (·.verified)

namespace Pass

/-- A pass finds the first `n` nodes of a chain: whatever head is looked up is the newest of them,
and whatever is stored under their identifiers are these nodes. -/
structure Sees (q : Pass α ω) (chain : GrowingChain) (project : String) (n : Nat) : Prop where
  head : ∀ t, q.auditor.Reaches q.state.behind t → ∀ found,
    (q.auditor.heads.lookup project t).1.value = .ok found →
      found = (chain.blocks.take n).getLast?.map (·.cid)
  stored : ∀ b ∈ chain.blocks.take n, ∀ t t', q.auditor.Reaches q.state.behind t →
    q.auditor.Reaches q.state.behind t' → ∀ bytes,
      (q.auditor.store.answer b.cid t t').value = .ok bytes → Node.ofBytes bytes = .ok b.node

theorem sees_of_memory {q : Pass α Memory} {chain : GrowingChain} {project : String} {n : Nat}
    {heads : Table String} {cids : List String}
    (ha : q.auditor.InMemory heads) (hblocks : chain.blocks = cids.map q.state.behind.block)
    (hnodes : ∀ cid ∈ cids, (q.state.behind.node? cid).isSome)
    (hhead : heads.get? project = (cids.take n).getLast?) : q.Sees chain project n := by
  constructor
  · intro t _ found hfound
    rw [ha.lookup, hhead] at hfound
    rw [← Except.ok.inj hfound, hblocks, ← List.map_take, List.getLast?_map, Option.map_map]
    exact Option.map_id'.symm
  · intro b hb t t' ht ht' bytes hread
    rw [hblocks] at hb
    obtain ⟨cid, hcid, rfl⟩ := List.mem_map.mp (List.mem_of_mem_take hb)
    obtain ⟨bytes', hcontent, hnode⟩ := Memory.content_block (hnodes cid hcid)
    rw [ha.read ht ht'] at hread
    obtain rfl := Except.ok.inj (hcontent.symm.trans hread)
    exact hnode

variable [Quantity α]

variable {q : Pass α ω} {chain : GrowingChain} {project : String} {n : Nat} {tracker : Tracker}

/-- What a complete report says of the first `n` nodes of a chain. -/
structure Covers (chain : GrowingChain) (n : Nat) (verified : Option Height) (now : Moment)
    (r : ProjectReport) : Prop where
  nodesWalked : r.nodesWalked = (chain.visitedAt n verified).length
  headHeight : r.headHeight = (chain.heightsAt n).getLast?
  issues : ∃ stuck, (∀ i ∈ stuck, i.kind = .stuck) ∧
    r.issues = analyzeWalk (chain.visitedAt n verified) now ++ stuck

omit [Quantity α] in
private theorem sees_nothing (hsees : q.Sees chain project n) {t : ω}
    (ht : q.auditor.Reaches q.state.behind t)
    (hlookup : (q.auditor.heads.lookup project t).1.value = .ok none) :
    chain.heightsAt n = [] := by
  have hhead := hsees.head t ht none hlookup
  rw [eq_comm, Option.map_eq_none_iff, List.getLast?_eq_none_iff] at hhead
  rw [GrowingChain.heightsAt, hhead, List.map_nil]

/-- A complete walk of a pass visits the nodes it sees, down to the first one that was verified
before. -/
private theorem sees_visited (hsees : q.Sees chain project n) {t : ω} {head : String}
    {l : Limiter α} {place : Instant} {stop : Option Instant} {depth : Nat}
    {verified : Option Height} {w : Walk}
    (ht : q.auditor.Reaches q.state.behind t)
    (hlookup : (q.auditor.heads.lookup project t).1.value = .ok (some head))
    (hwalk : Walked (q.auditor.Answers q.state.behind l place) stop depth verified depth head []
      w)
    (hcomplete : w.ending.isComplete = true) : w.heights = chain.visitedAt n verified := by
  have hhead := hsees.head t ht (some head) hlookup
  obtain ⟨b, hb, rfl⟩ := Option.map_eq_some_iff.mp hhead.symm
  have htrue : ∀ b ∈ (chain.blocks.take n).reverse, ∀ bytes,
      q.auditor.Answers q.state.behind l place b.cid (.answered (.ok bytes)) →
        Node.ofBytes bytes = .ok b.node := by
    intro b hb bytes hanswer
    obtain ⟨s, s', hs, hs', hread⟩ := hanswer.stored bytes rfl
    exact hsees.stored b (List.mem_reverse.mp hb) s s' hs hs' bytes (value_of_answerAt hread)
  rcases walked_path htrue (chain.leadsToGenesis_take n b hb) hwalk with
    ⟨_, hheights⟩ | ⟨hincomplete, _⟩
  · rw [hheights, List.reverse_nil, List.nil_append, List.map_reverse]
    rfl
  · rw [hcomplete] at hincomplete
    cases hincomplete

theorem sees_covers (hsees : q.Sees chain project n) {r : ProjectReport}
    (hr : (q.run tracker).project? project = some r) (hcomplete : r.complete = true) :
    Covers chain n (tracker.verified? project) q.now r := by
  rcases Auditor.outcome_report (Auditor.project?_outcome hr) with ⟨t, e, ht, hlookup, rfl⟩ |
    ⟨t, ht, hlookup, rfl⟩ | ⟨t, head, w, label, ht, hlookup, hwalk, hend, hlabel, rfl⟩
  · cases hcomplete
  · have hnone := sees_nothing hsees ht hlookup
    have hvisited : chain.visitedAt n (tracker.verified? project) = [] := by
      rw [GrowingChain.visitedAt, hnone]
      rfl
    constructor
    · rw [hvisited]
      rfl
    · rw [hnone]
      rfl
    · refine ⟨[], by simp, ?_⟩
      rw [hvisited, (analyzeWalk_eq_nil_iff [] q.now).mpr .nil]
      rfl
  · have hheights : w.heights = chain.visitedAt n (tracker.verified? project) :=
      sees_visited hsees ht hlookup hwalk hcomplete
    constructor
    · change w.heights.length = _
      rw [hheights]
    · change w.heights.head? = _
      rw [hheights, GrowingChain.visitedAt, untilVerified_head?, List.head?_reverse]
    · obtain ⟨stuck, hstuck, hissues⟩ := issuesOf_stuck q.auditor.stuckThreshold
        ((tracker.get? project).map (·.head)) q.now w
      refine ⟨stuck, hstuck, ?_⟩
      rw [← hheights]
      exact hissues

theorem Covers.gapRanges_eq {verified : Option Height} {now : Moment} {r : ProjectReport}
    (h : Covers chain n verified now r) :
    gapRanges r.issues = gapRanges (analyze (chain.visitedAt n verified) now) := by
  obtain ⟨stuck, hstuck, hissues⟩ := h.issues
  have hnone : gapRanges stuck = [] := by
    simp only [gapRanges, List.map_eq_nil_iff, List.filter_eq_nil_iff, decide_eq_true_eq]
    intro i hi hgap
    rw [hstuck i hi] at hgap
    cases hgap
  rw [hissues, gapRanges_append, hnone, List.append_nil, gapRanges_analyzeWalk]

theorem Covers.duplicatesAt_eq {verified : Option Height} {now : Moment} {r : ProjectReport}
    (hcovers : Covers chain n verified now r) (h : Height) :
    duplicatesAt h r.issues = duplicatesAt h (analyzeWalk (chain.visitedAt n verified) now) := by
  obtain ⟨stuck, hstuck, hissues⟩ := hcovers.issues
  have hnone : duplicatesAt h stuck = 0 := by
    simp only [duplicatesAt, List.countP_eq_zero, decide_eq_true_eq]
    rintro i hi ⟨hduplicate, _⟩
    rw [hstuck i hi] at hduplicate
    cases hduplicate
  rw [hissues, duplicatesAt_append, hnone, Nat.add_zero]

theorem gapRanges_run (hsees : q.Sees chain project n)
    (hcomplete : (q.run tracker).isComplete project = true) :
    gapRanges ((q.run tracker).issuesOn project) =
      gapRanges (analyze (chain.visitedAt n (tracker.verified? project)) q.now) := by
  obtain ⟨r, hr, hrcomplete, hissues⟩ := (q.run tracker).exists_complete hcomplete
  rw [hissues]
  exact (sees_covers hsees hr hrcomplete).gapRanges_eq

theorem duplicatesAt_run (hsees : q.Sees chain project n)
    (hcomplete : (q.run tracker).isComplete project = true) (h : Height) :
    duplicatesAt h ((q.run tracker).issuesOn project) =
      duplicatesAt h (analyzeWalk (chain.visitedAt n (tracker.verified? project)) q.now) := by
  obtain ⟨r, hr, hrcomplete, hissues⟩ := (q.run tracker).exists_complete hcomplete
  rw [hissues]
  exact (sees_covers hsees hr hrcomplete).duplicatesAt_eq h

theorem verified?_run (hsees : q.Sees chain project n)
    (hcomplete : (q.run tracker).isComplete project = true) :
    (q.run tracker).tracker.verified? project =
      match (chain.heightsAt n).getLast? with
      | none => tracker.verified? project
      | some h => some (Tracker.raise h (tracker.verified? project)) := by
  obtain ⟨r, hr, hrcomplete, _⟩ := (q.run tracker).exists_complete hcomplete
  have hhead := (sees_covers hsees hr hrcomplete).headHeight
  rw [Tracker.verified?, get?_run, hr]
  dsimp only
  rw [Auditor.rememberedAfter, hhead]
  cases (chain.heightsAt n).getLast? with
  | none => rfl
  | some h =>
    rw [Tracker.verified?]
    cases tracker.get? project with
    | none => simp [Tracker.observed, Tracker.raise, hrcomplete]
    | some t => simp [Tracker.observed, hrcomplete]

end Pass

theorem Pass.ofMemory_sees {chain : GrowingChain} {project head : String} {n : Nat} {m : Memory}
    {cids : List String} (hblocks : chain.blocks = cids.map m.block)
    (hnodes : ∀ cid ∈ cids, (m.node? cid).isSome)
    (hhead : (cids.take n).getLast? = some head) :
    (Pass.ofMemory project head m).Sees chain project n := by
  have hfound : Table.get? project [(project, head)] = (cids.take n).getLast? := by
    rw [hhead]
    simp [Table.get?]
  exact sees_of_memory (Auditor.ofMemory_inMemory _) hblocks hnodes hfound

end ChainAudit
