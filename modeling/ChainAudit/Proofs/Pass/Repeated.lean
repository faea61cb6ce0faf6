import ChainAudit.Proofs.Pass.Agreement
import ChainAudit.Proofs.Pass.Ledger
import ChainAudit.Proofs.Pass.Stuck

/-!
# Repeated passes

After a complete walk the verified height is not below the head, whatever the heights of the chain
are and whatever was remembered before. So the next walk from the same head ends at the head: it
reads that node alone, finds no fault in its one height, and brings nothing new to remember.
-/

namespace ChainAudit

open ChainAudit.Chain ChainAudit.Clock ChainAudit.Limiter ChainAudit.Schedule ChainAudit.Store
open ChainAudit.Text

section Walks

variable {answers : String → Fetched → Prop} {stop : Option Instant}
variable {depth left : Nat} {verified : Option Height} {head : String} {w : Walk}
variable {bytes : Bytes} {node : Node}

theorem walked_head (hw : Walked answers stop depth verified left head [] w)
    (hcomplete : w.ending.isComplete = true) :
    0 < left ∧ ∃ bytes node, answers head (.answered (.ok bytes)) ∧
      Node.ofBytes bytes = .ok node ∧ w.headHeight? = some node.height := by
  cases hw with
  | ended hanswer hnode _ => exact ⟨Nat.succ_pos _, _, _, hanswer, hnode, rfl⟩
  | @followed _ _ _ _ node _ _ hanswer hnode _ hrest =>
    obtain ⟨rest, hrest⟩ := walked_visited hrest
    exact ⟨Nat.succ_pos _, _, _, hanswer, hnode, by rw [Walk.headHeight?, ← hrest]; rfl⟩
  | _ => simp [WalkEnd.isComplete] at hcomplete

theorem walked_verified (hleft : 0 < left)
    (hanswer : ∀ r, answers head r → r = .answered (.ok bytes)) (hnode : Node.ofBytes bytes = .ok node)
    (hverified : verified.any (node.height ≤ ·) = true)
    (hw : Walked answers stop depth verified left head [] w) (hend : w.ending ≠ .cancelled) :
    w.heights = [node.height] ∧ w.ending.isComplete = true := by
  obtain ⟨left, rfl⟩ := Nat.exists_eq_succ_of_ne_zero (Nat.pos_iff_ne_zero.mp hleft)
  obtain ⟨r, hr, hon⟩ := walked_goesOn hw hend
  obtain rfl := hanswer r hr
  simp only [GoesOn, hnode] at hon
  cases hprevious : node.previous? with
  | none =>
    rw [endAt?_first hprevious] at hon
    subst hon
    exact ⟨rfl, rfl⟩
  | some previous =>
    rw [endAt?_link hprevious, if_pos hverified] at hon
    subst hon
    exact ⟨rfl, rfl⟩

theorem issuesOf_single {height : Height} (hheights : w.heights = [height]) (threshold : Span)
    (previous : Option KnownHead) (now : Moment) {i : Issue}
    (hi : i ∈ issuesOf threshold previous now w) : i.kind = .stuck := by
  have hanalysis : analyzeWalk [height] now = [] := analyzeWalk_short (by simp) now
  obtain ⟨stuck, hstuck, hissues⟩ := issuesOf_stuck threshold previous now w
  rw [hissues, hheights, hanalysis, List.nil_append] at hi
  exact hstuck i hi

end Walks

namespace Pass

/-- A pass that repeats another one for a project: the same auditor, however it is paced, at any
time and over any projects that include this one. The store and the heads answer as they did, and
no token has to be waited for. The clock keeps its place within a millisecond, as it does while it
moves on with sleeps alone; at another place a read that takes longer than the time allowed may be
late where it was in time before, so then that of the head must not be such a read. -/
structure Repeats (p : String) (again first : Pass α ω) : Prop where
  auditor : ∃ workers runTimeout, again.auditor = first.auditor.paced workers runTimeout
  steady : first.auditor.Steady first.state.behind
  sources : first.auditor.Reaches first.state.behind again.state.behind
  unlimited : again.state.limiter = .unlimited
  listed : p ∈ again.projects
  clock : again.start % 1000000 = first.start % 1000000 ∨
    ∀ head, (first.auditor.heads.lookup p first.state.behind).1.value = .ok (some head) →
      ∀ span, (first.auditor.store.answerAlone head first.state.behind).delay = some span →
        InTime first.auditor.fetchTimeout first.start
          (first.auditor.store.answerAlone head first.state.behind) →
        span.nanos ≤ first.auditor.fetchTimeout.nanos

section Sources

variable {first again : Pass α ω} {p : String} (hrepeats : again.Repeats p first)
include hrepeats

theorem Repeats.steady_again : again.auditor.Steady again.state.behind := by
  obtain ⟨workers, runTimeout, hauditor⟩ := hrepeats.auditor
  rw [hauditor]
  exact (hrepeats.steady.later hrepeats.sources).paced workers runTimeout

theorem Repeats.lookup_again : (again.auditor.heads.lookup p again.state.behind).1.value =
    (first.auditor.heads.lookup p first.state.behind).1.value := by
  obtain ⟨workers, runTimeout, hauditor⟩ := hrepeats.auditor
  rw [hauditor]
  exact hrepeats.steady.lookup _ hrepeats.sources p

theorem Repeats.inTime_again {head : String}
    (hhead : (first.auditor.heads.lookup p first.state.behind).1.value = .ok (some head))
    (hin : InTime first.auditor.fetchTimeout first.start
      (first.auditor.store.answerAlone head first.state.behind)) :
    InTime first.auditor.fetchTimeout again.start
      (first.auditor.store.answerAlone head first.state.behind) := by
  rcases hrepeats.clock with hplace | hshort
  · exact (inTime_iff hplace _ _).mpr hin
  · exact inTime_of_le (fun span hspan => hshort head hhead span hspan hin) again.start

/-- If the head was read once, however long its token had to be waited for, it is read again. -/
theorem Repeats.answers_again [Quantity α] {head : String} {bytes : Bytes}
    (hhead : (first.auditor.heads.lookup p first.state.behind).1.value = .ok (some head))
    (hfirst : first.auditor.Answers first.state.behind first.state.limiter first.start head
      (.answered (.ok bytes))) {b : Fetched}
    (hb : again.auditor.Answers again.state.behind again.state.limiter again.start head b) :
    b = .answered (.ok bytes) := by
  obtain ⟨workers, runTimeout, hauditor⟩ := hrepeats.auditor
  obtain ⟨t, t', ht, ht', hread⟩ := hfirst.stored bytes rfl
  rw [hrepeats.steady.read t t' ht ht'] at hread
  have hsame : first.auditor.store.answerAlone head again.state.behind =
      first.auditor.store.answerAlone head first.state.behind :=
    hrepeats.steady.read _ _ hrepeats.sources (.read head hrepeats.sources) head
  have hanswer := Auditor.answers_steady hrepeats.steady_again hrepeats.unlimited hb
  rw [hauditor] at hanswer
  change b = .answered (answerAt first.auditor.fetchTimeout head again.start
    (first.auditor.store.answerAlone head again.state.behind)) at hanswer
  have hin := hrepeats.inTime_again hhead (inTime_of_answerAt hread)
  rw [hanswer, hsame, answerAt, if_pos hin, value_of_answerAt hread]

end Sources

variable [Quantity α]

/-- What a pass reads for a project, when it goes on from what is remembered. -/
def readsFor (q : Pass α ω) (tracker : Tracker) (p : String) : List String :=
  q.auditor.readsFor q.projects q.signal q.now tracker q.start q.state p

/-- A pass finds nothing new of a project: it reads the head alone, reports the project as complete
and without gaps and duplicates, and remembers of it what was remembered before. -/
structure FindsNothingNew (q : Pass α ω) (tracker : Tracker) (p head : String) : Prop where
  reported : ∃ r, (q.run tracker).project? p = some r ∧ r.complete = true ∧
    ∀ i ∈ r.issues, i.kind ≠ .gap ∧ i.kind ≠ .duplicate
  reads : q.readsFor tracker p = [head]
  remembered : (q.run tracker).tracker.get? p = tracker.get? p

variable {q first again : Pass α ω} {p head : String} {tracker : Tracker} {r : ProjectReport}

/-- What is remembered of a project after a complete walk: its head is not above the verified
height, and brings nothing new when it is seen again. -/
private theorem remembered_complete {height : Height}
    (hr : (first.run tracker).project? p = some r) (hcomplete : r.complete = true)
    (hheight : r.headHeight = some height) :
    ∃ t v, (first.run tracker).tracker.get? p = some t ∧ t.verified = some v ∧ height ≤ v ∧
      ∀ later, Tracker.observed height true later (some t) = t := by
  have hget : (first.run tracker).tracker.get? p =
      some (Tracker.observed height true first.now (tracker.get? p)) := by
    rw [get?_run, hr, ← hcomplete]
    simp only [Auditor.rememberedAfter, hheight]
  obtain ⟨v, hv, hle⟩ := Tracker.observed_verified height first.now (tracker.get? p)
  exact ⟨_, v, hget, hv, hle, fun later => Tracker.observed_again height first.now later _⟩

private theorem findsNothingNew_single {t : Tracked} {w : Walk} {height : Height} {threshold : Span}
    {stop : String}
    (hget : tracker.get? p = some t)
    (hr : (q.run tracker).project? p =
      some (walkReport threshold (some t.head) q.now p head stop w))
    (hheights : w.heights = [height]) (hcomplete : w.ending.isComplete = true)
    (hagain : Tracker.observed height true q.now (some t) = t) :
    q.FindsNothingNew tracker p head where
  reported := by
    refine ⟨_, hr, hcomplete, fun i hi => ?_⟩
    rw [issuesOf_single hheights _ _ _ hi]
    exact ⟨by decide, by decide⟩
  reads := by
    obtain ⟨rest, hreads, hlength⟩ := Auditor.readsFor_complete hr hcomplete rfl
    have hone : w.heights.length = rest.length + 1 := hlength
    rw [hheights, List.length_singleton] at hone
    have hnone : rest = [] := List.length_eq_zero_iff.mp (Nat.succ.inj hone).symm
    rw [readsFor, hreads, hnone]
  remembered := by
    have hheight : w.headHeight? = some height := by
      rw [Walk.headHeight?, hheights]
      rfl
    rw [get?_run, hr, hget]
    simp only [Auditor.rememberedAfter, walkReport, hheight, hcomplete, hagain]

section Regressed

/-- A chain whose head is below the nodes behind it, which are out of order. -/
def regressedNodes : Memory :=
  (Memory.ofChain [("a", 5), ("b", 9), ("c", 7), ("d", -2)]).delay "d" (.ofMillis 3)

def regressedPass : Pass Rat Memory :=
  { Pass.ofMemory "p" "d" regressedNodes with auditor := .ofMemory [("p", "d"), ("q", "b")] }

/-- Another pass two hours later, with the sources as that one left them, which also reads a part
of the chain for another project. -/
def regressedAgain : Pass Rat Memory :=
  { regressedPass with
    projects := ["q", "p"]
    now := .ofSeconds 7200
    start := 7200000000000
    state := ⟨.unlimited, (regressedPass.run []).state.behind⟩ }

end Regressed

end Pass

end ChainAudit
