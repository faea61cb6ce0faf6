import ChainAudit.Proofs.Store.Alone
import ChainAudit.Proofs.Store.Memory
import ChainAudit.Proofs.Tracker
import ChainAudit.Proofs.Walk.Alone

/-!
# Walks place by place

The links in a store make a path from every head, whatever a walk makes of it. A walk that nobody
stops and no limiter holds up ends at the first place of that path where there is a reason to,
visits the nodes before it, and reads each place once.
-/

namespace ChainAudit

open ChainAudit.Chain ChainAudit.Clock ChainAudit.Limiter ChainAudit.Schedule
open ChainAudit.Schedule.Activity ChainAudit.Store ChainAudit.Text

namespace Store.Memory

/-- A place of a path: an identifier, and the instant at which it is asked for. -/
structure Place where
  cid : String
  asked : Instant

def answerFor (m : Memory) (cid : String) : Delayed (Except FetchError Bytes) :=
  ⟨m.content cid, m.delays.get? cid⟩

/-- What a fetch with a time limit answers at a place: what is stored, if that comes in time. -/
def answer (m : Memory) (timeout : Span) (p : Place) : Except FetchError Bytes :=
  answerAt timeout p.cid p.asked (m.answerFor p.cid)

/-- The height of the node that an answer holds. -/
def heightOf? : Except FetchError Bytes → Option Height
  | .error _ => none
  | .ok bytes => (Node.ofBytes bytes).toOption.map (·.height)

def heightAt? (m : Memory) (timeout : Span) (p : Place) : Option Height :=
  heightOf? (m.answer timeout p)

/-- The place that the link of the node at a place leads to. -/
def next? (m : Memory) (p : Place) : Option Place :=
  (m.node? p.cid).bind fun node => node.previous?.map fun previous =>
    ⟨previous, (m.answerFor p.cid).comesAt p.asked⟩

/-- The places of the path from a head, as far as the links lead. -/
def placeAt? (m : Memory) (head : Place) : Nat → Option Place
  | 0 => some head
  | i + 1 => (m.placeAt? head i).bind m.next?

/-- Those of the first `k` places of the path that the links lead to. -/
def firstPlaces (m : Memory) (head : Place) (k : Nat) : List Place :=
  (List.range k).filterMap (m.placeAt? head)

/-- The first reason for a walk to end after the answer for an identifier, if there is one. -/
def endingOf? (verified : Option Height) (cid : String) : Except FetchError Bytes → Option WalkEnd
  | .error e => some (.failed (.fetch cid e))
  | .ok bytes =>
      match Node.ofBytes bytes with
      | .error fault => some (.failed (.decode cid fault))
      | .ok node =>
          if node.previous? = none then some .genesis
          else if verified.any (node.height ≤ ·) then some (.reachedVerified node.height)
          else none

/-- The first reason for a walk to end at the `i`-th place of its path, if there is one. -/
def endingAt? (m : Memory) (timeout : Span) (depth : Nat) (verified : Option Height) (i : Nat)
    (p : Place) : Option WalkEnd :=
  if i = depth then some (.depthExceeded depth)
  else endingOf? verified p.cid (m.answer timeout p)

/-- From the `i`-th place of a path on, a walk goes over `n` more places and ends there. -/
def EndsAfter (m : Memory) (timeout : Span) (depth : Nat) (verified : Option Height) (i : Nat)
    (p : Place) (n : Nat) (ending : WalkEnd) : Prop :=
  (∀ j < n, ∃ q, m.placeAt? p j = some q ∧ m.endingAt? timeout depth verified (i + j) q = none) ∧
    ∃ q, m.placeAt? p n = some q ∧ m.endingAt? timeout depth verified (i + n) q = some ending

variable {m t : Memory} {timeout : Span} {depth : Nat} {verified : Option Height} {p q : Place}

theorem placeAt?_succ (hnext : m.next? p = some q) (i : Nat) :
    m.placeAt? p (i + 1) = m.placeAt? q i := by
  induction i with
  | zero => exact hnext
  | succ i ih =>
    rw [placeAt?, ih]
    rfl

theorem firstPlaces_succ (hnext : m.next? p = some q) (k : Nat) :
    m.firstPlaces p (k + 1) = p :: m.firstPlaces q k := by
  have hrest : m.placeAt? p ∘ Nat.succ = m.placeAt? q := funext (placeAt?_succ hnext)
  simp [firstPlaces, List.range_succ_eq_map, List.filterMap_map, hrest, placeAt?]

theorem firstPlaces_one (m : Memory) (p : Place) : m.firstPlaces p 1 = [p] := rfl

theorem endsAfter_here {i : Nat} {ending : WalkEnd}
    (h : m.endingAt? timeout depth verified i p = some ending) :
    m.EndsAfter timeout depth verified i p 0 ending := by
  refine ⟨?_, p, rfl, h⟩
  intro j hj
  exact absurd hj (Nat.not_lt_zero j)

theorem endsAfter_next {i n : Nat} {ending : WalkEnd}
    (hon : m.endingAt? timeout depth verified i p = none) (hnext : m.next? p = some q)
    (hrest : m.EndsAfter timeout depth verified (i + 1) q n ending) :
    m.EndsAfter timeout depth verified i p (n + 1) ending := by
  obtain ⟨hbefore, hend⟩ := hrest
  have hshift : ∀ j, i + (j + 1) = i + 1 + j := fun j => by omega
  constructor
  · intro j hj
    cases j with
    | zero => exact ⟨p, rfl, hon⟩
    | succ j =>
      rw [placeAt?_succ hnext, hshift]
      exact hbefore j (Nat.lt_of_succ_lt_succ hj)
  · rw [placeAt?_succ hnext, hshift]
    exact hend

theorem readCount_read (t : Memory) (cid other : String) :
    (t.read cid).2.readCount other = t.readCount other + if cid == other then 1 else 0 := by
  unfold read readCount
  dsimp only
  rw [Table.get?_put]
  by_cases h : cid = other
  · simp [h]
  · simp [h, Ne.symm h]

/-- The instant at which a fetch ends that is made at a place. -/
private def fetchEnd (t : Memory) (timeout : Span) (p : Place) : Instant :=
  answeredAt timeout p.asked (t.answerFor p.cid)

theorem run_fetch [Quantity α] (t : Memory) (timeout : Span) (p : Place) :
    (fetch store timeout p.cid).run p.asked (⟨.unlimited, t⟩ : Limited α Memory) =
      (.answered (t.answer timeout p), t.fetchEnd timeout p, ⟨.unlimited, (t.read p.cid).2⟩) := by
  rw [run_fetch_unlimited]
  rfl

/-- A walk that has visited the heights of `visited` goes along the path from its `i`-th place on,
with `left` places before its depth; `before` and `after` are the stores around it. -/
def GoesAlong (m : Memory) (timeout : Span) (depth : Nat) (verified : Option Height)
    (left i : Nat) (p : Place) (visited : List Height) (before : Memory) (w : Walk)
    (after : Memory) : Prop :=
  ∃ n ≤ left, m.EndsAfter timeout depth verified i p n w.ending ∧
    w.heights =
      visited.reverse ++ (m.firstPlaces p (min (n + 1) left)).filterMap (m.heightAt? timeout) ∧
    after = { before with reads := after.reads } ∧
    ∀ cid, after.readCount cid =
      before.readCount cid + ((m.firstPlaces p (min (n + 1) left)).map Place.cid).count cid

variable {left i : Nat} {visited : List Height}

private theorem goesAlong_here {ending : WalkEnd}
    (hend : m.endingAt? timeout depth verified i p = some ending) :
    m.GoesAlong timeout depth verified (left + 1) i p visited t
      ⟨visited.reverse ++ (m.heightAt? timeout p).toList, ending⟩ (t.read p.cid).2 := by
  have hplaces : m.firstPlaces p (min (0 + 1) (left + 1)) = [p] := by
    rw [Nat.zero_add, Nat.min_eq_left (Nat.succ_pos left), firstPlaces_one]
  refine ⟨0, Nat.zero_le _, endsAfter_here hend, ?_, rfl, ?_⟩
  · rw [hplaces]
    cases hheight : m.heightAt? timeout p with
    | none => simp [hheight]
    | some height => simp [hheight]
  · intro cid
    rw [hplaces, readCount_read, List.map_singleton, List.count_singleton]

private theorem goesAlong_next {height : Height} {w : Walk} {after : Memory}
    (hon : m.endingAt? timeout depth verified i p = none)
    (hheight : m.heightAt? timeout p = some height) (hnext : m.next? p = some q)
    (hrest : m.GoesAlong timeout depth verified left (i + 1) q (height :: visited)
      (t.read p.cid).2 w after) :
    m.GoesAlong timeout depth verified (left + 1) i p visited t w after := by
  obtain ⟨n, hn, hends, hheights, hkept, hreads⟩ := hrest
  have hplaces : m.firstPlaces p (min (n + 1 + 1) (left + 1)) =
      p :: m.firstPlaces q (min (n + 1) left) := by
    rw [Nat.add_min_add_right, firstPlaces_succ hnext]
  refine ⟨n + 1, Nat.succ_le_succ hn, endsAfter_next hon hnext hends, ?_, hkept, ?_⟩
  · rw [hplaces, hheights]
    simp [hheight]
  · intro cid
    rw [hplaces, hreads, readCount_read, List.map_cons, List.count_cons, Nat.add_assoc,
      Nat.add_comm (if p.cid == cid then 1 else 0)]

private theorem answer_ok {bytes : Bytes} (h : m.answer timeout p = .ok bytes) :
    m.content p.cid = .ok bytes ∧
      m.fetchEnd timeout p = (m.answerFor p.cid).comesAt p.asked := by
  unfold answer answerAt at h
  unfold fetchEnd answeredAt
  split at h
  · rename_i hin
    exact ⟨h, if_pos hin⟩
  · cases h

private theorem endingOf?_node (verified : Option Height) (cid : String) {bytes : Bytes}
    {node : Node} (hnode : Node.ofBytes bytes = .ok node) :
    endingOf? verified cid (.ok bytes) =
      match endAt? verified node with
      | .error ending => some ending
      | .ok _ => none := by
  cases hlink : node.previous? with
  | none => simp [endingOf?, endAt?, hnode, hlink]
  | some previous =>
    by_cases hdown : verified.any (node.height ≤ ·) = true
    · simp [endingOf?, endAt?, hnode, hlink, hdown]
    · simp [endingOf?, endAt?, hnode, hlink, hdown]

private theorem next?_node {bytes : Bytes} {node : Node} {previous : String}
    (hanswer : m.answer timeout p = .ok bytes) (hnode : Node.ofBytes bytes = .ok node)
    (hend : endAt? verified node = .ok previous) :
    m.next? p = some ⟨previous, m.fetchEnd timeout p⟩ := by
  obtain ⟨hcontent, hends⟩ := answer_ok hanswer
  have hlink : node.previous? = some previous := by
    unfold endAt? at hend
    split at hend
    · cases hend
    · rename_i other hother
      split at hend
      · cases hend
      · rw [hother, Except.ok.inj hend]
  have hstored : m.node? p.cid = some node := by
    simp [node?, hcontent, hnode, Except.toOption]
  rw [next?, hstored, Option.bind_some, hlink, hends, Option.map_some]

private theorem endingAt?_answer {r : Except FetchError Bytes} (hdepth : i ≠ depth)
    (hanswer : m.answer timeout p = r) :
    m.endingAt? timeout depth verified i p = endingOf? verified p.cid r := by
  rw [endingAt?, if_neg hdepth, hanswer]

private theorem goesAlong_answer (left : Nat) (visited : List Height) (t : Memory)
    {r : Except FetchError Bytes} {ending : WalkEnd} (hdepth : i ≠ depth)
    (hanswer : m.answer timeout p = r)
    (hend : endingOf? verified p.cid r = some ending) :
    m.GoesAlong timeout depth verified (left + 1) i p visited t
      ⟨visited.reverse ++ (heightOf? r).toList, ending⟩ (t.read p.cid).2 := by
  have hheight : m.heightAt? timeout p = heightOf? r := congrArg heightOf? hanswer
  rw [← hheight]
  exact goesAlong_here ((endingAt?_answer hdepth hanswer).trans hend)

private theorem walkOn_goesAlong [Quantity α] {left i : Nat} (hleft : i + left = depth) (p : Place)
    (visited : List Height) (reads : Table Nat) {w : Walk} {ends : Instant} {s : Limited α Memory}
    (hrun : (walkOn (fetch store timeout) none depth verified left p.cid visited).run p.asked
      ⟨.unlimited, { m with reads := reads }⟩ = (w, ends, s)) :
    m.GoesAlong timeout depth verified left i p visited { m with reads := reads } w s.behind ∧
      s.limiter = .unlimited := by
  -- reads are counted in the state, but what is answered does not depend on their counts
  induction left generalizing i p visited reads with
  | zero =>
    obtain ⟨rfl, rfl, rfl⟩ := hrun
    refine ⟨⟨0, Nat.le_refl 0, endsAfter_here ?_, ?_, rfl, ?_⟩, rfl⟩
    · exact if_pos hleft
    · simp [firstPlaces]
    · simp [firstPlaces]
  | succ left ih =>
    have hdepth : i ≠ depth := by omega
    have hfetch : ((fetch store timeout p.cid).breakOff none).run p.asked
        (⟨.unlimited, { m with reads := reads }⟩ : Limited α Memory) =
          (some (.answered (m.answer timeout p)), m.fetchEnd timeout p,
            ⟨.unlimited, (read p.cid { m with reads := reads }).2⟩) := by
      rw [run_breakOff_none, run_fetch]
      rfl
    cases hanswer : m.answer timeout p with
    | error e =>
      rw [hanswer] at hfetch
      rw [run_walkOn_unread hfetch] at hrun
      obtain ⟨rfl, rfl, rfl⟩ := hrun
      have hend : endingOf? verified p.cid (.error e) = some (.failed (.fetch p.cid e)) := rfl
      have hhere := goesAlong_answer left visited { m with reads := reads } hdepth hanswer hend
      simp only [heightOf?, Option.toList_none, List.append_nil] at hhere
      exact ⟨hhere, rfl⟩
    | ok bytes =>
      rw [hanswer] at hfetch
      cases hnode : Node.ofBytes bytes with
      | error fault =>
        rw [run_walkOn_undecoded hfetch hnode] at hrun
        obtain ⟨rfl, rfl, rfl⟩ := hrun
        have hend : endingOf? verified p.cid (.ok bytes) =
            some (.failed (.decode p.cid fault)) := by
          simp [endingOf?, hnode]
        have hhere := goesAlong_answer left visited { m with reads := reads } hdepth hanswer hend
        simp only [heightOf?, hnode, Except.toOption, Option.map_none, Option.toList_none,
          List.append_nil] at hhere
        exact ⟨hhere, rfl⟩
      | ok node =>
        have hheight : heightOf? (.ok bytes) = some node.height := by
          simp [heightOf?, hnode, Except.toOption]
        have hof := endingOf?_node verified p.cid hnode
        cases hend : endAt? verified node with
        | error ending =>
          rw [run_walkOn_ended hfetch hnode hend] at hrun
          obtain ⟨rfl, rfl, rfl⟩ := hrun
          rw [hend] at hof
          have hhere := goesAlong_answer left visited { m with reads := reads } hdepth hanswer hof
          rw [hheight, Option.toList_some, ← List.reverse_cons] at hhere
          exact ⟨hhere, rfl⟩
        | ok previous =>
          rw [run_walkOn_followed hfetch hnode hend] at hrun
          rw [hend] at hof
          have hbelow : i + 1 + left = depth := by omega
          obtain ⟨hrest, hfree⟩ := ih hbelow ⟨previous, m.fetchEnd timeout p⟩ _ _ hrun
          have hon := (endingAt?_answer hdepth hanswer).trans hof
          have hvisited := (congrArg heightOf? hanswer).trans hheight
          exact ⟨goesAlong_next hon hvisited (next?_node hanswer hnode hend) hrest, hfree⟩

/-- Whatever a store holds and however its links run, a walk that nobody stops and no limiter holds
up ends at the first place of its path where there is a reason to. It visits the nodes on the way,
and reads every place that it reaches once, unless that is the one at its depth. -/
theorem walk_along_path [Quantity α] (m : Memory) (timeout : Span) (depth : Nat)
    (verified : Option Height) (head : String) (now : Instant) :
    ∃ (w : Walk) (ends : Instant) (after : Memory),
      (walk (fetch store timeout) none depth verified head).run now
        (⟨.unlimited, m⟩ : Limited α Memory) = (w, ends, ⟨.unlimited, after⟩) ∧
      ∃ n ≤ depth,
        (∀ i < n, ∃ p, m.placeAt? ⟨head, now⟩ i = some p ∧
          m.endingAt? timeout depth verified i p = none) ∧
        (∃ p, m.placeAt? ⟨head, now⟩ n = some p ∧
          m.endingAt? timeout depth verified n p = some w.ending) ∧
        w.heights =
          (m.firstPlaces ⟨head, now⟩ (min (n + 1) depth)).filterMap (m.heightAt? timeout) ∧
        w.headHeight? = w.heights.head? ∧
        after = { m with reads := after.reads } ∧
        ∀ cid, after.readCount cid = m.readCount cid +
          ((m.firstPlaces ⟨head, now⟩ (min (n + 1) depth)).map Place.cid).count cid := by
  rcases hrun : (walk (fetch store timeout) none depth verified head).run now
    (⟨.unlimited, m⟩ : Limited α Memory) with ⟨w, ends, s⟩
  obtain ⟨⟨n, hn, ⟨hbefore, hend⟩, hheights, hkept, hreads⟩, hfree⟩ :=
    walkOn_goesAlong (m := m) (Nat.zero_add depth) ⟨head, now⟩ [] m.reads hrun
  obtain ⟨limiter, after⟩ := s
  obtain rfl : limiter = .unlimited := hfree
  simp only [Nat.zero_add] at hbefore hend
  exact ⟨w, ends, after, rfl, n, hn, hbefore, hend, hheights, rfl, hkept, hreads⟩

end Store.Memory

end ChainAudit
