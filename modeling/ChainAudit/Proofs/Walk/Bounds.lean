import ChainAudit.Proofs.Store.Alone
import ChainAudit.Proofs.Store.Memory
import ChainAudit.Proofs.Walk.Alone

/-!
# Walks with other bounds

A depth and a verified height are reasons to end a walk earlier, and they are nothing else. Two
walks with different bounds are given the same answers and go on together until one of them ends;
then the other one may go on alone, and it keeps the heights that both have visited.
-/

namespace ChainAudit

open ChainAudit.Chain ChainAudit.Clock ChainAudit.Limiter ChainAudit.Schedule
open ChainAudit.Schedule.Activity ChainAudit.Store ChainAudit.Text

section Answers

/-- What a fetch makes of a walk: its end, or the height of the node and the predecessor to go on
from. -/
def goesOn (verified : Option Height) (cid : String) (visited : List Height) :
    Fetched → Except Walk (Height × String)
  | .lost => .error ⟨visited.reverse, .lost⟩
  | .answered (.error e) => .error ⟨visited.reverse, .failed (.fetch cid e)⟩
  | .answered (.ok bytes) =>
      match Node.ofBytes bytes with
      | .error fault => .error ⟨visited.reverse, .failed (.decode cid fault)⟩
      | .ok node =>
          match endAt? verified node with
          | .error ending => .error ⟨(node.height :: visited).reverse, ending⟩
          | .ok previous => .ok (node.height, previous)

variable {verified lower : Option Height} {cid : String} {visited : List Height}

theorem run_walkOn_succ (fetch : String → Activity σ Fetched) (depth left : Nat)
    (verified : Option Height) (cid : String) (visited : List Height) (now : Instant) (s : σ) :
    (walkOn fetch none depth verified (left + 1) cid visited).run now s =
      match goesOn verified cid visited ((fetch cid).run now s).1 with
      | .error w => (w, ((fetch cid).run now s).2)
      | .ok (height, previous) =>
          (walkOn fetch none depth verified left previous (height :: visited)).run
            ((fetch cid).run now s).2.1 ((fetch cid).run now s).2.2 := by
  have hfetch := run_breakOff_none (fetch cid) now s
  match hr : ((fetch cid).run now s).1 with
  | .lost =>
    rw [hr] at hfetch
    exact run_walkOn_lost hfetch
  | .answered (.error e) =>
    rw [hr] at hfetch
    exact run_walkOn_unread hfetch
  | .answered (.ok bytes) =>
    rw [hr] at hfetch
    cases hnode : Node.ofBytes bytes with
    | error fault =>
      rw [run_walkOn_undecoded hfetch hnode]
      simp only [goesOn, hnode]
    | ok node =>
      cases hend : endAt? verified node with
      | error ending =>
        rw [run_walkOn_ended hfetch hnode hend]
        simp only [goesOn, hnode, hend]
      | ok previous =>
        rw [run_walkOn_followed hfetch hnode hend]
        simp only [goesOn, hnode, hend]

theorem length_of_goesOn {r : Fetched} {w : Walk}
    (h : goesOn verified cid visited r = .error w) : w.heights.length ≤ visited.length + 1 := by
  unfold goesOn at h
  split at h
  · obtain rfl := Except.error.inj h
    simp
  · obtain rfl := Except.error.inj h
    simp
  · split at h
    · obtain rfl := Except.error.inj h
      simp
    · split at h
      · obtain rfl := Except.error.inj h
        simp
      · cases h

/-- A fetch makes the same of two walks, unless the higher verified height ends one of them. -/
theorem goesOn_higher (hlower : ∀ h : Height, lower.any (h ≤ ·) → verified.any (h ≤ ·))
    (cid : String) (visited : List Height) (r : Fetched) :
    goesOn verified cid visited r = goesOn lower cid visited r ∨
      ∃ height previous, goesOn lower cid visited r = .ok (height, previous) ∧
        goesOn verified cid visited r =
          .error ⟨(height :: visited).reverse, .reachedVerified height⟩ := by
  match r with
  | .lost => exact .inl rfl
  | .answered (.error e) => exact .inl rfl
  | .answered (.ok bytes) =>
    cases hnode : Node.ofBytes bytes with
    | error fault => exact .inl (by simp only [goesOn, hnode])
    | ok node =>
      cases hlink : node.previous? with
      | none => exact .inl (by simp only [goesOn, endAt?, hnode, hlink])
      | some previous =>
        by_cases hbelow : lower.any (node.height ≤ ·) = true
        · have habove := hlower _ hbelow
          exact .inl (by simp only [goesOn, endAt?, hnode, hlink, hbelow, habove])
        · by_cases habove : verified.any (node.height ≤ ·) = true
          · refine .inr ⟨node.height, previous, ?_, ?_⟩
            · simp only [goesOn, endAt?, hnode, hlink, hbelow, if_false, Bool.false_eq_true]
            · simp only [goesOn, endAt?, hnode, hlink, habove, if_true]
          · refine .inl ?_
            simp only [goesOn, endAt?, hnode, hlink, hbelow, habove]

end Answers

section Together

/-- Fetches of one identifier that are made at two times that are alike come to the same, and they
end at times that are alike again. -/
def AnsweredAlike (fetch : String → Activity σ Fetched)
    (alike : Instant × σ → Instant × σ → Prop) : Prop :=
  ∀ cid p p', alike p p' →
    ((fetch cid).run p.1 p.2).1 = ((fetch cid).run p'.1 p'.2).1 ∧
      alike ((fetch cid).run p.1 p.2).2 ((fetch cid).run p'.1 p'.2).2

variable {fetch : String → Activity σ Fetched}
variable {alike : Instant × σ → Instant × σ → Prop} {verified lower : Option Height} {left : Nat}

theorem heights_shallower (hfetch : AnsweredAlike fetch alike) (verified : Option Height)
    (depth depth' : Nat) {left' : Nat} (hleft : left ≤ left') (cid : String)
    (visited : List Height) {p p' : Instant × σ} (hp : alike p p') :
    ((walkOn fetch none depth verified left cid visited).run p.1 p.2).1.heights =
      ((walkOn fetch none depth' verified left' cid visited).run p'.1 p'.2).1.heights.take
        (visited.length + left) := by
  induction left generalizing left' cid visited p p' with
  | zero =>
    have hvisited :=
      visited_initial_walkOn fetch none depth' left' verified cid visited p'.1 p'.2
    have hfirst := List.prefix_iff_eq_take.mp hvisited
    rw [List.length_reverse] at hfirst
    exact hfirst
  | succ left ih =>
    obtain ⟨left', rfl⟩ := Nat.exists_eq_add_of_le' (Nat.le_trans (Nat.succ_pos left) hleft)
    obtain ⟨hanswer, hnext⟩ := hfetch cid p p' hp
    rw [run_walkOn_succ, run_walkOn_succ, ← hanswer]
    cases hon : goesOn verified cid visited ((fetch cid).run p.1 p.2).1 with
    | error w =>
      refine (List.take_of_length_le ?_).symm
      exact Nat.le_trans (length_of_goesOn hon)
        (Nat.add_le_add_left (Nat.succ_pos left) visited.length)
    | ok next =>
      obtain ⟨height, previous⟩ := next
      have hdeeper := ih (Nat.le_of_succ_le_succ hleft) previous (height :: visited) hnext
      rw [List.length_cons, Nat.add_assoc, Nat.add_comm 1 left] at hdeeper
      exact hdeeper

theorem heights_higher (hfetch : AnsweredAlike fetch alike)
    (hlower : ∀ h : Height, lower.any (h ≤ ·) → verified.any (h ≤ ·)) (depth : Nat)
    (cid : String) (visited : List Height) {p p' : Instant × σ} (hp : alike p p') :
    let higher := ((walkOn fetch none depth verified left cid visited).run p.1 p.2).1
    let longer := ((walkOn fetch none depth lower left cid visited).run p'.1 p'.2).1
    higher.heights <+: longer.heights ∧
      (longer.ending.isComplete = true → higher.ending.isComplete = true) := by
  dsimp only
  induction left generalizing cid visited p p' with
  | zero => exact ⟨List.prefix_rfl, id⟩
  | succ left ih =>
    obtain ⟨hanswer, hnext⟩ := hfetch cid p p' hp
    rw [run_walkOn_succ, run_walkOn_succ, ← hanswer]
    rcases goesOn_higher hlower cid visited ((fetch cid).run p.1 p.2).1 with
      hsame | ⟨height, previous, hon, hend⟩
    · rw [hsame]
      cases goesOn lower cid visited ((fetch cid).run p.1 p.2).1 with
      | error w => exact ⟨List.prefix_rfl, id⟩
      | ok next => exact ih next.2 (next.1 :: visited) hnext
    · rw [hon, hend]
      exact ⟨visited_initial_walkOn .., fun _ => rfl⟩

end Together

/-- Two times at which a store without a limiter answers alike. -/
def AlikeAt (store : BlockStore ω) (p p' : Instant × Limited α ω) : Prop :=
  p.1 % 1000000 = p'.1 % 1000000 ∧ p.2.limiter = .unlimited ∧ p'.2.limiter = .unlimited ∧
    store.Alike p.2.behind p'.2.behind

theorem fetch_alike (α : Type) [Quantity α] (store : BlockStore ω) (timeout : Span) :
    AnsweredAlike (fetch store timeout : String → Activity (Limited α ω) _) (AlikeAt store) := by
  rintro cid ⟨now, limiter, s⟩ ⟨now', limiter', s'⟩ ⟨hnow, rfl, rfl, hs⟩
  dsimp only at hnow hs ⊢
  have hends := answeredAt_place timeout now (store.answerAlone cid s')
  have hends' := answeredAt_place timeout now' (store.answerAlone cid s')
  rw [run_fetch_unlimited, run_fetch_unlimited, hs.answer cid]
  exact ⟨congrArg Fetched.answered (answerAt_later hnow timeout cid _),
    hends.trans (hnow.trans hends'.symm), rfl, rfl, hs.read cid⟩

theorem Store.Memory.after_reads (cids : List String) (m : Memory) :
    ∃ reads, BlockStore.after Memory.store cids m = { m with reads := reads } := by
  induction cids generalizing m with
  | nil => exact ⟨m.reads, rfl⟩
  | cons cid cids ih =>
    obtain ⟨reads, hreads⟩ := ih (m.read cid).2
    exact ⟨reads, hreads⟩

theorem Store.Memory.alike_reads (m : Memory) (reads reads' : Table Nat) :
    BlockStore.Alike Memory.store { m with reads := reads } { m with reads := reads' } := by
  intro cids cid
  obtain ⟨r, hr⟩ := Store.Memory.after_reads cids { m with reads := reads }
  obtain ⟨r', hr'⟩ := Store.Memory.after_reads cids { m with reads := reads' }
  rw [hr, hr']
  rfl

section Bounds

variable (α : Type) [Quantity α]

/-- The walk that is made from an instant on if nothing limits the reads or stops it. -/
def freeWalk (store : BlockStore ω) (timeout : Span) (head : String)
    (now : Instant) (s : ω) (depth : Nat) (verified : Option Height) : Walk :=
  ((walk (fetch store timeout) none depth verified head).run now
    (⟨.unlimited, s⟩ : Limited α ω)).1

/-- Whatever a store holds: of two walks from one head, the one with the smaller depth has the first
heights of the other one, as many as its depth, and the one with the higher verified height, or with
one at all, has the first heights of the other one too. What is complete without a verified height
is complete with any. The walks may be made at different times, if the store answers alike. -/
theorem bounds_truncate (store : BlockStore ω) (timeout : Span) (head : String) {s s' : ω}
    (hs : store.Alike s s') (now now' : Instant) (hnow : now % 1000000 = now' % 1000000) :
    (∀ depth depth' verified, depth ≤ depth' →
      (freeWalk α store timeout head now s depth verified).heights =
        (freeWalk α store timeout head now' s' depth' verified).heights.take depth) ∧
    (∀ depth lower higher, lower ≤ higher →
      (freeWalk α store timeout head now s depth (some higher)).heights <+:
        (freeWalk α store timeout head now' s' depth (some lower)).heights) ∧
    (∀ depth verified,
      (freeWalk α store timeout head now s depth (some verified)).heights <+:
        (freeWalk α store timeout head now' s' depth none).heights) ∧
    ∀ depth verified,
      (freeWalk α store timeout head now' s' depth none).ending.isComplete = true →
        (freeWalk α store timeout head now s depth (some verified)).ending.isComplete = true := by
  have hfetch := fetch_alike α store timeout
  have hstart : AlikeAt store (now, (⟨.unlimited, s⟩ : Limited α ω))
      (now', (⟨.unlimited, s'⟩ : Limited α ω)) := ⟨hnow, rfl, rfl, hs⟩
  have hnone : ∀ verified : Height, ∀ h : Height,
      (none : Option Height).any (h ≤ ·) → (some verified).any (h ≤ ·) := by
    intro verified h hbelow
    cases hbelow
  refine ⟨?_, ?_, ?_, ?_⟩
  · intro depth depth' verified hdepth
    have htake := heights_shallower hfetch verified depth depth' hdepth head [] hstart
    rw [List.length_nil, Nat.zero_add] at htake
    exact htake
  · intro depth lower higher hle
    have hlower : ∀ h : Height, (some lower).any (h ≤ ·) → (some higher).any (h ≤ ·) := by
      intro h hbelow
      simp only [Option.any_some, decide_eq_true_eq] at hbelow ⊢
      exact Int64.le_trans hbelow hle
    exact (heights_higher hfetch hlower depth head [] hstart).1
  · intro depth verified
    exact (heights_higher hfetch (hnone verified) depth head [] hstart).1
  · intro depth verified
    exact (heights_higher hfetch (hnone verified) depth head [] hstart).2

/-- A chain that falls back and takes a while to read, beside one whose links run in a circle. -/
def unevenNodes : Memory :=
  (Memory.ofNodes [("a", 1, ""), ("b", 6, "a"), ("c", 4, "b"), ("d", 9, "c"), ("x", 3, "y"),
    ("y", 2, "x")]).delay "c" (.ofMillis 20)

theorem bounds_truncate_uneven :
    (freeWalk Rat Memory.store (.ofSeconds 1) "x" 0 unevenNodes 3 none).heights = [3, 2, 3] ∧
      (freeWalk Rat Memory.store (.ofSeconds 1) "x" 0 unevenNodes 3 none).heights =
        (freeWalk Rat Memory.store (.ofSeconds 1) "x" 0 unevenNodes 5 none).heights.take 3 ∧
      (4 : Height) ≤ 6 ∧
      (freeWalk Rat Memory.store (.ofSeconds 1) "d" 0 unevenNodes 9 (some 6)).heights = [9, 4] ∧
      (freeWalk Rat Memory.store (.ofSeconds 1) "d" 0 unevenNodes 9 (some 6)).heights <+:
        (freeWalk Rat Memory.store (.ofSeconds 1) "d" 7000000
          { unevenNodes with reads := [("x", 2)] } 9 (some 4)).heights ∧
      (freeWalk Rat Memory.store (.ofSeconds 1) "d" 7000000
        { unevenNodes with reads := [("x", 2)] } 9 none).heights = [9, 4, 6, 1] ∧
      (freeWalk Rat Memory.store (.ofSeconds 1) "d" 0 unevenNodes 9
        (some 6)).ending.isComplete = true := by
  have halike : BlockStore.Alike Memory.store unevenNodes
      { unevenNodes with reads := [("x", 2)] } :=
    Store.Memory.alike_reads unevenNodes unevenNodes.reads _
  have hphase : 0 % 1000000 = 7000000 % 1000000 := by decide
  have hdepth := (bounds_truncate Rat Memory.store (.ofSeconds 1) "x"
    (BlockStore.alike_refl Memory.store unevenNodes) 0 0 rfl).1
  obtain ⟨-, hhigher, -, hcomplete⟩ :=
    bounds_truncate Rat Memory.store (.ofSeconds 1) "d" halike 0 7000000 hphase
  exact ⟨by decide +kernel, hdepth 3 5 none (by decide), by decide, by decide +kernel,
    hhigher 9 4 6 (by decide), by decide +kernel, hcomplete 9 6 (by decide +kernel)⟩

end Bounds

end ChainAudit
