import ChainAudit.Proofs.Store.Fetch
import ChainAudit.Walk

/-!
# What walks visit

A walk reads one node after the other and follows the links of those that it decodes. Where these
lead to the first node of a chain and every answer is true to the chain, a complete walk visits the
nodes from the head down to the first one whose height was verified before, and no walk with depth
enough ends otherwise unless it is stopped.
-/

namespace ChainAudit

open ChainAudit.Chain ChainAudit.Json ChainAudit.Clock ChainAudit.Schedule
open ChainAudit.Schedule.Activity ChainAudit.Store ChainAudit.Text

section Outcomes

/-- What a walk may come to that goes on from the node `cid`, when a fetch may give the answers of
`answers`. The numbers and lists are those of `walkOn`. -/
inductive Walked (answers : String → Fetched → Prop) (stop : Option Instant) (depth : Nat)
    (verified : Option Height) : Nat → String → List Height → Walk → Prop
  | depthExceeded {cid visited} :
      Walked answers stop depth verified 0 cid visited ⟨visited.reverse, .depthExceeded depth⟩
  | cancelled {left cid visited} (hstop : stop ≠ none) :
      Walked answers stop depth verified (left + 1) cid visited ⟨visited.reverse, .cancelled⟩
  | lost {left cid visited} (hanswer : answers cid .lost) :
      Walked answers stop depth verified (left + 1) cid visited ⟨visited.reverse, .lost⟩
  | unread {left cid visited e} (hanswer : answers cid (.answered (.error e))) :
      Walked answers stop depth verified (left + 1) cid visited
        ⟨visited.reverse, .failed (.fetch cid e)⟩
  | undecoded {left cid visited bytes fault} (hanswer : answers cid (.answered (.ok bytes)))
      (hnode : Node.ofBytes bytes = .error fault) :
      Walked answers stop depth verified (left + 1) cid visited
        ⟨visited.reverse, .failed (.decode cid fault)⟩
  | ended {left cid visited bytes node ending} (hanswer : answers cid (.answered (.ok bytes)))
      (hnode : Node.ofBytes bytes = .ok node) (hend : endAt? verified node = .error ending) :
      Walked answers stop depth verified (left + 1) cid visited
        ⟨(node.height :: visited).reverse, ending⟩
  | followed {left cid visited bytes node previous w}
      (hanswer : answers cid (.answered (.ok bytes))) (hnode : Node.ofBytes bytes = .ok node)
      (hend : endAt? verified node = .ok previous)
      (hrest : Walked answers stop depth verified left previous (node.height :: visited) w) :
      Walked answers stop depth verified (left + 1) cid visited w

/-- What a walk that is not cancelled comes to after a fetch. -/
def GoesOn (answers : String → Fetched → Prop) (stop : Option Instant) (depth : Nat)
    (verified : Option Height) (left : Nat) (cid : String) (visited : List Height) (w : Walk) :
    Fetched → Prop
  | .lost => w = ⟨visited.reverse, .lost⟩
  | .answered (.error e) => w = ⟨visited.reverse, .failed (.fetch cid e)⟩
  | .answered (.ok bytes) =>
      match Node.ofBytes bytes with
      | .error fault => w = ⟨visited.reverse, .failed (.decode cid fault)⟩
      | .ok node =>
          match endAt? verified node with
          | .error ending => w = ⟨(node.height :: visited).reverse, ending⟩
          | .ok previous =>
              Walked answers stop depth verified left previous (node.height :: visited) w

theorem walked_goesOn {answers : String → Fetched → Prop} {stop : Option Instant}
    {depth left : Nat} {verified : Option Height} {cid : String} {visited : List Height} {w : Walk}
    (hw : Walked answers stop depth verified (left + 1) cid visited w)
    (hend : w.ending ≠ .cancelled) :
    ∃ r, answers cid r ∧ GoesOn answers stop depth verified left cid visited w r := by
  cases hw with
  | cancelled _ => exact absurd rfl hend
  | lost hanswer => exact ⟨_, hanswer, rfl⟩
  | unread hanswer => exact ⟨_, hanswer, rfl⟩
  | undecoded hanswer hnode => exact ⟨_, hanswer, by simp [GoesOn, hnode]⟩
  | ended hanswer hnode hstop => exact ⟨_, hanswer, by simp [GoesOn, hnode, hstop]⟩
  | followed hanswer hnode hlink hrest => exact ⟨_, hanswer, by simpa [GoesOn, hnode, hlink]⟩

theorem endAt?_error {verified : Option Height} {node : Node} {ending : WalkEnd}
    (h : endAt? verified node = .error ending) :
    ending = .genesis ∨ ending = .reachedVerified node.height := by
  unfold endAt? at h
  split at h
  · exact Or.inl (Except.error.inj h).symm
  · split at h
    · exact Or.inr (Except.error.inj h).symm
    · cases h

theorem walked_visited {answers : String → Fetched → Prop} {stop : Option Instant}
    {depth left : Nat} {verified : Option Height} {cid : String} {visited : List Height} {w : Walk}
    (hw : Walked answers stop depth verified left cid visited w) :
    visited.reverse <+: w.heights := by
  induction hw with
  | ended => simp
  | followed _ _ _ _ ih => exact List.IsPrefix.trans (by simp) ih
  | _ => exact List.prefix_rfl

theorem walked_depth {answers : String → Fetched → Prop} {stop : Option Instant}
    {depth left : Nat} {verified : Option Height} {cid : String} {visited : List Height} {w : Walk}
    (hw : Walked answers stop depth verified left cid visited w) :
    w.heights.length ≤ visited.length + left ∧
      (w.ending.label? = some "depth_exceeded" → w.heights.length = visited.length + left) := by
  induction hw with
  | depthExceeded => simp
  | cancelled | lost | unread | undecoded => simp [WalkEnd.label?]
  | ended _ _ hend =>
    constructor
    · rw [List.length_reverse, List.length_cons]
      omega
    · intro hlabel
      rcases endAt?_error hend with rfl | rfl <;> simp [WalkEnd.label?] at hlabel
  | followed _ _ _ _ ih =>
    rw [List.length_cons, Nat.add_right_comm] at ih
    exact ih

theorem walked_lost {answers : String → Fetched → Prop} {stop : Option Instant}
    {depth left : Nat} {verified : Option Height} {cid : String} {visited : List Height} {w : Walk}
    (hw : Walked answers stop depth verified left cid visited w) (hend : w.ending = .lost) :
    ∃ cid, answers cid .lost := by
  induction hw with
  | lost hanswer => exact ⟨_, hanswer⟩
  | ended _ _ hstop =>
    rcases endAt?_error hstop with rfl | rfl
    · cases hend
    · cases hend
  | followed _ _ _ _ ih => exact ih hend
  | _ => cases hend

theorem walked_unique {answers answers' : String → Fetched → Prop}
    {stop stop' : Option Instant} {depth left : Nat} {verified : Option Height} {cid : String}
    {visited : List Height} {w w' : Walk}
    (hsame : ∀ cid r r', answers cid r → answers' cid r' → r = r')
    (hw : Walked answers stop depth verified left cid visited w)
    (hw' : Walked answers' stop' depth verified left cid visited w')
    (hend : w.ending ≠ .cancelled) (hend' : w'.ending ≠ .cancelled) : w = w' := by
  induction left generalizing cid visited with
  | zero =>
    cases hw
    cases hw'
    rfl
  | succ left ih =>
    obtain ⟨r, hanswer, hon⟩ := walked_goesOn hw hend
    obtain ⟨r', hanswer', hon'⟩ := walked_goesOn hw' hend'
    obtain rfl := hsame cid r r' hanswer hanswer'
    match r with
    | .lost => exact hon.trans hon'.symm
    | .answered (.error e) => exact hon.trans hon'.symm
    | .answered (.ok bytes) =>
      unfold GoesOn at hon hon'
      cases hnode : Node.ofBytes bytes with
      | error fault =>
        simp only [hnode] at hon hon'
        exact hon.trans hon'.symm
      | ok node =>
        simp only [hnode] at hon hon'
        cases hlink : endAt? verified node with
        | error ending =>
          simp only [hlink] at hon hon'
          exact hon.trans hon'.symm
        | ok previous =>
          simp only [hlink] at hon hon'
          exact ih hon hon'

/-- All fetches of a walk are made at the place within a millisecond at which it starts, if every
fetch ends at the place at which it is made. -/
theorem walkOn_ensures {inv : σ → Prop} {answers : String → Fetched → Prop}
    {fetch : String → Activity σ Fetched} {place : Instant}
    (hfetch : ∀ cid now, now % 1000000 = place % 1000000 → (fetch cid).Ensures (Ticking none) inv
      (fun r t => answers cid r ∧ t % 1000000 = place % 1000000) now)
    (stop : Option Instant) (depth : Nat) (verified : Option Height) (left : Nat) (cid : String)
    (visited : List Height) {now : Instant} (hnow : now % 1000000 = place % 1000000) :
    (walkOn fetch stop depth verified left cid visited).Ensures (Ticking stop) inv
      (fun w _ => Walked answers stop depth verified left cid visited w) now := by
  induction left generalizing cid visited now with
  | zero => exact ensures_pure .depthExceeded
  | succ left ih =>
    refine ensures_bind (ensures_mono (ensures_breakOff (hfetch cid now hnow)) ?_)
    intro r t hr
    match r with
    | none =>
      obtain ⟨fires, hstop, _⟩ := hr
      exact ensures_pure (.cancelled (by simp [hstop]))
    | some .lost => exact ensures_pure (.lost hr.1)
    | some (.answered (.error e)) => exact ensures_pure (.unread hr.1)
    | some (.answered (.ok bytes)) =>
      obtain ⟨hanswer, hplace⟩ := hr
      dsimp only
      split
      · rename_i fault hnode
        exact ensures_pure (.undecoded hanswer hnode)
      · rename_i node hnode
        split
        · rename_i ending hend
          exact ensures_pure (.ended hanswer hnode hend)
        · rename_i previous hend
          exact ensures_mono (ih previous _ hplace) fun w _ hw => .followed hanswer hnode hend hw

theorem walk_ensures {inv : σ → Prop} {answers : String → Fetched → Prop}
    {fetch : String → Activity σ Fetched} {place : Instant}
    (hfetch : ∀ cid now, now % 1000000 = place % 1000000 → (fetch cid).Ensures (Ticking none) inv
      (fun r t => answers cid r ∧ t % 1000000 = place % 1000000) now)
    (stop : Option Instant) (depth : Nat) (verified : Option Height) (head : String)
    {now : Instant} (hnow : now % 1000000 = place % 1000000) :
    (walk fetch stop depth verified head).Ensures (Ticking stop) inv
      (fun w _ => Walked answers stop depth verified depth head [] w) now :=
  walkOn_ensures hfetch stop depth verified depth head [] hnow

end Outcomes

section Paths

structure Block where
  cid : String
  node : Node

def Block.height (b : Block) : Height := b.node.height

/-- From an identifier the links lead over the nodes of a list to the first node of a chain. -/
inductive LeadsToGenesis : String → List Block → Prop
  | first {b : Block} (hfirst : b.node.previous? = none) : LeadsToGenesis b.cid [b]
  | link {b : Block} {previous : String} {rest : List Block}
      (hlink : b.node.previous? = some previous) (hrest : LeadsToGenesis previous rest) :
      LeadsToGenesis b.cid (b :: rest)

/-- The part of a list of heights that a walk visits: up to the first height that was verified
before. -/
def untilVerified (verified : Option Height) : List Height → List Height
  | [] => []
  | h :: rest => if verified.any (h ≤ ·) then [h] else h :: untilVerified verified rest

theorem untilVerified_none (heights : List Height) : untilVerified none heights = heights := by
  induction heights with
  | nil => rfl
  | cons h rest ih => simp [untilVerified, ih]

theorem untilVerified_initial (verified : Option Height) (heights : List Height) :
    untilVerified verified heights <+: heights := by
  induction heights with
  | nil => exact List.prefix_rfl
  | cons h rest ih =>
    simp only [untilVerified]
    split
    · exact ⟨rest, rfl⟩
    · exact (List.prefix_cons_inj h).mpr ih

theorem untilVerified_head? (verified : Option Height) (heights : List Height) :
    (untilVerified verified heights).head? = heights.head? := by
  cases heights with
  | nil => rfl
  | cons h rest =>
    simp only [untilVerified]
    split <;> rfl

variable {answers : String → Fetched → Prop} {stop : Option Instant} {depth : Nat}
variable {verified : Option Height} {left : Nat} {cid : String} {visited : List Height} {w : Walk}
variable {path : List Block}

theorem endAt?_first {node : Node} (hfirst : node.previous? = none) :
    endAt? verified node = .error .genesis := by
  simp [endAt?, hfirst]

theorem endAt?_link {node : Node} {previous : String} (hlink : node.previous? = some previous) :
    endAt? verified node =
      if verified.any (node.height ≤ ·) then .error (.reachedVerified node.height)
      else .ok previous := by
  simp [endAt?, hlink]

/-- What keeps a walk along a path from being complete: that it is cancelled, that it may not go as
deep, or that a fetch of a node fails or breaks down. -/
def Hindered (answers : String → Fetched → Prop) (left : Nat) (path : List Block)
    (w : Walk) : Prop :=
  w.ending = .cancelled ∨ left < path.length ∨
    ∃ b ∈ path, ∃ r, answers b.cid r ∧ ∀ bytes, r ≠ .answered (.ok bytes)

/-- What a walk comes to along a path. -/
def FollowsPath (answers : String → Fetched → Prop) (verified : Option Height)
    (left : Nat) (path : List Block) (visited : List Height) (w : Walk) : Prop :=
  (w.ending.isComplete = true ∧
      w.heights = visited.reverse ++ untilVerified verified (path.map Block.height)) ∨
    (w.ending.isComplete = false ∧ Hindered answers left path w)

private theorem followsPath_cons {b : Block} {rest : List Block}
    (hup : verified.any (b.node.height ≤ ·) = false)
    (h : FollowsPath answers verified left rest (b.node.height :: visited) w) :
    FollowsPath answers verified (left + 1) (b :: rest) visited w := by
  rcases h with ⟨hcomplete, hheights⟩ | ⟨hincomplete, hhindered⟩
  · refine Or.inl ⟨hcomplete, ?_⟩
    rw [hheights]
    simp [untilVerified, Block.height, hup]
  · refine Or.inr ⟨hincomplete, ?_⟩
    rcases hhindered with hcancelled | hshort | ⟨b', hb', herror⟩
    · exact Or.inl hcancelled
    · exact Or.inr (Or.inl (Nat.succ_lt_succ hshort))
    · exact Or.inr (Or.inr ⟨b', List.mem_cons_of_mem _ hb', herror⟩)

private theorem followsPath_node {b : Block} {rest : List Block}
    (htrue : ∀ bytes, answers b.cid (.answered (.ok bytes)) → Node.ofBytes bytes = .ok b.node)
    (hw : Walked answers stop depth verified left b.cid visited w)
    (hended : ∀ ending, endAt? verified b.node = .error ending →
      FollowsPath answers verified left (b :: rest) visited
        ⟨(b.node.height :: visited).reverse, ending⟩)
    (hfollowed : ∀ previous left', left = left' + 1 → endAt? verified b.node = .ok previous →
      Walked answers stop depth verified left' previous (b.node.height :: visited) w →
      FollowsPath answers verified left (b :: rest) visited w) :
    FollowsPath answers verified left (b :: rest) visited w := by
  cases hw with
  | depthExceeded => exact Or.inr ⟨rfl, Or.inr (Or.inl (Nat.succ_pos _))⟩
  | cancelled _ => exact Or.inr ⟨rfl, Or.inl rfl⟩
  | lost hanswer =>
    exact Or.inr ⟨rfl, Or.inr (Or.inr ⟨b, List.mem_cons_self, _, hanswer, nofun⟩)⟩
  | unread hanswer =>
    exact Or.inr ⟨rfl, Or.inr (Or.inr ⟨b, List.mem_cons_self, _, hanswer, nofun⟩)⟩
  | undecoded hanswer hnode => simp [htrue _ hanswer] at hnode
  | @ended _ _ _ _ node ending hanswer hnode hend =>
    have hsame : node = b.node := Except.ok.inj (hnode.symm.trans (htrue _ hanswer))
    subst hsame
    exact hended ending hend
  | @followed left' _ _ _ node previous _ hanswer hnode hend hrest =>
    have hsame : node = b.node := Except.ok.inj (hnode.symm.trans (htrue _ hanswer))
    subst hsame
    exact hfollowed previous left' rfl hend hrest

/-- A walk along a path visits the nodes down to the first verified one, or is hindered. -/
theorem walked_path
    (htrue : ∀ b ∈ path, ∀ bytes, answers b.cid (.answered (.ok bytes)) →
      Node.ofBytes bytes = .ok b.node)
    (hpath : LeadsToGenesis cid path)
    (hw : Walked answers stop depth verified left cid visited w) :
    FollowsPath answers verified left path visited w := by
  induction hpath generalizing left visited with
  | @first b hfirst =>
    refine followsPath_node (htrue b List.mem_cons_self) hw ?_ ?_
    · intro ending hend
      rw [endAt?_first hfirst] at hend
      obtain rfl := Except.error.inj hend
      exact Or.inl ⟨rfl, by simp [untilVerified, Block.height]⟩
    · intro previous left' _ hend _
      simp [endAt?_first hfirst] at hend
  | @link b previous rest hlink hrest ih =>
    refine followsPath_node (htrue b List.mem_cons_self) hw ?_ ?_
    · intro ending hend
      rw [endAt?_link hlink] at hend
      split at hend
      · rename_i hdown
        obtain rfl := Except.error.inj hend
        exact Or.inl ⟨rfl, by simp [untilVerified, Block.height, hdown]⟩
      · simp at hend
    · intro next left' hleft hend hwalked
      subst hleft
      rw [endAt?_link hlink] at hend
      split at hend
      · simp at hend
      · rename_i hup
        obtain rfl := Except.ok.inj hend
        have hbelow := ih (fun b' hb' => htrue b' (List.mem_cons_of_mem _ hb')) hwalked
        exact followsPath_cons (Bool.eq_false_iff.mpr hup) hbelow

/-- Where nothing was verified before, only the first node of a chain ends a complete walk. -/
theorem walked_genesis (hw : Walked answers stop depth none left cid visited w)
    (hcomplete : w.ending.isComplete = true) : w.ending = .genesis := by
  induction left generalizing cid visited with
  | zero =>
    cases hw
    simp [WalkEnd.isComplete] at hcomplete
  | succ left ih =>
    cases hw with
    | ended _ hnode hend =>
      unfold endAt? at hend
      split at hend
      · exact (Except.error.inj hend).symm
      · simp at hend
    | followed _ _ _ hrest => exact ih hrest
    | _ => simp [WalkEnd.isComplete] at hcomplete

end Paths

end ChainAudit
