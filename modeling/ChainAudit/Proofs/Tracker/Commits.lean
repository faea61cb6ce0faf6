import ChainAudit.Proofs.Tracker

/-!
# Trackers after commits

What a tracker remembers of a project sums up the commits of that project, whatever is committed for
other projects in between: the first of the highest heads, and the highest head of a complete walk.
So commits for different projects may come in either order.
-/

namespace ChainAudit

open ChainAudit.Chain ChainAudit.Clock

/-- The outcome of a walk that is committed for a project. -/
structure Commit where
  project : String
  height : Height
  complete : Bool
  seenAt : Moment
  deriving DecidableEq, Repr

def Commit.sighting (c : Commit) : Sighting := ⟨c.height, c.seenAt⟩

def commitsFor (project : String) (commits : List Commit) : List Commit :=
  commits.filter fun c => c.project == project

/-- The tracker after commits that are made one after the other. -/
def Tracker.after (commits : List Commit) (t : Tracker) : Tracker :=
  commits.foldl (fun t c => t.commit c.project c.height c.complete c.seenAt) t

def completeHeads (commits : List Commit) : List Height :=
  (commits.filter (·.complete)).map (·.height)

def IsHighest (heights : List Height) (top : Height) : Prop :=
  top ∈ heights ∧ ∀ h ∈ heights, h ≤ top

/-- What is remembered of a project sums up its commits. -/
structure Tracked.SumsUp (t : Tracked) (commits : List Commit) : Prop where
  head : FirstHighest (commits.map Commit.sighting) ⟨t.head.height, t.head.advancedAt⟩
  verified : match t.verified with
    | none => completeHeads commits = []
    | some v => IsHighest (completeHeads commits) v
  bounded : ∀ v, t.verified = some v → v ≤ t.head.height

section Records

/-- What is remembered of a project after one more of its commits. -/
def Commit.observed (known : Option Tracked) (c : Commit) : Option Tracked :=
  some (Tracker.observed c.height c.complete c.seenAt known)

/-- What is remembered of a project after its commits. -/
def remembered (commits : List Commit) : Option Tracked :=
  commits.foldl Commit.observed none

theorem remembered_snoc (commits : List Commit) (c : Commit) :
    remembered (commits ++ [c]) = c.observed (remembered commits) := by
  rw [remembered, List.foldl_append]
  rfl

theorem remembered_head (commits : List Commit) :
    (remembered commits).map (·.head) = knownAfter (commits.map Commit.sighting) := by
  induction commits using List.reverseRecOn with
  | nil => rfl
  | append_singleton commits c ih =>
    rw [remembered_snoc, List.map_append, List.map_singleton, knownAfter_snoc, ← ih,
      Commit.observed, Option.map_some, Tracker.observed_head]
    rfl

theorem completeHeads_snoc (commits : List Commit) (c : Commit) :
    completeHeads (commits ++ [c]) =
      completeHeads commits ++ if c.complete then [c.height] else [] := by
  cases hc : c.complete <;> simp [completeHeads, hc]

theorem Tracker.observed_verified_eq (height : Height) (complete : Bool) (seenAt : Moment)
    (t : Option Tracked) : (observed height complete seenAt t).verified =
      if complete then some (raise height (t.bind (·.verified))) else t.bind (·.verified) := by
  cases t <;> rfl

theorem IsHighest.snoc {heights : List Height} {top : Height} (h : IsHighest heights top)
    (height : Height) : IsHighest (heights ++ [height]) (Tracker.raise height (some top)) := by
  have hall : ∀ x ∈ heights ++ [height], x ≤ top ∨ x = height := by
    intro x hx
    rcases List.mem_append.mp hx with hx | hx
    · exact .inl (h.2 x hx)
    · exact .inr (List.mem_singleton.mp hx)
  rcases Int64.le_total height top with hle | hle
  · rw [Tracker.raise_of_le hle]
    refine ⟨List.mem_append_left _ h.1, ?_⟩
    intro x hx
    rcases hall x hx with hx | rfl
    · exact hx
    · exact hle
  · have hraise : Tracker.raise height (some top) = height := if_pos hle
    rw [hraise]
    refine ⟨by simp, ?_⟩
    intro x hx
    rcases hall x hx with hx | rfl
    · exact Int64.le_trans hx hle
    · exact Int64.le_refl x

theorem remembered_verified (commits : List Commit) :
    match (remembered commits).bind (·.verified) with
    | none => completeHeads commits = []
    | some v => IsHighest (completeHeads commits) v := by
  induction commits using List.reverseRecOn with
  | nil => rfl
  | append_singleton commits c ih =>
    rw [remembered_snoc, completeHeads_snoc, Commit.observed, Option.bind_some,
      Tracker.observed_verified_eq]
    cases hc : c.complete with
    | false => simpa using ih
    | true =>
      cases hv : (remembered commits).bind (·.verified) with
      | none =>
        rw [hv] at ih
        simp [ih, IsHighest, Tracker.raise]
      | some v =>
        rw [hv] at ih
        exact ih.snoc c.height

theorem sumsUp_remembered {commits : List Commit} {t : Tracked} (h : remembered commits = some t) :
    t.SumsUp commits := by
  have hhead := knownAfter_spec (commits.map Commit.sighting)
  rw [← remembered_head, h] at hhead
  have hverified := remembered_verified commits
  rw [h] at hverified
  refine ⟨hhead, hverified, ?_⟩
  intro v hv
  rw [Option.bind_some, hv] at hverified
  obtain ⟨c, hc, rfl⟩ := List.mem_map.mp hverified.1
  exact hhead.le c.sighting (List.mem_map_of_mem (List.mem_of_mem_filter hc))

theorem remembered_none {commits : List Commit} (h : remembered commits = none) :
    commits = [] := by
  have hhead := knownAfter_spec (commits.map Commit.sighting)
  rw [← remembered_head, h] at hhead
  exact List.map_eq_nil_iff.mp hhead

end Records

namespace Tracker

theorem get?_after (project : String) (commits : List Commit) (t : Tracker) :
    (t.after commits).get? project =
      (commitsFor project commits).foldl Commit.observed (t.get? project) := by
  induction commits generalizing t with
  | nil => rfl
  | cons c commits ih =>
    change ((t.commit c.project c.height c.complete c.seenAt).after commits).get? project = _
    rw [ih, get?_commit]
    by_cases hc : c.project = project
    · rw [if_pos hc.symm, commitsFor, commitsFor, List.filter_cons_of_pos (by simpa using hc), hc]
      rfl
    · rw [if_neg (Ne.symm hc), commitsFor, commitsFor, List.filter_cons_of_neg (by simpa using hc)]

theorem names_after_nodup {t : Tracker} (h : t.names.Nodup) (commits : List Commit) :
    (t.after commits).names.Nodup := by
  induction commits generalizing t with
  | nil => exact h
  | cons c commits ih => exact ih (Table.names_put_nodup h c.project _)

theorem commitsFor_swap {c d : Commit} (hcd : c.project ≠ d.project) (project : String)
    (before later : List Commit) :
    commitsFor project (before ++ c :: d :: later) =
      commitsFor project (before ++ d :: c :: later) := by
  by_cases hc : c.project = project
  · have hd : d.project ≠ project := fun hd => hcd (hc.trans hd.symm)
    simp [commitsFor, List.filter_cons, hd]
  · simp [commitsFor, List.filter_cons, hc]

/-- Whatever is committed, for whatever projects and at whatever moments: there is one record for
each project that something was committed for and none for the others, it sums up the commits for
that project, and commits for different projects that follow one another may be swapped. -/
theorem commits_summed_up (commits : List Commit) :
    (∀ project,
      match (Tracker.after commits []).get? project with
      | none => commitsFor project commits = []
      | some t => commitsFor project commits ≠ [] ∧ t.SumsUp (commitsFor project commits)) ∧
    (Tracker.after commits []).names.Nodup ∧
    ∀ before c d later, commits = before ++ c :: d :: later → c.project ≠ d.project →
      (Tracker.after commits []).Perm (Tracker.after (before ++ d :: c :: later) []) ∧
      ∀ project, (Tracker.after commits []).get? project =
        (Tracker.after (before ++ d :: c :: later) []).get? project := by
  have hstart : (Table.names ([] : Tracker)).Nodup := List.nodup_nil
  refine ⟨?_, names_after_nodup hstart commits, ?_⟩
  · intro project
    have hget : (Tracker.after commits []).get? project =
        remembered (commitsFor project commits) := get?_after project commits []
    cases hknown : (Tracker.after commits []).get? project with
    | none => exact remembered_none (hget.symm.trans hknown)
    | some t =>
      have hsums := sumsUp_remembered (hget.symm.trans hknown)
      refine ⟨?_, hsums⟩
      intro hnone
      have hmem := hsums.head.mem
      rw [hnone] at hmem
      cases hmem
  · rintro before c d later rfl hcd
    have hsame : ∀ project, (Tracker.after (before ++ c :: d :: later) []).get? project =
        (Tracker.after (before ++ d :: c :: later) []).get? project := by
      intro project
      rw [get?_after, get?_after, commitsFor_swap hcd]
    refine ⟨?_, hsame⟩
    exact Table.perm_of_get? (names_after_nodup hstart _) (names_after_nodup hstart _) hsame

/-- Of two projects with commits in turn, one is seen to fall back, with a walk that is not complete
and a clock that goes back, and the other never has a complete walk. -/
def turnabout : List Commit := [
  ⟨"p", 5, true, ⟨100⟩⟩, ⟨"q", 7, false, ⟨50⟩⟩, ⟨"p", 3, true, ⟨90⟩⟩, ⟨"p", 9, false, ⟨40⟩⟩,
  ⟨"q", 7, false, ⟨60⟩⟩, ⟨"p", 9, false, ⟨200⟩⟩]

theorem commits_summed_up_turnabout :
    (Tracker.after turnabout []).get? "p" = some ⟨⟨9, ⟨40⟩⟩, some 5⟩ ∧
      Tracked.SumsUp ⟨⟨9, ⟨40⟩⟩, some 5⟩ (commitsFor "p" turnabout) ∧
      (Tracker.after turnabout []).get? "q" = some ⟨⟨7, ⟨50⟩⟩, none⟩ ∧
      "p" ≠ "q" ∧
      (Tracker.after turnabout []).Perm (Tracker.after [
        ⟨"q", 7, false, ⟨50⟩⟩, ⟨"p", 5, true, ⟨100⟩⟩, ⟨"p", 3, true, ⟨90⟩⟩, ⟨"p", 9, false, ⟨40⟩⟩,
        ⟨"q", 7, false, ⟨60⟩⟩, ⟨"p", 9, false, ⟨200⟩⟩] []) := by
  have hp : (Tracker.after turnabout []).get? "p" = some ⟨⟨9, ⟨40⟩⟩, some 5⟩ := by decide +kernel
  have hq : (Tracker.after turnabout []).get? "q" = some ⟨⟨7, ⟨50⟩⟩, none⟩ := by decide +kernel
  obtain ⟨hsums, -, hswap⟩ := commits_summed_up turnabout
  have hown := hsums "p"
  rw [hp] at hown
  exact ⟨hp, hown.2, hq, by decide, (hswap [] _ _ _ rfl (by decide)).1⟩

end Tracker

end ChainAudit
