import ChainAudit.Proofs.Schedule.Crowd

/-!
# Visits to the shared state

Of all the turns of a crowd, those in which one of it goes on are its visits to the shared state.
What it finds there is up to the others; how far it gets, and what it leaves, is its own doing.
-/

namespace ChainAudit.Schedule

open ChainAudit.Clock

/-- A turn in which somebody goes on. -/
structure Visit (σ α : Type) where
  instant : Instant
  found : σ
  progress : Activity.Progress σ α
  left : σ

def Resting.visit (x : Resting σ α) (late : Option Span) (s : σ) : Visit σ α :=
  let now := x.goesOnAt late
  let (progress, left) := x.rest.advance now s
  ⟨now, s, progress, left⟩

namespace Crowd

variable [DecidableEq κ]

/-- The visit of one of a crowd in a turn, if it goes on in it. -/
def visit? (c : Crowd κ σ α) (who : κ) : Turn κ → Option (Visit σ α)
  | .goesOn other late =>
      if other = who then (c.asleep who).map fun x => x.visit late c.state else none
  | .drops _ _ => none

/-- The visits of one of a crowd in the course of a list of turns, up to the first one that cannot
be taken. -/
def visits (c : Crowd κ σ α) (who : κ) : List (Turn κ) → List (Visit σ α)
  | [] => []
  | t :: turns =>
      match c.turn? t with
      | none => []
      | some (_, c') => (c.visit? who t).toList ++ c'.visits who turns

variable {c c' : Crowd κ σ α} {t : Turn κ} {turns : List (Turn κ)} {who : κ}
variable {f : Option (Finish κ α)}

theorem visits_of_turn (h : c.turn? t = some (f, c')) :
    c.visits who (t :: turns) = (c.visit? who t).toList ++ c'.visits who turns := by
  rw [visits, h]

theorem visits_of_no_turn (h : c.turn? t = none) : c.visits who (t :: turns) = [] := by
  rw [visits, h]

theorem visit?_of_other (h : t.who ≠ who) : c.visit? who t = none := by
  cases t with
  | goesOn other late => exact if_neg h
  | drops other instant => rfl

/-- A turn is a visit of somebody who is there and goes on, or else leaves it asleep or drops it. -/
theorem visit?_cases {x : Resting σ α} (hx : c.asleep who = some x) (h : c.turn? t = some (f, c')) :
    (∃ late, c.visit? who t = some (x.visit late c.state) ∧
      c'.asleep who = (x.visit late c.state).progress.resting?) ∨
    (c.visit? who t = none ∧ (c'.asleep who = some x ∨ c'.asleep who = none)) := by
  by_cases hwho : t.who = who
  · cases t with
    | goesOn other late =>
      obtain rfl : other = who := hwho
      obtain ⟨y, hy, -, hinstant, -, hasleep, -⟩ := turn?_goesOn h
      obtain rfl := Option.some.inj (hx.symm.trans hy)
      refine .inl ⟨late, ?_, ?_⟩
      · rw [visit?, if_pos rfl, hx]
        rfl
      · rw [hasleep, Function.update_self, hinstant]
        rfl
    | drops other instant =>
      obtain rfl : other = who := hwho
      obtain ⟨-, -, -, -, hasleep, -⟩ := turn?_drops h
      refine .inr ⟨rfl, .inr ?_⟩
      rw [hasleep, Function.update_self]
  · refine .inr ⟨visit?_of_other hwho, .inl ?_⟩
    rw [turn?_asleep h fun heq => hwho heq.symm]
    exact hx

theorem visits_of_gone (hgone : c.asleep who = none) (turns : List (Turn κ)) :
    c.visits who turns = [] := by
  induction turns generalizing c with
  | nil => rfl
  | cons t turns ih =>
    cases hturn : c.turn? t with
    | none => exact visits_of_no_turn hturn
    | some next =>
      obtain ⟨f, c'⟩ := next
      have hother : t.who ≠ who := by
        rintro rfl
        cases t with
        | goesOn who late =>
          obtain ⟨x, hx, -⟩ := turn?_goesOn hturn
          cases hgone.symm.trans hx
        | drops who instant =>
          have hthere := (turn?_drops hturn).2.2.1
          rw [show c.asleep who = none from hgone] at hthere
          cases hthere
      rw [visits_of_turn hturn, visit?_of_other hother]
      exact ih ((turn?_asleep hturn hother.symm).trans hgone)

end Crowd

end ChainAudit.Schedule
