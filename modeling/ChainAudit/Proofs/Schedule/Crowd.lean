import ChainAudit.Proofs.Clock
import ChainAudit.Schedule.Activity
import Mathlib.Algebra.Order.BigOperators.Group.Finset
import Mathlib.Data.Finset.Max
import Mathlib.Data.Fintype.Basic
import Mathlib.Logic.Function.Basic

/-!
# Crowds

Activities that act on one state and take turns in any order. Somebody who sleeps goes on when its
sleep is over, or at any time after its timer has gone off, or is dropped; who is next is left open.
A list of turns decides the rest: who finishes when and with what result.
-/

namespace ChainAudit.Schedule

open ChainAudit.Clock

namespace Activity

/-- What is left of an activity after one of its turns. -/
def Progress.bind (f : α → Activity σ β) (now : Instant) : Progress σ α × σ → Progress σ β × σ
  | (.finished r, s) => (f r).advance now s
  | (.asleep wake rest, s) => (.asleep wake (rest >>= f), s)

theorem advance_bind (a : Activity σ α) (f : α → Activity σ β) (now : Instant) (s : σ) :
    (a >>= f).advance now s = Progress.bind f now (a.advance now s) := by
  change (a.bind f).advance now s = _
  induction a generalizing s with
  | done r => rfl
  | act change next ih => exact ih now s (change now s)
  | sleep wake next ih =>
    simp only [Activity.bind, advance]
    split
    · exact ih s
    · rfl

theorem advance_access (g : Instant → σ → α × σ) (now : Instant) (s : σ) :
    (access g).advance now s = (.finished (g now s).1, (g now s).2) := rfl

theorem advance_clock (now : Instant) (s : σ) :
    (clock : Activity σ Instant).advance now s = (.finished now, s) := rfl

theorem advance_sleep {wake now : Instant} (h : now < wake) (next : Activity σ α) (s : σ) :
    (sleep wake next).advance now s = (.asleep wake next, s) := by
  simp only [advance, if_neg (Nat.not_le_of_lt h)]

end Activity

/-- What one of a crowd does when it has slept. Its sleep is over at `wake` if the clock keeps its
place within a millisecond; on another clock it may be over as soon as the timer has gone off. -/
structure Resting (σ α : Type) where
  timer : Instant
  wake : Instant
  rest : Activity σ α
  timer_le : timer ≤ wake

def Resting.since (start : Instant) (a : Activity σ α) : Resting σ α :=
  ⟨start, start, a, Nat.le_refl start⟩

def Resting.upTo (wake : Instant) (rest : Activity σ α) : Resting σ α :=
  ⟨lastTick wake, wake, rest, lastTick_le wake⟩

/-- The instant at which somebody goes on: when its sleep is over, or so long after its timer has
gone off. -/
def Resting.goesOnAt (x : Resting σ α) : (late : Option Span) → Instant
  | none => x.wake
  | some late => x.timer + late.nanos

theorem Resting.timer_le_goesOnAt (x : Resting σ α) (late : Option Span) :
    x.timer ≤ x.goesOnAt late := by
  cases late with
  | none => exact x.timer_le
  | some late => exact Nat.le_add_right x.timer late.nanos

/-- Activities under way on one state, by name. -/
structure Crowd (κ σ α : Type) where
  now : Instant
  asleep : κ → Option (Resting σ α)
  state : σ

/-- A turn: somebody goes on, as soon as its sleep is over or so long after its timer has gone off,
or is dropped. -/
inductive Turn (κ : Type) where
  | goesOn (who : κ) (late : Option Span)
  | drops (who : κ) (instant : Instant)

def Turn.who : Turn κ → κ
  | .goesOn who _ => who
  | .drops who _ => who

structure Finish (κ α : Type) where
  who : κ
  instant : Instant
  result : α
  deriving DecidableEq

/-- The end of an activity that is finished. -/
def Activity.Progress.finish? (who : κ) (instant : Instant) :
    Progress σ α → Option (Finish κ α)
  | .finished r => some ⟨who, instant, r⟩
  | .asleep _ _ => none

theorem Activity.Progress.finish?_eq_some {who : κ} {instant : Instant} {p : Progress σ α}
    {g : Finish κ α} (h : p.finish? who instant = some g) :
    g.who = who ∧ g.instant = instant := by
  cases p with
  | finished r =>
    obtain rfl := Option.some.inj h
    exact ⟨rfl, rfl⟩
  | asleep wake rest => cases h

/-- The rest of an activity that has to sleep. -/
def Activity.Progress.resting? : Progress σ α → Option (Resting σ α)
  | .finished _ => none
  | .asleep wake rest => some (.upTo wake rest)

namespace Crowd

variable [DecidableEq κ]

/-- The crowd after one of it has acted at an instant. -/
def become (c : Crowd κ σ α) (who : κ) (instant : Instant) (next : Option (Resting σ α)) (s : σ) :
    Crowd κ σ α :=
  ⟨instant, Function.update c.asleep who next, s⟩

/-- The outcome of a turn. It cannot be the turn of somebody who is not there, nor can a turn lie
before the present instant. -/
def turn? (c : Crowd κ σ α) : Turn κ → Option (Option (Finish κ α) × Crowd κ σ α)
  | .goesOn who late =>
      match c.asleep who with
      | none => none
      | some x =>
          let now := x.goesOnAt late
          let (p, s) := x.rest.advance now c.state
          if c.now ≤ now then some (p.finish? who now, c.become who now p.resting? s) else none
  | .drops who instant =>
      if c.now ≤ instant ∧ (c.asleep who).isSome then
        some (none, c.become who instant none c.state)
      else none

/-- Who finishes in the course of a list of turns, in that order, and the crowd after them. -/
def replay? (c : Crowd κ σ α) : List (Turn κ) → Option (List (Finish κ α) × Crowd κ σ α)
  | [] => some ([], c)
  | t :: turns =>
      match c.turn? t with
      | none => none
      | some (f, c') => (c'.replay? turns).map fun (log, e) => (f.toList ++ log, e)

def IsOver (c : Crowd κ σ α) : Prop := ∀ who, c.asleep who = none

def without (gone : κ → Prop) [DecidablePred gone] (c : Crowd κ σ α) : Crowd κ σ α :=
  { c with asleep := fun who => if gone who then none else c.asleep who }

end Crowd

/-- In these turns nobody is dropped and everybody goes on as soon as its sleep is over. -/
def Punctual (turns : List (Turn κ)) : Prop := ∀ t ∈ turns, ∃ who, t = .goesOn who none

theorem punctual_nil : Punctual ([] : List (Turn κ)) := by
  intro t ht
  cases ht

theorem punctual_cons {t : Turn κ} {turns : List (Turn κ)} :
    Punctual (t :: turns) ↔ (∃ who, t = .goesOn who none) ∧ Punctual turns :=
  List.forall_mem_cons

namespace Crowd

section Left

variable [Fintype κ] {c : Crowd κ σ α}

def left (c : Crowd κ σ α) : Finset κ := Finset.univ.filter fun who => (c.asleep who).isSome

def size (c : Crowd κ σ α) : Nat := c.left.card

theorem mem_left {who : κ} : who ∈ c.left ↔ (c.asleep who).isSome := by
  simp [left]

theorem size_of_isOver (h : c.IsOver) : c.size = 0 := by
  refine Finset.card_eq_zero.mpr (Finset.eq_empty_of_forall_notMem ?_)
  intro who hwho
  rw [mem_left, h who] at hwho
  cases hwho

theorem exists_first (h : ¬ c.IsOver) :
    ∃ who x, c.asleep who = some x ∧ ∀ other y, c.asleep other = some y → x.wake ≤ y.wake := by
  have hleft : c.left.Nonempty := by
    obtain ⟨who, hwho⟩ := not_forall.mp h
    exact ⟨who, mem_left.mpr (Option.isSome_iff_ne_none.mpr hwho)⟩
  obtain ⟨who, hwho, hleast⟩ := Finset.exists_min_image c.left
    (fun who => ((c.asleep who).map Resting.wake).getD 0) hleft
  obtain ⟨x, hx⟩ := Option.isSome_iff_exists.mp (mem_left.mp hwho)
  refine ⟨who, x, hx, ?_⟩
  intro other y hy
  have hle := hleast other (mem_left.mpr (Option.isSome_of_eq_some hy))
  simpa [hx, hy] using hle

end Left

variable [DecidableEq κ] {c c' e : Crowd κ σ α} {t : Turn κ} {turns : List (Turn κ)}
variable {f : Option (Finish κ α)} {log : List (Finish κ α)}

theorem become_asleep (c : Crowd κ σ α) (who other : κ) (instant : Instant)
    (next : Option (Resting σ α)) (s : σ) :
    (c.become who instant next s).asleep other = if other = who then next else c.asleep other :=
  Function.update_apply c.asleep who next other

theorem turn?_of_goesOn {who : κ} {late : Option Span} {x : Resting σ α}
    (hwho : c.asleep who = some x) (hnow : c.now ≤ x.goesOnAt late) :
    c.turn? (.goesOn who late) =
      some ((x.rest.advance (x.goesOnAt late) c.state).1.finish? who (x.goesOnAt late),
        c.become who (x.goesOnAt late)
          (x.rest.advance (x.goesOnAt late) c.state).1.resting?
          (x.rest.advance (x.goesOnAt late) c.state).2) := by
  simp only [turn?, hwho, if_pos hnow]

theorem turn?_of_drops {who : κ} {instant : Instant} (hwho : (c.asleep who).isSome)
    (hnow : c.now ≤ instant) :
    c.turn? (.drops who instant) = some (none, c.become who instant none c.state) :=
  if_pos ⟨hnow, hwho⟩

theorem turn?_goesOn {who : κ} {late : Option Span} (h : c.turn? (.goesOn who late) = some (f, c')) :
    ∃ x, c.asleep who = some x ∧ c.now ≤ c'.now ∧ c'.now = x.goesOnAt late ∧
      f = (x.rest.advance c'.now c.state).1.finish? who c'.now ∧
      c'.asleep =
        Function.update c.asleep who (x.rest.advance c'.now c.state).1.resting? ∧
      c'.state = (x.rest.advance c'.now c.state).2 := by
  cases hwho : c.asleep who with
  | none => simp [turn?, hwho] at h
  | some x =>
    by_cases hnow : c.now ≤ x.goesOnAt late
    · rw [turn?_of_goesOn hwho hnow] at h
      obtain ⟨rfl, rfl⟩ := Prod.mk.inj (Option.some.inj h)
      exact ⟨x, rfl, hnow, rfl, rfl, rfl, rfl⟩
    · simp [turn?, hwho, hnow] at h

theorem turn?_drops {who : κ} {instant : Instant}
    (h : c.turn? (.drops who instant) = some (f, c')) :
    c.now ≤ c'.now ∧ c'.now = instant ∧ (c.asleep who).isSome ∧ f = none ∧
      c'.asleep = Function.update c.asleep who none ∧ c'.state = c.state := by
  simp only [turn?] at h
  split at h
  · rename_i hdue
    obtain ⟨rfl, rfl⟩ := Prod.mk.inj (Option.some.inj h)
    exact ⟨hdue.1, rfl, hdue.2, rfl, rfl, rfl⟩
  · cases h

theorem turn?_asleep {other : κ} (h : c.turn? t = some (f, c')) (hother : other ≠ t.who) :
    c'.asleep other = c.asleep other := by
  cases t with
  | goesOn who late =>
    obtain ⟨x, -, -, -, -, hasleep, -⟩ := turn?_goesOn h
    rw [hasleep]
    exact Function.update_of_ne hother _ _
  | drops who instant =>
    obtain ⟨-, -, -, -, hasleep, -⟩ := turn?_drops h
    rw [hasleep]
    exact Function.update_of_ne hother _ _

theorem replay?_nil (h : c.replay? [] = some (log, e)) : log = [] ∧ e = c := by
  obtain ⟨rfl, rfl⟩ := Prod.mk.inj (Option.some.inj h)
  exact ⟨rfl, rfl⟩

theorem replay?_cons (h : c.replay? (t :: turns) = some (log, e)) :
    ∃ f c' rest, c.turn? t = some (f, c') ∧ c'.replay? turns = some (rest, e) ∧
      log = f.toList ++ rest := by
  simp only [replay?] at h
  split at h
  · cases h
  · rename_i f c' hturn
    obtain ⟨⟨rest, last⟩, hrest, heq⟩ := Option.map_eq_some_iff.mp h
    obtain ⟨rfl, rfl⟩ := Prod.mk.inj heq
    exact ⟨f, c', rest, hturn, hrest, rfl⟩

theorem replay?_cons_of (hturn : c.turn? t = some (f, c'))
    (hrest : c'.replay? turns = some (log, e)) :
    c.replay? (t :: turns) = some (f.toList ++ log, e) := by
  simp only [replay?, hturn, hrest, Option.map_some]

theorem replay?_keeps (inv : Crowd κ σ α → Prop)
    (hstep : ∀ c t f c', inv c → c.turn? t = some (f, c') → inv c') (hc : inv c)
    (h : c.replay? turns = some (log, e)) : inv e := by
  induction turns generalizing c log with
  | nil =>
    obtain ⟨-, rfl⟩ := replay?_nil h
    exact hc
  | cons t turns ih =>
    obtain ⟨f, c', rest, hturn, hrest, -⟩ := replay?_cons h
    exact ih (hstep c t f c' hc hturn) hrest

theorem turn?_now (h : c.turn? t = some (f, c')) :
    c.now ≤ c'.now ∧ ∀ g, f = some g → g.who = t.who ∧ g.instant = c'.now := by
  cases t with
  | goesOn who late =>
    obtain ⟨x, -, hnow, -, hf, -⟩ := turn?_goesOn h
    exact ⟨hnow, fun g hg => Activity.Progress.finish?_eq_some (hf.symm.trans hg)⟩
  | drops who instant =>
    obtain ⟨hnow, -, -, rfl, -⟩ := turn?_drops h
    exact ⟨hnow, fun g hg => by cases hg⟩

theorem replay?_now (h : c.replay? turns = some (log, e)) :
    c.now ≤ e.now ∧ ∀ g ∈ log, c.now ≤ g.instant := by
  induction turns generalizing c log with
  | nil =>
    obtain ⟨rfl, rfl⟩ := replay?_nil h
    exact ⟨Nat.le_refl _, by simp⟩
  | cons t turns ih =>
    obtain ⟨f, c', rest, hturn, hrest, rfl⟩ := replay?_cons h
    obtain ⟨hnow, hfinish⟩ := turn?_now hturn
    obtain ⟨hlater, hafter⟩ := ih hrest
    refine ⟨Nat.le_trans hnow hlater, ?_⟩
    intro g hg
    rcases List.mem_append.mp hg with hg | hg
    · rw [(hfinish g (Option.mem_toList.mp hg)).2]
      exact hnow
    · exact Nat.le_trans hnow (hafter g hg)

theorem replay?_overslept {who : κ} {x : Resting σ α} (hpunctual : Punctual turns)
    (hx : c.asleep who = some x) (hover : x.wake < c.now) (h : c.replay? turns = some (log, e)) :
    e.asleep who = some x := by
  induction turns generalizing c log with
  | nil =>
    obtain ⟨-, rfl⟩ := replay?_nil h
    exact hx
  | cons t turns ih =>
    obtain ⟨f, c', rest, hturn, hrest, -⟩ := replay?_cons h
    obtain ⟨⟨other, rfl⟩, hturns⟩ := punctual_cons.mp hpunctual
    have hnow := (turn?_now hturn).1
    have hother : who ≠ other := by
      rintro rfl
      obtain ⟨y, hy, -, hinstant, -⟩ := turn?_goesOn hturn
      obtain rfl := Option.some.inj (hx.symm.trans hy)
      exact Nat.not_le_of_lt hover (hnow.trans_eq hinstant)
    exact ih hturns ((turn?_asleep hturn hother).trans hx) (hover.trans_le hnow) hrest

theorem turn?_leaves {g : Finish κ α} (h : c.turn? t = some (f, c')) (hg : f = some g) :
    (c.asleep g.who).isSome ∧ c'.asleep g.who = none := by
  cases t with
  | goesOn who late =>
    obtain ⟨x, hx, -, -, hf, hasleep, -⟩ := turn?_goesOn h
    cases hp : (x.rest.advance c'.now c.state).1 with
    | finished r =>
      rw [hp] at hf hasleep
      obtain rfl := Option.some.inj (hf.symm.trans hg)
      refine ⟨Option.isSome_of_eq_some hx, ?_⟩
      rw [hasleep]
      exact Function.update_self _ _ _
    | asleep wake rest =>
      rw [hp] at hf
      cases hf.symm.trans hg
  | drops who instant =>
    obtain ⟨-, -, -, hf, -⟩ := turn?_drops h
    cases hf.symm.trans hg

theorem turn?_stays {who : κ} (h : c.turn? t = some (f, c')) (hwho : (c'.asleep who).isSome) :
    (c.asleep who).isSome := by
  by_cases hturn : who = t.who
  · subst hturn
    cases t with
    | goesOn who late =>
      obtain ⟨x, hx, -⟩ := turn?_goesOn h
      exact Option.isSome_of_eq_some hx
    | drops who instant => exact (turn?_drops h).2.2.1
  · rw [← turn?_asleep h hturn]
    exact hwho

theorem replay?_once (h : c.replay? turns = some (log, e)) :
    (log.map Finish.who).Nodup ∧ ∀ g ∈ log, (c.asleep g.who).isSome := by
  induction turns generalizing c log with
  | nil =>
    obtain ⟨rfl, -⟩ := replay?_nil h
    simp
  | cons t turns ih =>
    obtain ⟨f, c', rest, hturn, hrest, rfl⟩ := replay?_cons h
    obtain ⟨honce, hthere⟩ := ih hrest
    have hbefore : ∀ g ∈ rest, (c.asleep g.who).isSome :=
      fun g hg => turn?_stays hturn (hthere g hg)
    cases f with
    | none => exact ⟨honce, hbefore⟩
    | some g =>
      obtain ⟨hwas, hgone⟩ := turn?_leaves hturn rfl
      have hnew : g.who ∉ rest.map Finish.who := by
        intro hmem
        obtain ⟨g', hg', hsame⟩ := List.mem_map.mp hmem
        have hsome := hthere g' hg'
        rw [hsame, hgone] at hsome
        cases hsome
      refine ⟨List.nodup_cons.mpr ⟨hnew, honce⟩, ?_⟩
      intro g' hg'
      rcases List.mem_cons.mp hg' with rfl | hg'
      · exact hwas
      · exact hbefore g' hg'

section Sizes

variable [Fintype κ]

theorem size_of_leaves {who : κ} {x : Resting σ α} (hx : c.asleep who = some x)
    (h : c'.asleep = Function.update c.asleep who none) : c.size = c'.size + 1 := by
  have hmem : who ∈ c.left := mem_left.mpr (Option.isSome_of_eq_some hx)
  have hleft : c'.left = c.left.erase who := by
    ext other
    rw [Finset.mem_erase, mem_left, mem_left, h, Function.update_apply]
    by_cases hother : other = who
    · simp [hother]
    · simp [hother]
  rw [size, size, hleft]
  exact (Finset.card_erase_add_one hmem).symm

theorem size_of_stays {who : κ} {x y : Resting σ α} (hx : c.asleep who = some x)
    (h : c'.asleep = Function.update c.asleep who (some y)) : c.size = c'.size := by
  have hleft : c'.left = c.left := by
    ext other
    rw [mem_left, mem_left, h, Function.update_apply]
    by_cases hother : other = who
    · simp [hother, hx]
    · simp [hother]
  rw [size, size, hleft]

/-- A sum over all goes down with the turn of one of them. -/
theorem sum_update_lt {who : κ} {x : Resting σ α} {next : Option (Resting σ α)}
    (measure : κ → Option (Resting σ α) → Nat) (hx : c.asleep who = some x)
    (h : c'.asleep = Function.update c.asleep who next)
    (hless : measure who next < measure who (some x)) :
    ∑ other, measure other (c'.asleep other) < ∑ other, measure other (c.asleep other) := by
  refine Finset.sum_lt_sum ?_ ⟨who, Finset.mem_univ who, ?_⟩
  · intro other _
    rw [h, Function.update_apply]
    split
    · rename_i hother
      rw [hother, hx]
      exact hless.le
    · exact Nat.le_refl _
  · rw [h, Function.update_self, hx]
    exact hless

end Sizes

end Crowd

end ChainAudit.Schedule
