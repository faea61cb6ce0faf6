import ChainAudit.Proofs.Monitor.Pass
import ChainAudit.Proofs.Store.Memory
import Mathlib.Data.List.Chain
import Mathlib.Logic.Relation

/-!
# The course of a monitor

A monitor goes through stages: it waits for a tick, runs a pass, counts it, shows its outcome, and
waits again, until it is stopped. After a pass that breaks down it only waits to be stopped. Nothing
is assumed of the ticks but that each is due later than the one before it. What others see of a
monitor is a board, on which the number of passes and the outcome of the last one change one after
the other.
-/

namespace ChainAudit

open ChainAudit.Clock ChainAudit.Limiter ChainAudit.Notice ChainAudit.Schedule ChainAudit.Store

/-- What a monitor shows: how many passes are over, and what came of the last one. -/
structure Board where
  passes : Nat
  lastPass : Option PassResult

/-- A pass that is over or broke down, with what it started from and what it left. -/
structure Round (α ω ν : Type) where
  before : MonitorState α ω ν
  entry : PassEntry
  after : MonitorState α ω ν

/-- What a monitor is about. The instant is the one at which the next tick is due. -/
inductive Phase where
  | waiting (due : Instant)
  | passing (due : Instant)
  /-- The pass is counted, and its outcome is not shown yet. -/
  | counted (due : Instant) (outcome : PassResult)
  | broken
  | stopped

/-- A stage of a monitor, with the passes so far. -/
structure Stage (α ω ν : Type) where
  now : Instant
  phase : Phase
  state : MonitorState α ω ν
  board : Board
  rounds : List (Round α ω ν)

/-- The stage at which a monitor starts. The first tick is due at once. -/
def Stage.initial (start : Instant) (s : MonitorState α ω ν) : Stage α ω ν :=
  ⟨start, .waiting start, s, ⟨0, none⟩, []⟩

/-- What came of the passes that did not break down. -/
def outcomes (rounds : List (Round α ω ν)) : List PassResult :=
  rounds.filterMap (·.entry.outcome)

/-- The board when the outcomes of the given passes are shown. -/
def Board.showing (rounds : List (Round α ω ν)) : Board :=
  ⟨(outcomes rounds).length, (outcomes rounds).getLast?⟩

namespace Monitor

variable [Quantity α]

/-- From one stage of a monitor to the next, if it is stopped at the instant `stop`. -/
inductive Step (m : Monitor ω ν) (stop : Instant) (wall : Instant → Moment) :
    Stage α ω ν → Stage α ω ν → Prop
  | stops {now due state board rounds} (hcame : stop ≤ timerFrom now due) :
      Step m stop wall ⟨now, .waiting due, state, board, rounds⟩
        ⟨max now stop, .stopped, state, board, rounds⟩
  | ticks {now due next state board rounds} (hcame : timerFrom now due < stop)
      (hnext : due < next) :
      Step m stop wall ⟨now, .waiting due, state, board, rounds⟩
        ⟨timerFrom now due, .passing next, state, board, rounds⟩
  | passes {now due state entry after board rounds outcome}
      (hpass : m.pass (stoppedAt stop) (wall now) now state = (entry, after))
      (houtcome : entry.outcome = some outcome) :
      Step m stop wall ⟨now, .passing due, state, board, rounds⟩
        ⟨entry.endedAt, .counted due outcome, after,
          { board with passes := board.passes + 1 }, rounds ++ [⟨state, entry, after⟩]⟩
  | breaks {now due state entry after board rounds}
      (hpass : m.pass (stoppedAt stop) (wall now) now state = (entry, after))
      (houtcome : entry.outcome = none) :
      Step m stop wall ⟨now, .passing due, state, board, rounds⟩
        ⟨entry.endedAt, .broken, after, board, rounds ++ [⟨state, entry, after⟩]⟩
  | shows {now due outcome state board rounds} :
      Step m stop wall ⟨now, .counted due outcome, state, board, rounds⟩
        ⟨now, .waiting due, state, { board with lastPass := some outcome }, rounds⟩
  | ends {now state board rounds} :
      Step m stop wall ⟨now, .broken, state, board, rounds⟩
        ⟨max now stop, .stopped, state, board, rounds⟩

/-- The stages that a monitor comes to when it starts at the instant `start`. -/
def Reaches (m : Monitor ω ν) (stop : Instant) (wall : Instant → Moment) (start : Instant)
    (s : MonitorState α ω ν) : Stage α ω ν → Prop :=
  Relation.ReflTransGen (m.Step stop wall) (.initial start s)

/-- One pass after the other: a pass starts when the one before it is over, from what that left. -/
def InTurn (r r' : Round α ω ν) : Prop :=
  r.entry.endedAt ≤ r'.entry.startedAt ∧ r'.before = r.after

/-- What the last of some passes left, or what there was before the first. -/
def leftBy (s : MonitorState α ω ν) (rounds : List (Round α ω ν)) : MonitorState α ω ν :=
  (rounds.getLast?.map (·.after)).getD s

/-- The board at a stage: it shows the passes that are over, but after the count of a pass it does
not show its outcome yet. -/
def Shows (rounds : List (Round α ω ν)) (board : Board) : Phase → Prop
  | .counted _ outcome => board.passes = (outcomes rounds).length ∧
      (outcomes rounds).getLast? = some outcome
  | .waiting _ | .passing _ | .broken | .stopped => board = .showing rounds

/-- What holds at each stage of a monitor that starts at the instant `start` and is stopped at the
instant `stop`. -/
structure Orderly (m : Monitor ω ν) (stop : Instant) (wall : Instant → Moment) (start : Instant)
    (s : MonitorState α ω ν) (g : Stage α ω ν) : Prop where
  now : start ≤ g.now ∧ g.now ≤ max start stop
  passed : ∀ r ∈ g.rounds, r.entry.startedAt < stop ∧
    m.Passed stop (wall r.entry.startedAt) r.entry.startedAt r.before r.entry r.after
  inTurn : g.rounds.IsChain InTurn
  ended : ∀ r ∈ g.rounds, r.entry.endedAt ≤ g.now
  first : ∀ r ∈ g.rounds.head?, r.before = s
  state : g.state = leftBy s g.rounds
  unbroken : ∀ r ∈ g.rounds, r.entry.outcome = none →
    (g.phase = .broken ∨ g.phase = .stopped) ∧ g.rounds.getLast? = some r
  board : Shows g.rounds g.board g.phase
  passing : ∀ due, g.phase = .passing due → g.now < stop
  stopped : g.phase = .stopped → g.now = max start stop

variable {m : Monitor ω ν} {stop : Instant} {wall : Instant → Moment} {start : Instant}
variable {s : MonitorState α ω ν} {g g' : Stage α ω ν}

theorem orderly_initial (m : Monitor ω ν) (stop : Instant) (wall : Instant → Moment)
    (start : Instant) (s : MonitorState α ω ν) :
    m.Orderly stop wall start s (.initial start s) where
  now := ⟨Nat.le_refl start, Nat.le_max_left start stop⟩
  passed := fun _ h => absurd h List.not_mem_nil
  inTurn := .nil
  ended := fun _ h => absurd h List.not_mem_nil
  first := fun _ h => nomatch h
  state := rfl
  unbroken := fun _ h => absurd h List.not_mem_nil
  board := rfl
  passing := fun _ h => nomatch h
  stopped := fun h => nomatch h

section Steps

variable {now due next : Instant} {state after : MonitorState α ω ν} {board : Board}
variable {rounds : List (Round α ω ν)} {entry : PassEntry} {outcome : PassResult}

/-- Nothing but the instant and the phase changes in a step that finishes no pass. -/
private theorem orderly_later {phase phase' : Phase} {later : Instant}
    (h : m.Orderly stop wall start s ⟨now, phase, state, board, rounds⟩) (hlater : now ≤ later)
    (hbound : later ≤ max start stop)
    (hbroken : phase = .broken ∨ phase = .stopped → phase' = .broken ∨ phase' = .stopped)
    (hboard : Shows rounds board phase')
    (hpassing : ∀ due, phase' = .passing due → later < stop)
    (hstopped : phase' = .stopped → later = max start stop) :
    m.Orderly stop wall start s ⟨later, phase', state, board, rounds⟩ where
  now := ⟨Nat.le_trans h.now.1 hlater, hbound⟩
  passed := h.passed
  inTurn := h.inTurn
  ended := fun r hr => Nat.le_trans (h.ended r hr) hlater
  first := h.first
  state := h.state
  unbroken := fun r hr hnone => (h.unbroken r hr hnone).imp_left hbroken
  board := hboard
  passing := hpassing
  stopped := hstopped

/-- The stop ends a wait for a tick, and the stage that follows a pass that broke down. -/
private theorem orderly_stopped {phase : Phase} (hboard : board = .showing rounds)
    (h : m.Orderly stop wall start s ⟨now, phase, state, board, rounds⟩) :
    m.Orderly stop wall start s ⟨max now stop, .stopped, state, board, rounds⟩ := by
  obtain ⟨hstart, hbound⟩ := h.now
  have hlast : max now stop ≤ max start stop := Nat.max_le.mpr ⟨hbound, Nat.le_max_right _ _⟩
  have hleast : max start stop ≤ max now stop :=
    Nat.max_le.mpr ⟨Nat.le_trans hstart (Nat.le_max_left _ _), Nat.le_max_right _ _⟩
  exact orderly_later h (Nat.le_max_left _ _) hlast (fun _ => .inr rfl) hboard
    (fun _ h => nomatch h) fun _ => Nat.le_antisymm hlast hleast

theorem orderly_ticks (hcame : timerFrom now due < stop)
    (h : m.Orderly stop wall start s ⟨now, .waiting due, state, board, rounds⟩) :
    m.Orderly stop wall start s ⟨timerFrom now due, .passing next, state, board, rounds⟩ :=
  orderly_later h (le_timerFrom now due)
    (Nat.le_trans (Nat.le_of_lt hcame) (Nat.le_max_right start stop)) (by simp) h.board
    (fun _ _ => hcame) fun h => nomatch h

theorem whole_of_passing
    (h : m.Orderly stop wall start s ⟨now, .passing due, state, board, rounds⟩) {r : Round α ω ν}
    (hr : r ∈ rounds) : r.entry.outcome ≠ none := by
  intro hnone
  obtain ⟨hphase | hphase, -⟩ := h.unbroken r hr hnone
  · cases hphase
  · cases hphase

/-- What a pass adds, whether it breaks down or not. -/
private theorem orderly_passed {phase : Phase} {board' : Board}
    (hpass : m.pass (stoppedAt stop) (wall now) now state = (entry, after))
    (h : m.Orderly stop wall start s ⟨now, .passing due, state, board, rounds⟩)
    (hbroken : entry.outcome = none → phase = .broken)
    (hboard : Shows (rounds ++ [⟨state, entry, after⟩]) board' phase)
    (hpassing : ∀ due, phase ≠ .passing due) (hstopped : phase ≠ .stopped) :
    m.Orderly stop wall start s
      ⟨entry.endedAt, phase, after, board', rounds ++ [⟨state, entry, after⟩]⟩ := by
  have hspec := m.pass_passed stop (wall now) now state
  rw [hpass] at hspec
  have hnow : now < stop := h.passing due rfl
  have hstarted : entry.startedAt = now := hspec.startedAt
  obtain ⟨hlater, hbound⟩ := hspec.bounds
  rw [Nat.max_eq_right (Nat.le_of_lt hnow)] at hbound
  have hstate : state = leftBy s rounds := h.state
  constructor
  case now =>
    exact ⟨Nat.le_trans h.now.1 hlater, Nat.le_trans hbound (Nat.le_max_right start stop)⟩
  case passed =>
    intro r hr
    rcases List.mem_append.mp hr with hr | hr
    · exact h.passed r hr
    · obtain rfl := List.mem_singleton.mp hr
      dsimp only
      rw [hstarted]
      exact ⟨hnow, hspec⟩
  case inTurn =>
    refine List.isChain_append.mpr ⟨h.inTurn, .singleton _, ?_⟩
    intro r hr r' hr'
    obtain rfl := Option.some.inj hr'
    refine ⟨?_, ?_⟩
    · rw [hstarted]
      exact h.ended r (List.mem_of_getLast? hr)
    · rw [hstate, leftBy, show rounds.getLast? = some r from hr]
      rfl
  case ended =>
    intro r hr
    rcases List.mem_append.mp hr with hr | hr
    · exact Nat.le_trans (h.ended r hr) hlater
    · obtain rfl := List.mem_singleton.mp hr
      exact Nat.le_refl _
  case first =>
    intro r hr
    cases rounds with
    | nil =>
      obtain rfl := Option.some.inj hr
      exact hstate
    | cons r' rest => exact h.first r hr
  case state => simp [leftBy]
  case unbroken =>
    intro r hr hnone
    rcases List.mem_append.mp hr with hr | hr
    · exact absurd hnone (whole_of_passing h hr)
    · obtain rfl := List.mem_singleton.mp hr
      exact ⟨.inl (hbroken hnone), List.getLast?_concat⟩
  case board => exact hboard
  case passing => exact fun due hphase => absurd hphase (hpassing due)
  case stopped => exact fun hphase => absurd hphase hstopped

theorem orderly_passes (hpass : m.pass (stoppedAt stop) (wall now) now state = (entry, after))
    (houtcome : entry.outcome = some outcome)
    (h : m.Orderly stop wall start s ⟨now, .passing due, state, board, rounds⟩) :
    m.Orderly stop wall start s ⟨entry.endedAt, .counted due outcome, after,
      { board with passes := board.passes + 1 }, rounds ++ [⟨state, entry, after⟩]⟩ := by
  have hboard : board = .showing rounds := h.board
  have houtcomes : outcomes (rounds ++ [⟨state, entry, after⟩]) = outcomes rounds ++ [outcome] := by
    simp [outcomes, houtcome]
  refine orderly_passed hpass h (fun hnone => ?_) ?_ nofun nofun
  · rw [houtcome] at hnone
    cases hnone
  · rw [Shows, houtcomes, hboard, List.length_append]
    exact ⟨rfl, List.getLast?_concat⟩

theorem orderly_breaks (hpass : m.pass (stoppedAt stop) (wall now) now state = (entry, after))
    (houtcome : entry.outcome = none)
    (h : m.Orderly stop wall start s ⟨now, .passing due, state, board, rounds⟩) :
    m.Orderly stop wall start s
      ⟨entry.endedAt, .broken, after, board, rounds ++ [⟨state, entry, after⟩]⟩ := by
  have hboard : board = .showing rounds := h.board
  have houtcomes : outcomes (rounds ++ [⟨state, entry, after⟩]) = outcomes rounds := by
    simp [outcomes, houtcome]
  refine orderly_passed hpass h (fun _ => rfl) ?_ nofun nofun
  rw [Shows, hboard, Board.showing, Board.showing, houtcomes]

theorem orderly_shows
    (h : m.Orderly stop wall start s ⟨now, .counted due outcome, state, board, rounds⟩) :
    m.Orderly stop wall start s
      ⟨now, .waiting due, state, { board with lastPass := some outcome }, rounds⟩ := by
  obtain ⟨hpasses, hlast⟩ : board.passes = (outcomes rounds).length ∧
    (outcomes rounds).getLast? = some outcome := h.board
  exact { h with
    unbroken := fun r hr hnone => by
      obtain ⟨hphase | hphase, -⟩ := h.unbroken r hr hnone
      · cases hphase
      · cases hphase
    board := by
      change Board.mk board.passes (some outcome) = .showing rounds
      rw [Board.showing, hlast, hpasses]
    passing := fun _ h => nomatch h
    stopped := fun h => nomatch h }

end Steps

theorem orderly_step (h : m.Orderly stop wall start s g) (hstep : m.Step stop wall g g') :
    m.Orderly stop wall start s g' := by
  cases hstep with
  | stops _ => exact orderly_stopped h.board h
  | ticks hcame _ => exact orderly_ticks hcame h
  | passes hpass houtcome => exact orderly_passes hpass houtcome h
  | breaks hpass houtcome => exact orderly_breaks hpass houtcome h
  | shows => exact orderly_shows h
  | ends => exact orderly_stopped h.board h

theorem orderly_reached (h : m.Reaches stop wall start s g) : m.Orderly stop wall start s g := by
  induction h with
  | refl => exact orderly_initial m stop wall start s
  | tail _ hstep ih => exact orderly_step ih hstep

section Ending

/-- How many steps a monitor can still take: three for each instant at which a tick may be due. -/
def stepsLeft (stop : Nat) (g : Stage α ω ν) : Nat :=
  match g.phase with
  | .waiting due => 3 * (stop - due) + 1
  | .passing due => 3 * (stop - due) + 3
  | .counted due _ => 3 * (stop - due) + 2
  | .broken => 1
  | .stopped => 0

theorem stepsLeft_step (hstep : m.Step stop wall g g') : stepsLeft stop g' < stepsLeft stop g := by
  cases hstep with
  | stops _ => exact Nat.succ_pos _
  | @ticks now due next _ _ _ hcame hnext =>
    have hdue : due < stop := Nat.lt_of_le_of_lt (set_le_timerFrom now due) hcame
    have hrest : stop - next < stop - due := Nat.sub_lt_sub_left hdue hnext
    exact Nat.lt_succ_of_le (Nat.mul_le_mul_left 3 (Nat.succ_le_of_lt hrest))
  | passes _ _ => exact Nat.lt_succ_self _
  | breaks _ _ => exact Nat.succ_lt_succ (Nat.succ_pos _)
  | shows => exact Nat.lt_succ_self _
  | ends => exact Nat.succ_pos _

/-- No monitor that is stopped goes on for ever. -/
theorem step_wellFounded (m : Monitor ω ν) (stop : Instant) (wall : Instant → Moment) :
    WellFounded fun g' g : Stage α ω ν => m.Step stop wall g g' :=
  Subrelation.wf stepsLeft_step (measure (stepsLeft stop)).wf

theorem exists_step (m : Monitor ω ν) (stop : Instant) (wall : Instant → Moment)
    (g : Stage α ω ν) : g.phase = .stopped ∨ ∃ g', m.Step stop wall g g' := by
  obtain ⟨now, phase, state, board, rounds⟩ := g
  cases phase with
  | waiting due =>
    rcases Nat.lt_or_ge (timerFrom now due) stop with hcame | hcame
    · exact .inr ⟨_, .ticks hcame (Nat.lt_succ_self due)⟩
    · exact .inr ⟨_, .stops hcame⟩
  | passing due =>
    cases houtcome : (m.pass (stoppedAt stop) (wall now) now state).1.outcome with
    | none => exact .inr ⟨_, .breaks rfl houtcome⟩
    | some outcome => exact .inr ⟨_, .passes rfl houtcome⟩
  | counted due outcome => exact .inr ⟨_, .shows⟩
  | broken => exact .inr ⟨_, .ends⟩
  | stopped => exact .inl rfl

end Ending

section Running

theorem nextTick_later (m : Monitor ω ν) (due came : Nat) :
    due + 1000000 ≤ nextTick m.period due came := by
  have hperiod : 1000000 ≤ m.period.nanos := Nat.le_max_right _ _
  unfold nextTick
  split
  · rename_i hlate
    have hcame : due ≤ came := Nat.le_trans (Nat.le_add_right _ _) (Nat.le_of_lt hlate)
    exact Nat.add_le_add hcame hperiod
  · exact Nat.add_le_add_left hperiod due

section Ticks

variable {due now : Instant} {state after : MonitorState α ω ν} {entry : PassEntry}

theorem passesUntil_stopped (hcame : stop ≤ timerFrom now due) (ticks : Nat) :
    m.passesUntil stop wall (ticks + 1) due now state = ([], state) :=
  if_pos hcame

theorem passesUntil_broken (hcame : timerFrom now due < stop) (ticks : Nat)
    (hpass : m.pass (stoppedAt stop) (wall (timerFrom now due)) (timerFrom now due) state =
      (entry, after)) (houtcome : entry.outcome = none) :
    m.passesUntil stop wall (ticks + 1) due now state = ([entry], after) := by
  unfold stoppedAt at hpass
  have hbroken : entry.outcome.isNone = true := by simp [houtcome]
  have hgoes : m.passesUntil stop wall (ticks + 1) due now state = _ :=
    if_neg (Nat.not_le_of_lt hcame)
  rw [hgoes, hpass]
  exact if_pos hbroken

theorem passesUntil_passed (hcame : timerFrom now due < stop) (ticks : Nat)
    (hpass : m.pass (stoppedAt stop) (wall (timerFrom now due)) (timerFrom now due) state =
      (entry, after)) {outcome : PassResult} (houtcome : entry.outcome = some outcome) :
    m.passesUntil stop wall (ticks + 1) due now state =
      (entry :: (m.passesUntil stop wall ticks (nextTick m.period due (timerFrom now due))
          entry.endedAt after).1,
        (m.passesUntil stop wall ticks (nextTick m.period due (timerFrom now due))
          entry.endedAt after).2) := by
  unfold stoppedAt at hpass
  have hdone : ¬ entry.outcome.isNone = true := by simp [houtcome]
  have hgoes : m.passesUntil stop wall (ticks + 1) due now state = _ :=
    if_neg (Nat.not_le_of_lt hcame)
  rw [hgoes, hpass]
  exact if_neg hdone

end Ticks

/-- The passes of a monitor on its own ticks are those of one of its courses. -/
theorem passesUntil_course {ticks : Nat} {due now : Nat} {state : MonitorState α ω ν}
    {board : Board} {rounds : List (Round α ω ν)} (hticks : stop ≤ due + ticks * 1000000) :
    ∃ g, Relation.ReflTransGen (m.Step stop wall) ⟨now, .waiting due, state, board, rounds⟩ g ∧
      g.phase = .stopped ∧
      g.rounds.map (·.entry) =
        rounds.map (·.entry) ++ (m.passesUntil stop wall ticks due now state).1 ∧
      g.state = (m.passesUntil stop wall ticks due now state).2 := by
  induction ticks generalizing due now state board rounds with
  | zero =>
    have hcame : stop ≤ timerFrom now due := by
      rw [Nat.zero_mul, Nat.add_zero] at hticks
      exact Nat.le_trans hticks (set_le_timerFrom now due)
    exact ⟨_, .single (.stops hcame), rfl, (List.append_nil _).symm, rfl⟩
  | succ ticks ih =>
    rcases Nat.lt_or_ge (timerFrom now due) stop with hcame | hcame
    · have hlater := nextTick_later m due (timerFrom now due)
      have hticks : stop ≤ nextTick m.period due (timerFrom now due) + ticks * 1000000 := by
        refine Nat.le_trans hticks ?_
        rw [Nat.succ_mul, Nat.add_comm (ticks * 1000000), ← Nat.add_assoc]
        exact Nat.add_le_add_right hlater _
      have hdue : due < nextTick m.period due (timerFrom now due) :=
        Nat.lt_of_lt_of_le (Nat.lt_add_of_pos_right (by decide)) hlater
      rcases hpass : m.pass (stoppedAt stop) (wall (timerFrom now due)) (timerFrom now due) state
        with ⟨entry, after⟩
      cases houtcome : entry.outcome with
      | none =>
        rw [passesUntil_broken hcame ticks hpass houtcome]
        exact ⟨_, .head (.ticks hcame hdue) (.head (.breaks hpass houtcome) (.single .ends)), rfl,
          List.map_append, rfl⟩
      | some outcome =>
        obtain ⟨g, hcourse, hphase, hrounds, hstate⟩ := @ih _ entry.endedAt after
          ⟨board.passes + 1, some outcome⟩ (rounds ++ [⟨state, entry, after⟩]) hticks
        rw [passesUntil_passed hcame ticks hpass houtcome]
        refine ⟨g, .head (.ticks hcame hdue)
          (.head (.passes hpass houtcome) (.head .shows hcourse)), hphase, ?_, hstate⟩
        rw [hrounds, List.map_append, List.append_assoc]
        rfl
    · rw [passesUntil_stopped hcame ticks]
      exact ⟨_, .single (.stops hcame), rfl, (List.append_nil _).symm, rfl⟩

end Running

private theorem ticks_enough (start stop : Nat) :
    stop ≤ start + ((stop - start) / 1000000 + 1) * 1000000 := by
  omega

/-- Whatever its ticks are, a monitor goes through orderly stages only, cannot go on for ever, and
goes on until it is stopped. The course on its own ticks is one of these. -/
theorem every_course_orderly (m : Monitor ω ν) (stop : Instant) (wall : Instant → Moment)
    (start : Instant) (s : MonitorState α ω ν) :
    (∀ g, m.Reaches stop wall start s g → m.Orderly stop wall start s g) ∧
      (WellFounded fun g' g : Stage α ω ν => m.Step stop wall g g') ∧
      (∀ g : Stage α ω ν, g.phase = .stopped ∨ ∃ g', m.Step stop wall g g') ∧
      ∃ g, m.Reaches stop wall start s g ∧ g.phase = .stopped ∧
        g.rounds.map (·.entry) = (m.run start stop wall s).1 ∧
        g.state = (m.run start stop wall s).2 := by
  refine ⟨fun g => orderly_reached, step_wellFounded m stop wall, exists_step m stop wall, ?_⟩
  exact passesUntil_course (ticks_enough start stop)

/-- A monitor with a receiver that is always in trouble, stopped while it waits to try again: the
first pass is over with its third attempt, and the second one ends with the stop. -/
example :
    let m : Monitor Memory Nat :=
      { auditor := .ofMemory [("p", "b")]
        projects := ["p"]
        interval := .ofSeconds 60
        notifier := some (⟨fun _ _ n => (⟨⟨.retryLater, ""⟩, none⟩, n + 1)⟩, ⟨3, .fixed 10000⟩) }
    let s : MonitorState Rat Memory Nat :=
      ⟨[], ⟨.unlimited, .ofChain [("a", 1), ("b", 2)]⟩, 0⟩
    (m.run 0 65000000000 (fun _ => ⟨0⟩) s).1.map
        (fun e => (e.startedAt, e.endedAt, (e.outcome.bind (·.delivery)).isSome)) =
      [(0, 20000000000, true), (60000000000, 65000000000, false)] := by
  decide +kernel

end Monitor

end ChainAudit
