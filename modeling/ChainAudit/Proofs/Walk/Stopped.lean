import ChainAudit.Proofs.Signal
import ChainAudit.Proofs.Store.Memory
import ChainAudit.Proofs.Walk.Alone

/-!
# Walks that are stopped

A walk that a signal may stop is compared with the same walk that nobody stops. Fetch by fetch the
two do the same until the signal fires; then the one ends and keeps the heights that both visited.
The walk learns of a deadline from a timer, so a signal fires at the timer's tick, which may come
after the instant from which on it is due.
-/

namespace ChainAudit

open ChainAudit.Chain ChainAudit.Clock ChainAudit.Limiter ChainAudit.Schedule
open ChainAudit.Schedule.Activity ChainAudit.Store ChainAudit.Text

/-- What a walk comes to that runs alone: the walk, the instant at which it ends, and the state. -/
abbrev WalkRun (σ : Type) := Walk × Instant × σ

section Fetches

variable {depth left : Nat} {verified : Option Height} {cid : String} {visited : List Height}
variable {fires now : Instant} {s : σ}

theorem walkOn_unstopped (fetch : String → Activity σ Fetched)
    (depth left : Nat) (verified : Option Height) (cid : String) (visited : List Height)
    (now : Instant) (s : σ) :
    ((walkOn fetch none depth verified left cid visited).run now s).1.ending ≠ .cancelled := by
  induction left generalizing cid visited now s with
  | zero => simp [walkOn]
  | succ left ih =>
    have hfetch := run_breakOff_none (fetch cid) now s
    rcases run_walkOn_fetched fetch depth left verified cid visited ((fetch cid).run now s).1 with
      ⟨w, hend, _, hends⟩ | ⟨height, previous, hon⟩
    · rw [hends none now _ s _ hfetch]
      exact hend
    · rw [hon none now _ s _ hfetch]
      apply ih

theorem walkOn_same_or_cut (fetch : String → Activity σ Fetched)
    (depth left : Nat) (verified : Option Height) (cid : String) (visited : List Height)
    (fires now : Instant) (s : σ) :
    let cut := (walkOn fetch (some fires) depth verified left cid visited).run now s
    let whole := (walkOn fetch none depth verified left cid visited).run now s
    cut = whole ∨
      (cut.1.ending = .cancelled ∧ cut.1.heights <+: whole.1.heights ∧
        cut.2.1 = max now fires) := by
  intro cut whole
  -- until the signal fires, both walks are given the same answers at the same instants
  induction left generalizing cid visited now s with
  | zero => exact .inl rfl
  | succ left ih =>
    rcases Nat.lt_or_ge ((fetch cid).run now s).2.1 fires with hbefore | hafter
    · have hcut := run_breakOff_before hbefore
      have hwhole := run_breakOff_none (fetch cid) now s
      rcases run_walkOn_fetched fetch depth left verified cid visited
        ((fetch cid).run now s).1 with ⟨w, _, _, hends⟩ | ⟨height, previous, hon⟩
      · left
        simp only [cut, whole]
        rw [hends _ now _ s _ hcut, hends _ now _ s _ hwhole]
      · have hnow : now ≤ ((fetch cid).run now s).2.1 := le_run (fetch cid) now s
        have hlast : max ((fetch cid).run now s).2.1 fires = max now fires := by
          have hle := Nat.le_of_lt hbefore
          rw [Nat.max_eq_right hle, Nat.max_eq_right (Nat.le_trans hnow hle)]
        simp only [cut, whole]
        rw [hon _ now _ s _ hcut, hon _ now _ s _ hwhole, ← hlast]
        apply ih
    · obtain ⟨hnone, hends⟩ := run_breakOff_after hafter
      have hcancelled : cut = (⟨visited.reverse, .cancelled⟩, max now fires,
          (((fetch cid).breakOff (some fires)).run now s).2.2) := by
        apply run_walkOn_cancelled
        rw [← hnone, ← hends]
      right
      rw [hcancelled]
      refine ⟨rfl, ?_, rfl⟩
      exact visited_initial_walkOn fetch none depth (left + 1) verified cid visited now s

theorem walkOn_untouched (fetch : String → Activity σ Fetched)
    (depth left : Nat) (verified : Option Height) (cid : String) (visited : List Height)
    (s : σ) (h : fires ≤ now) :
    ((walkOn fetch (some fires) depth verified left cid visited).run now s).2 = (now, s) := by
  cases left with
  | zero => rfl
  | succ left => rw [run_walkOn_cancelled (run_breakOff_fired (fetch cid) h)]

end Fetches

/-- From the instant `now` and the state `s` on, a walk with a signal does no more than cut short
the whole walk. A signal that has fired by `now` leaves the state as it is (`untouched`), and so
does one that is due since a tick that has passed (`fired`). -/
structure CutsShort (signal : Signal) (now : Instant) (s : σ) (cut whole : WalkRun σ) : Prop where
  undisturbed : cut.1.ending ≠ .cancelled → cut = whole
  heights : cut.1.ending = .cancelled → cut.1.heights <+: whole.1.heights
  endsAt : cut.1.ending = .cancelled → signal.resolves? now = some cut.2.1
  untouched : ∀ fires, signal.fires? = some fires → fires ≤ now → cut.2 = (now, s)
  fired : ∀ t, signal.isFired t = true → timer t ≤ now → cut.2 = (now, s)

/-- Whatever the store and the limiter answer and when, a signal only cuts a walk short: unless the
walk is cancelled, it is the one that nobody stops; if it is, it ends as the signal fires and has
visited the first of the nodes; and where the signal fires before the walk begins, at the tick of
the timer that `fires?` tells, the limiter and the store are left as they were. -/
theorem walk_cuts_short [Quantity α] (store : BlockStore ω) (timeout : Span) (depth : Nat)
    (verified : Option Height) (head : String) (signal : Signal) (now : Instant)
    (s : Limited α ω) :
    CutsShort signal now s
      ((walk (fetch store timeout) signal.fires? depth verified head).run now s)
      ((walk (fetch store timeout) Signal.never.fires? depth verified head).run now s) := by
  have hnever : Signal.never.fires? = none := rfl
  have hwhole := walkOn_unstopped (fetch store timeout) depth depth verified head [] now s
  have huntouched : ∀ fires, signal.fires? = some fires → fires ≤ now →
      ((walk (fetch store timeout) signal.fires? depth verified head).run now s).2 = (now, s) := by
    intro fires hfires hle
    rw [hfires]
    exact walkOn_untouched _ _ _ _ _ _ s hle
  have hfired : ∀ t, signal.isFired t = true → timer t ≤ now →
      ((walk (fetch store timeout) signal.fires? depth verified head).run now s).2 = (now, s) := by
    intro t ht hnow
    obtain ⟨fires, hfires, hle⟩ := Signal.fires?_of_isFired ht
    exact huntouched fires hfires (Nat.le_trans hle hnow)
  rw [hnever]
  suffices hcut : let cut := (walk (fetch store timeout) signal.fires? depth verified head).run now s
      let whole := (walk (fetch store timeout) none depth verified head).run now s
      cut = whole ∨ (cut.1.ending = .cancelled ∧ cut.1.heights <+: whole.1.heights ∧
        signal.resolves? now = some cut.2.1) by
    rcases hcut with hsame | ⟨hend, hheights, hends⟩
    · have hkept := hwhole
      rw [← walk, ← hsame] at hkept
      exact ⟨fun _ => hsame, fun h => absurd h hkept, fun h => absurd h hkept, huntouched, hfired⟩
    · exact ⟨fun h => absurd hend h, fun _ => hheights, fun _ => hends, huntouched, hfired⟩
  cases hfires : signal.fires? with
  | none => exact .inl rfl
  | some fires =>
    rcases walkOn_same_or_cut (fetch store timeout) depth depth verified head [] fires now s with
      hsame | ⟨hend, hheights, hlast⟩
    · exact .inl hsame
    · refine .inr ⟨hend, hheights, ?_⟩
      rw [Signal.resolves?, hfires, walk, hlast]
      rfl

-- The second node would be read in the very instant of the stop.
example :
    let nodes := (Memory.ofNodes [("a", 1, ""), ("b", 3, "a")]).delay "a" (.ofMillis 20)
    let cut := (walk (fetch Memory.store (.ofSeconds 1)) (some 20000000) 9 none "b").run 0
      (⟨.unlimited, nodes⟩ : Limited Rat Memory)
    cut.1.heights = [3] ∧ cut.1.ending.label? = some "cancelled" ∧ cut.2.1 = 20000000 := by
  decide +kernel

end ChainAudit
