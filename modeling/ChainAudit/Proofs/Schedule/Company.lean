import ChainAudit.Proofs.Schedule.Notes
import ChainAudit.Proofs.Schedule.Turns
import ChainAudit.Proofs.Schedule.Yields

/-!
# One activity in the company of others

Of the others in a crowd nothing may be known but that they keep the state in order; they may come
late and be dropped. An activity that goes on as soon as its sleeps are over still does what it
ensures.
-/

namespace ChainAudit.Schedule

open ChainAudit.Clock

variable {pace : Instant → Instant → Prop} {inv : σ → Prop} {post : α → Instant → Prop}

theorem Activity.keeps_noting {a : Activity σ α} (ha : a.Keeps inv) (note : σ → σ → List κ)
    (notes : List κ) : (a.noting note notes).Keeps inv := by
  induction a generalizing notes with
  | done r => trivial
  | act change next ih =>
    intro now s hs
    obtain ⟨hkeep, hnext⟩ := ha now s hs
    exact ⟨hkeep, ih now s hnext _⟩
  | sleep wake next ih => exact ih ha notes

theorem Activity.le_of_ensures {a : Activity σ α} {s : σ} {now latest : Instant}
    (h : a.Ensures pace inv post now) (hs : inv s) (hpost : ∀ r t, post r t → t ≤ latest) :
    now ≤ latest := by
  induction a generalizing s now with
  | done r => exact hpost r now h
  | act change next ih =>
    obtain ⟨hkeep, hnext⟩ := h s hs
    exact ih now s hnext hkeep
  | sleep wake next ih => exact Nat.le_trans (Nat.le_max_left now wake) (ih h.2 hs)

namespace Crowd

variable [DecidableEq κ] {c c' e : Crowd κ σ α} {t : Turn κ} {turns : List (Turn κ)} {who : κ}
variable {f : Option (Finish κ α)} {log : List (Finish κ α)}

/-- A crowd whose state is in order. One of it is going to do what it ensures, and all others keep
the state in order. -/
structure Company (pace : Instant → Instant → Prop) (inv : σ → Prop) (post : α → Instant → Prop)
    (who : κ) (c : Crowd κ σ α) : Prop where
  state : inv c.state
  self : ∀ x, c.asleep who = some x → x.rest.Ensures pace inv post x.wake
  others : ∀ other, other ≠ who → ∀ x, c.asleep other = some x → x.rest.Keeps inv

theorem Company.ownTurn (h : c.Company pace inv post who)
    (hturn : c.turn? (.goesOn who none) = some (f, c')) :
    c'.Company pace inv post who ∧ ∀ g, f = some g → post g.result g.instant := by
  obtain ⟨x, hx, -, hinstant, rfl, hasleep, hstate⟩ := turn?_goesOn hturn
  rw [show c'.now = x.wake from hinstant] at hasleep hstate ⊢
  obtain ⟨hpost, hkeep⟩ := advance_ensures (h.self x hx) h.state
  have hothers : ∀ other, other ≠ who → ∀ y, c'.asleep other = some y → y.rest.Keeps inv := by
    intro other hother y hy
    rw [hasleep, Function.update_of_ne hother] at hy
    exact h.others other hother y hy
  cases hp : (x.rest.advance x.wake c.state).1 with
  | finished r =>
    rw [hp] at hpost hasleep
    refine ⟨⟨hstate ▸ hkeep, ?_, hothers⟩, ?_⟩
    · intro y hy
      rw [hasleep, Function.update_self] at hy
      cases hy
    · intro g hg
      obtain rfl := Option.some.inj hg
      exact hpost
  | asleep wake rest =>
    rw [hp] at hpost hasleep
    refine ⟨⟨hstate ▸ hkeep, ?_, hothers⟩, ?_⟩
    · intro y hy
      rw [hasleep, Function.update_self] at hy
      obtain rfl := Option.some.inj hy
      exact hpost.2.2
    · intro g hg
      cases hg

theorem Company.othersTurn (h : c.Company pace inv post who) (hturn : c.turn? t = some (f, c'))
    (hother : t.who ≠ who) : c'.Company pace inv post who := by
  have hself : ∀ x, c'.asleep who = some x → x.rest.Ensures pace inv post x.wake := by
    intro x hx
    rw [turn?_asleep hturn hother.symm] at hx
    exact h.self x hx
  have hrest : ∀ (next : Option (Resting σ α)), c'.asleep = Function.update c.asleep t.who next →
      (∀ x, next = some x → x.rest.Keeps inv) →
      ∀ other, other ≠ who → ∀ x, c'.asleep other = some x → x.rest.Keeps inv := by
    intro next hasleep hnext other hwho x hx
    rw [hasleep, Function.update_apply] at hx
    split at hx
    · exact hnext x hx
    · exact h.others other hwho x hx
  cases t with
  | drops gone instant =>
    obtain ⟨-, -, -, -, hasleep, hstate⟩ := turn?_drops hturn
    exact ⟨hstate ▸ h.state, hself, hrest none hasleep fun x hx => by cases hx⟩
  | goesOn other late =>
    obtain ⟨x, hx, -, -, -, hasleep, hstate⟩ := turn?_goesOn hturn
    obtain ⟨hkeep, hyields⟩ :=
      Activity.advance_yields (h.others other hother x hx) c'.now h.state
    refine ⟨hstate ▸ hkeep, hself, hrest _ hasleep ?_⟩
    intro y hy
    cases hp : (x.rest.advance c'.now c.state).1 with
    | finished r =>
      rw [hp] at hy
      cases hy
    | asleep wake rest =>
      rw [hp] at hy hyields
      obtain rfl := Option.some.inj hy
      exact hyields

theorem Company.replay (h : c.Company pace inv post who)
    (hpunctual : ∀ t ∈ turns, t.who = who → t = .goesOn who none)
    (hrun : c.replay? turns = some (log, e)) :
    e.Company pace inv post who ∧ ∀ g ∈ log, g.who = who → post g.result g.instant := by
  induction turns generalizing c log with
  | nil =>
    obtain ⟨rfl, rfl⟩ := replay?_nil hrun
    exact ⟨h, by simp⟩
  | cons t turns ih =>
    obtain ⟨f, c', rest, hturn, hrest, rfl⟩ := replay?_cons hrun
    obtain ⟨hfirst, hlater⟩ := List.forall_mem_cons.mp hpunctual
    by_cases hwho : t.who = who
    · obtain rfl := hfirst hwho
      obtain ⟨hnext, hfinish⟩ := h.ownTurn hturn
      obtain ⟨hend, hlog⟩ := ih hnext hlater hrest
      refine ⟨hend, ?_⟩
      intro g hg hself
      rcases List.mem_append.mp hg with hg | hg
      · exact hfinish g (Option.mem_toList.mp hg)
      · exact hlog g hg hself
    · obtain ⟨hend, hlog⟩ := ih (h.othersTurn hturn hwho) hlater hrest
      refine ⟨hend, ?_⟩
      intro g hg hself
      rcases List.mem_append.mp hg with hg | hg
      · rw [((turn?_now hturn).2 g (Option.mem_toList.mp hg)).1] at hself
        exact absurd hself hwho
      · exact hlog g hg hself

theorem replay?_returns (hwho : (c.asleep who).isSome)
    (hpunctual : ∀ t ∈ turns, t.who = who → t = .goesOn who none)
    (hrun : c.replay? turns = some (log, e)) :
    (∃ g ∈ log, g.who = who) ∨ (e.asleep who).isSome := by
  induction turns generalizing c log with
  | nil =>
    obtain ⟨-, rfl⟩ := replay?_nil hrun
    exact .inr hwho
  | cons t turns ih =>
    obtain ⟨f, c', rest, hturn, hrest, rfl⟩ := replay?_cons hrun
    obtain ⟨hfirst, hlater⟩ := List.forall_mem_cons.mp hpunctual
    have hstays : (c'.asleep who).isSome →
        (∃ g ∈ f.toList ++ rest, g.who = who) ∨ (e.asleep who).isSome := by
      intro hthere
      rcases ih hthere hlater hrest with ⟨g, hg, hself⟩ | hleft
      · exact .inl ⟨g, List.mem_append_right _ hg, hself⟩
      · exact .inr hleft
    by_cases hself : t.who = who
    · obtain rfl := hfirst hself
      obtain ⟨x, -, -, -, rfl, hasleep, -⟩ := turn?_goesOn hturn
      cases hp : (x.rest.advance c'.now c.state).1 with
      | finished r =>
        exact .inl ⟨⟨who, c'.now, r⟩, List.mem_append_left _ List.mem_cons_self, rfl⟩
      | asleep wake left =>
        rw [hp] at hstays
        refine hstays ?_
        rw [hasleep, hp, Function.update_self]
        rfl
    · refine hstays ?_
      rw [turn?_asleep hturn fun h => hself h.symm]
      exact hwho

end Crowd

end ChainAudit.Schedule
