import ChainAudit.Proofs.Schedule.Crowd

/-!
# What activities yield at any time

Where only the state decides what an activity yields, nothing has to be known about the instants at
which it goes on: not in a crowd, where everybody may be late or dropped, either.
-/

namespace ChainAudit.Schedule

open ChainAudit.Clock

namespace Activity

/-- Whenever the activity goes on, it keeps `inv`, and it yields a result of `post`, as long as
others keep `inv` too. -/
def Yields (inv : σ → Prop) (post : α → Prop) : Activity σ α → Prop
  | .done a => post a
  | .act change next =>
      ∀ now s, inv s → inv (change now s) ∧ (next now s).Yields inv post
  | .sleep _ next => next.Yields inv post

variable {inv : σ → Prop} {between : α → Prop} {post : β → Prop}

theorem yields_bind {a : Activity σ α} {f : α → Activity σ β} (ha : a.Yields inv between)
    (hf : ∀ r, between r → (f r).Yields inv post) : (a >>= f).Yields inv post := by
  change (a.bind f).Yields inv post
  induction a with
  | done r => exact hf r ha
  | act change next ih =>
    intro now s hs
    obtain ⟨hkeep, hnext⟩ := ha now s hs
    exact ⟨hkeep, ih now s hnext⟩
  | sleep wake next ih => exact ih ha

theorem yields_clock : (clock : Activity σ Instant).Yields inv fun _ => True :=
  fun _ _ hs => ⟨hs, trivial⟩

theorem yields_access {f : Instant → σ → α × σ}
    (h : ∀ now s, inv s → inv (f now s).2 ∧ between (f now s).1) :
    (access f).Yields inv between :=
  fun now s hs => h now s hs

theorem yields_sleepUntil (set : Instant) :
    (sleepUntil set : Activity σ Unit).Yields inv fun _ => True :=
  fun _ _ hs => ⟨hs, trivial⟩

abbrev Keeps (inv : σ → Prop) (a : Activity σ α) : Prop := a.Yields inv fun _ => True

theorem keeps_pure (r : α) : (pure r : Activity σ α).Keeps inv := trivial

theorem keeps_bind {a : Activity σ α} {f : α → Activity σ β} (ha : a.Keeps inv)
    (hf : ∀ r, (f r).Keeps inv) : (a >>= f).Keeps inv :=
  yields_bind ha fun r _ => hf r

theorem keeps_inquire {ask : Instant → σ → Delayed (σ → α) × σ}
    (h : ∀ now s, inv s → inv (ask now s).2) : (inquire ask).Keeps inv :=
  fun now s hs => ⟨h now s hs, fun _ _ hfound => ⟨hfound, trivial⟩⟩

theorem keeps_within {part : τ → Prop} {get : σ → τ} {set : τ → σ → σ} {a : Activity τ α}
    (hget : ∀ s, inv s → part (get s)) (hset : ∀ s u, inv s → part u → inv (set u s))
    (ha : a.Keeps part) : (a.within get set).Keeps inv := by
  induction a with
  | done r => trivial
  | act change next ih =>
    intro now s hs
    obtain ⟨hkeep, hnext⟩ := ha now (get s) (hget s hs)
    exact ⟨hset s _ hs hkeep, ih now (get s) hnext⟩
  | sleep wake next ih => exact ih ha

theorem keeps_limit {a : Activity σ α} (ha : a.Keeps inv) (deadline : Instant) :
    (a.limit deadline).Keeps inv := by
  induction a with
  | done r => trivial
  | act change next ih =>
    intro now s hs
    obtain ⟨hkeep, hnext⟩ := ha now s hs
    exact ⟨hkeep, ih now s hnext⟩
  | sleep wake next ih =>
    intro now s hs
    refine ⟨hs, ?_⟩
    dsimp only
    split
    · exact ih ha
    · trivial

theorem advance_yields {a : Activity σ β} {s : σ} (h : a.Yields inv post) (now : Instant)
    (hs : inv s) :
    inv (a.advance now s).2 ∧
      match (a.advance now s).1 with
      | .finished r => post r
      | .asleep _ rest => rest.Yields inv post := by
  induction a generalizing s with
  | done r => exact ⟨hs, h⟩
  | act change next ih =>
    obtain ⟨hkeep, hnext⟩ := h now s hs
    exact ih now s hnext hkeep
  | sleep wake next ih =>
    simp only [advance]
    split
    · exact ih h hs
    · exact ⟨hs, h⟩

theorem run_yields {a : Activity σ β} {s : σ} (h : a.Yields inv post) (now : Instant)
    (hs : inv s) : post (a.run now s).1 := by
  induction a generalizing now s with
  | done r => exact h
  | act change next ih =>
    obtain ⟨hkeep, hnext⟩ := h now s hs
    exact ih now s hnext now hkeep
  | sleep wake next ih => exact ih h (max now wake) hs

end Activity

namespace Crowd

open Activity

/-- A crowd whose state is in order and whose activities keep it so. -/
structure Yields (inv : σ → Prop) (post : α → Prop) (c : Crowd κ σ α) : Prop where
  state : inv c.state
  rest : ∀ who x, c.asleep who = some x → x.rest.Yields inv post

variable [DecidableEq κ] {inv : σ → Prop} {post : α → Prop} {c c' e : Crowd κ σ α} {t : Turn κ}
variable {turns : List (Turn κ)} {f : Option (Finish κ α)} {log : List (Finish κ α)}

theorem Yields.update {who : κ} {next : Option (Resting σ α)} (h : c.Yields inv post)
    (hstate : inv c'.state) (hasleep : c'.asleep = Function.update c.asleep who next)
    (hnext : ∀ x, next = some x → x.rest.Yields inv post) : c'.Yields inv post := by
  refine ⟨hstate, ?_⟩
  intro other x hx
  rw [hasleep, Function.update_apply] at hx
  split at hx
  · exact hnext x hx
  · exact h.rest other x hx

theorem Yields.turn (h : c.Yields inv post) (hturn : c.turn? t = some (f, c')) :
    c'.Yields inv post ∧ ∀ g, f = some g → post g.result := by
  cases t with
  | drops who instant =>
    obtain ⟨-, -, -, rfl, hasleep, hstate⟩ := turn?_drops hturn
    refine ⟨h.update (hstate ▸ h.state) hasleep ?_, ?_⟩
    · intro x hx
      cases hx
    · intro g hg
      cases hg
  | goesOn who late =>
    obtain ⟨x, hx, -, -, rfl, hasleep, hstate⟩ := turn?_goesOn hturn
    obtain ⟨hkeep, hpost⟩ := advance_yields (h.rest who x hx) c'.now h.state
    rw [← hstate] at hkeep
    refine ⟨h.update hkeep hasleep ?_, ?_⟩
    · intro y hy
      cases hp : (x.rest.advance c'.now c.state).1 with
      | finished r =>
        rw [hp] at hy
        cases hy
      | asleep wake rest =>
        rw [hp] at hy hpost
        obtain rfl := Option.some.inj hy
        exact hpost
    · intro g hg
      cases hp : (x.rest.advance c'.now c.state).1 with
      | finished r =>
        rw [hp] at hg hpost
        obtain rfl := Option.some.inj hg
        exact hpost
      | asleep wake rest =>
        rw [hp] at hg
        cases hg

theorem Yields.replay (h : c.Yields inv post) (hrun : c.replay? turns = some (log, e)) :
    e.Yields inv post ∧ ∀ g ∈ log, post g.result := by
  induction turns generalizing c log with
  | nil =>
    obtain ⟨rfl, rfl⟩ := replay?_nil hrun
    exact ⟨h, by simp⟩
  | cons t turns ih =>
    obtain ⟨f, c', rest, hturn, hrest, rfl⟩ := replay?_cons hrun
    obtain ⟨hnext, hfinish⟩ := h.turn hturn
    obtain ⟨hend, hlater⟩ := ih hnext hrest
    refine ⟨hend, ?_⟩
    intro g hg
    rcases List.mem_append.mp hg with hg | hg
    · exact hfinish g (Option.mem_toList.mp hg)
    · exact hlater g hg

end Crowd

end ChainAudit.Schedule
