import ChainAudit.Schedule.Pool
import Mathlib.Data.List.Forall2

/-!
# Activities that keep more than others

An activity may do what another one does and keep something besides, in its state or in its result.
With that left out it acts, sleeps and ends as the other one does. The rules follow the
constructions that activities are put together with, and a pool is one of them.
-/

namespace ChainAudit.Schedule

open ChainAudit.Clock

namespace Activity

/-- The first activity does what the second one does, if only a part of its state and of its
result is looked at. -/
inductive Mirrors (part : σ → τ) (result : α → β) : Activity σ α → Activity τ β → Prop
  | done (r : α) : Mirrors part result (.done r) (.done (result r))
  | act {change next change' next'}
      (hchange : ∀ now s, part (change now s) = change' now (part s))
      (hnext : ∀ now s, Mirrors part result (next now s) (next' now (part s))) :
      Mirrors part result (.act change next) (.act change' next')
  | sleep {next next'} (wake : Instant) (hnext : Mirrors part result next next') :
      Mirrors part result (.sleep wake next) (.sleep wake next')

section Rules

variable {part : σ → τ}

theorem mirrors_refl (a : Activity σ α) : a.Mirrors id id a := by
  induction a with
  | done r => exact .done r
  | act change next ih => exact .act (fun _ _ => rfl) ih
  | sleep wake next ih => exact .sleep wake ih

theorem mirrors_pure (r : α) : (pure r : Activity σ α).Mirrors part id (pure r) := .done r

theorem mirrors_bind {a : Activity σ α} {a' : Activity τ α} {f : α → Activity σ β}
    {f' : α → Activity τ β} (ha : a.Mirrors part id a')
    (hf : ∀ r, (f r).Mirrors part id (f' r)) : (a >>= f).Mirrors part id (a' >>= f') := by
  change (a.bind f).Mirrors part id (a'.bind f')
  induction ha with
  | done r => exact hf r
  | act hchange _ ih => exact .act hchange ih
  | sleep wake _ ih => exact .sleep wake ih

theorem mirrors_clock : (clock : Activity σ Instant).Mirrors part id clock :=
  .act (fun _ _ => rfl) fun now _ => .done now

theorem mirrors_sleepUntil (set : Instant) :
    (sleepUntil set : Activity σ Unit).Mirrors part id (sleepUntil set) :=
  .act (fun _ _ => rfl) fun _ _ => .sleep _ (.done ())

theorem mirrors_access {f : Instant → σ → α × σ} {f' : Instant → τ → α × τ}
    (hresult : ∀ now s, (f now s).1 = (f' now (part s)).1)
    (hstate : ∀ now s, part (f now s).2 = (f' now (part s)).2) :
    (access f).Mirrors part id (access f') := by
  refine .act hstate fun now s => ?_
  rw [hresult]
  exact .done _

theorem mirrors_await {ask : Instant → σ → Delayed α × σ} {ask' : Instant → τ → Delayed α × τ}
    (hanswer : ∀ now s, (ask now s).1 = (ask' now (part s)).1)
    (hstate : ∀ now s, part (ask now s).2 = (ask' now (part s)).2) :
    (await ask).Mirrors part id (await ask') := by
  refine .act hstate fun now s => ?_
  rw [hanswer]
  exact .sleep _ (.done _)

theorem mirrors_inquire {ask : Instant → σ → Delayed (σ → α) × σ}
    {ask' : Instant → τ → Delayed (τ → α) × τ}
    (hvalue : ∀ now s found, (ask now s).1.value found = (ask' now (part s)).1.value (part found))
    (hdelay : ∀ now s, (ask now s).1.delay = (ask' now (part s)).1.delay)
    (hstate : ∀ now s, part (ask now s).2 = (ask' now (part s)).2) :
    (inquire ask).Mirrors part id (inquire ask') := by
  refine .act hstate fun now s => ?_
  have hcomes : (ask now s).1.comesAt now = (ask' now (part s)).1.comesAt now := by
    rw [Delayed.comesAt, Delayed.comesAt, hdelay]
  rw [hcomes]
  refine .sleep _ (.act (fun _ _ => rfl) fun _ found => ?_)
  rw [hvalue]
  exact .done _

theorem mirrors_within {get : σ → υ} {set : υ → σ → σ} {get' : τ → υ'} {set' : υ' → τ → τ}
    {inner : υ → υ'} {a : Activity υ α} {a' : Activity υ' α} (ha : a.Mirrors inner id a')
    (hget : ∀ s, inner (get s) = get' (part s))
    (hset : ∀ u s, part (set u s) = set' (inner u) (part s)) :
    (a.within get set).Mirrors part id (a'.within get' set') := by
  induction ha with
  | done r => exact .done r
  | @act change _ change' _ hchange _ ih =>
    refine .act (fun now s => ?_) fun now s => ?_
    · rw [hset, hchange, hget]
    · rw [← hget]
      exact ih now (get s)
  | sleep wake _ ih => exact .sleep wake ih

theorem mirrors_cutAt {a : Activity σ α} {a' : Activity τ α} (ha : a.Mirrors part id a')
    (fires : Instant) : (a.cutAt fires).Mirrors part id (a'.cutAt fires) := by
  induction ha with
  | done r => exact .done (some r)
  | act hchange _ ih => exact .act hchange ih
  | sleep wake _ ih =>
    simp only [cutAt]
    split
    · exact .sleep fires (.done none)
    · exact .sleep wake ih

theorem mirrors_breakOff {a : Activity σ α} {a' : Activity τ α} (ha : a.Mirrors part id a')
    (stop : Option Instant) : (a.breakOff stop).Mirrors part id (a'.breakOff stop) := by
  cases stop with
  | none => exact mirrors_bind ha fun r => .done (some r)
  | some fires =>
    refine .act (fun _ _ => rfl) fun now _ => ?_
    split
    · exact .done none
    · exact mirrors_cutAt ha fires

theorem mirrors_limit {a : Activity σ α} {a' : Activity τ α} (ha : a.Mirrors part id a')
    (deadline : Instant) : (a.limit deadline).Mirrors part id (a'.limit deadline) := by
  induction ha with
  | done r => exact .done (some r)
  | act hchange _ ih => exact .act hchange ih
  | sleep wake _ ih =>
    refine .act (fun _ _ => rfl) fun now _ => ?_
    split
    · exact .sleep wake ih
    · exact .sleep _ (.done none)

end Rules

/-- How far two activities get of which one mirrors the other. -/
inductive Progress.Mirrors (part : σ → τ) (result : α → β) : Progress σ α → Progress τ β → Prop
  | finished (r : α) : Mirrors part result (.finished r) (.finished (result r))
  | asleep {rest rest'} (wake : Instant) (hrest : rest.Mirrors part result rest') :
      Mirrors part result (.asleep wake rest) (.asleep wake rest')

theorem mirrors_advance {part : σ → τ} {result : α → β} {a : Activity σ α} {a' : Activity τ β}
    (ha : a.Mirrors part result a') (now : Instant) (s : σ) :
    (a.advance now s).1.Mirrors part result (a'.advance now (part s)).1 ∧
      part (a.advance now s).2 = (a'.advance now (part s)).2 := by
  induction ha generalizing s with
  | done r => exact ⟨.finished r, rfl⟩
  | act hchange _ ih =>
    simp only [advance]
    rw [← hchange]
    exact ih now s _
  | sleep wake hnext ih =>
    simp only [advance]
    split
    · exact ih s
    · exact ⟨.asleep wake hnext, rfl⟩

end Activity

section Pools

variable {part : σ → τ} {result : α → β}

/-- A sleeper wakes with another one and then mirrors it. -/
def Sleeper.Mirrors (part : σ → τ) (result : α → β) (x : Sleeper σ α) (x' : Sleeper τ β) : Prop :=
  x.wake = x'.wake ∧ x.rest.Mirrors part result x'.rest

/-- The sleeper that wakes first and the others, beside those that they mirror. -/
def FirstMirrors (part : σ → τ) (result : α → β) (found : Sleeper σ α × List (Sleeper σ α))
    (found' : Sleeper τ β × List (Sleeper τ β)) : Prop :=
  found.1.Mirrors part result found'.1 ∧
    List.Forall₂ (Sleeper.Mirrors part result) found.2 found'.2

theorem earliest?_mirrors {l : List (Sleeper σ α)} {l' : List (Sleeper τ β)}
    (h : List.Forall₂ (Sleeper.Mirrors part result) l l') :
    Option.Rel (FirstMirrors part result) (earliest? l) (earliest? l') := by
  induction h with
  | nil => exact .none
  | @cons x x' rest rest' hx hrest ih =>
    simp only [earliest?]
    generalize earliest? rest = found at ih ⊢
    generalize earliest? rest' = found' at ih ⊢
    cases ih with
    | none => exact .some ⟨hx, .nil⟩
    | some hfound =>
      obtain ⟨hfirst, hothers⟩ := hfound
      dsimp only
      rw [hfirst.1, hx.1]
      split
      · exact .some ⟨hfirst, .cons hx hothers⟩
      · exact .some ⟨hx, hrest⟩

/-- The end of a pool beside that of another one. -/
structure PoolEnd.Mirrors (part : σ → τ) (result : α → β) (e : PoolEnd σ α) (e' : PoolEnd τ β) :
    Prop where
  results : e.results.map result = e'.results
  endsAt : e.endsAt = e'.endsAt
  state : part e.state = e'.state

theorem startAt_mirrors (now : Instant) {activities : List (Activity σ α)}
    {activities' : List (Activity τ β)}
    (h : List.Forall₂ (Activity.Mirrors part result) activities activities') :
    List.Forall₂ (Sleeper.Mirrors part result) (startAt now activities)
      (startAt now activities') := by
  rw [startAt, startAt, List.forall₂_map_left_iff, List.forall₂_map_right_iff]
  exact h.imp fun _ _ ha => ⟨rfl, ha⟩

theorem serve_mirrors {fatal : α → Bool} {fatal' : β → Bool}
    (hfatal : ∀ r, fatal r = fatal' (result r)) (turns : Nat) (now : Instant)
    {asleep : List (Sleeper σ α)} {asleep' : List (Sleeper τ β)} {queue : List (Activity σ α)}
    {queue' : List (Activity τ β)}
    (hasleep : List.Forall₂ (Sleeper.Mirrors part result) asleep asleep')
    (hqueue : List.Forall₂ (Activity.Mirrors part result) queue queue') (results : List α)
    (s : σ) :
    (serve fatal turns now asleep queue results s).Mirrors part result
      (serve fatal' turns now asleep' queue' (results.map result) (part s)) := by
  induction turns generalizing now asleep asleep' queue queue' results s with
  | zero => exact ⟨rfl, rfl, rfl⟩
  | succ turns ih =>
    have hfirst := earliest?_mirrors hasleep
    simp only [serve]
    generalize earliest? asleep = found at hfirst ⊢
    generalize earliest? asleep' = found' at hfirst ⊢
    cases hfirst with
    | none => exact ⟨rfl, rfl, rfl⟩
    | @some found found' hfound =>
      obtain ⟨first, others⟩ := found
      obtain ⟨first', others'⟩ := found'
      obtain ⟨⟨hwake, hrest⟩, hothers⟩ := hfound
      obtain ⟨hturn, hstate⟩ := Activity.mirrors_advance hrest (max now first'.wake) s
      dsimp only at hwake hrest hothers ⊢
      rw [hwake]
      generalize first.rest.advance (max now first'.wake) s = turn at hturn hstate ⊢
      generalize first'.rest.advance (max now first'.wake) (part s) = turn' at hturn hstate ⊢
      obtain ⟨progress, t⟩ := turn
      obtain ⟨progress', t'⟩ := turn'
      subst hstate
      cases hturn with
      | asleep wake hleft =>
        exact ih _ (List.rel_append hothers (.cons ⟨rfl, hleft⟩ .nil)) hqueue results t
      | finished r =>
        have hresults : results.map result ++ [result r] = (results ++ [r]).map result := by simp
        dsimp only
        rw [hfatal, hresults]
        split
        · exact ⟨rfl, rfl, rfl⟩
        · exact ih _
            (List.rel_append hothers (startAt_mirrors _ (List.forall₂_take 1 hqueue)))
            (List.forall₂_drop 1 hqueue) _ t

theorem runPool_mirrors {fatal : α → Bool} {fatal' : β → Bool}
    (hfatal : ∀ r, fatal r = fatal' (result r)) (workers : Nat) (horizon now : Instant)
    {activities : List (Activity σ α)} {activities' : List (Activity τ β)}
    (h : List.Forall₂ (Activity.Mirrors part result) activities activities') (s : σ) :
    (runPool fatal workers horizon now activities s).Mirrors part result
      (runPool fatal' workers horizon now activities' (part s)) := by
  simp only [runPool]
  rw [h.length_eq]
  exact serve_mirrors hfatal _ now (startAt_mirrors now (List.forall₂_take _ h))
    (List.forall₂_drop _ h) [] s

end Pools

end ChainAudit.Schedule
