import ChainAudit.Proofs.Schedule.Ensures
import ChainAudit.Proofs.Schedule.Erasure

/-!
# Activities that note what they do

A state that is shared does not show who changed it. An activity can therefore be made to note its
own changes and to yield the notes with its result. Whatever others do while it sleeps, the notes
are its own, so what they may be follows from its constructions alone, without an invariant.
-/

namespace ChainAudit.Schedule.Activity

open ChainAudit.Clock

/-- The activity that adds a note on each of its changes to the given ones and yields them too. -/
def noting (note : σ → σ → List κ) : Activity σ α → List κ → Activity σ (α × List κ)
  | .done r, notes => .done (r, notes)
  | .act change next, notes =>
      .act change fun now s => (next now s).noting note (notes ++ note s (change now s))
  | .sleep wake next, notes => .sleep wake (next.noting note notes)

theorem mirrors_noting {part : σ → τ} {result : α → β} {a : Activity σ α} {a' : Activity τ β}
    (ha : a.Mirrors part result a') (note : σ → σ → List κ) (notes : List κ) :
    (a.noting note notes).Mirrors part (fun r => result r.1) a' := by
  induction ha generalizing notes with
  | done r => exact .done (r, notes)
  | act hchange _ ih => exact .act hchange fun now s => ih now s _
  | sleep wake _ ih => exact .sleep wake (ih notes)

/-- Whatever is found at each of its changes, the activity ends with a result and notes that fit. -/
def Notes (note : σ → σ → List κ) (post : α → List κ → Prop) : Activity σ α → List κ → Prop
  | .done r, notes => post r notes
  | .act change next, notes =>
      ∀ now s, (next now s).Notes note post (notes ++ note s (change now s))
  | .sleep _ next, notes => next.Notes note post notes

theorem ensures_noting {pace : Instant → Instant → Prop} {inv : σ → Prop}
    {post : α → Instant → Prop} {note : σ → σ → List κ} {noted : α → List κ → Prop}
    {a : Activity σ α} {now : Instant} {notes : List κ} (h : a.Ensures pace inv post now)
    (hnotes : a.Notes note noted notes) :
    (a.noting note notes).Ensures pace inv (fun r t => post r.1 t ∧ noted r.1 r.2) now := by
  induction a generalizing now notes with
  | done r => exact ⟨h, hnotes⟩
  | act change next ih =>
    intro s hs
    obtain ⟨hkeep, hnext⟩ := h s hs
    exact ⟨hkeep, ih now s hnext (hnotes now s)⟩
  | sleep wake next ih => exact ⟨h.1, ih h.2 hnotes⟩

/-- What is known of notes if there is a result. -/
def IfGiven (post : α → List κ → Prop) (r : Option α) (notes : List κ) : Prop :=
  ∀ a, r = some a → post a notes

theorem ifGiven_none {post : α → List κ → Prop} {notes : List κ} : IfGiven post none notes := by
  intro a h
  cases h

theorem ifGiven_some {post : α → List κ → Prop} {a : α} {notes : List κ} (h : post a notes) :
    IfGiven post (some a) notes := by
  intro b hb
  obtain rfl := Option.some.inj hb
  exact h

section Rules

variable {note : σ → σ → List κ} {notes : List κ}

theorem notes_mono {post post' : α → List κ → Prop} {a : Activity σ α}
    (h : a.Notes note post notes) (hp : ∀ r n, post r n → post' r n) :
    a.Notes note post' notes := by
  induction a generalizing notes with
  | done r => exact hp r notes h
  | act change next ih => exact fun now s => ih now s (h now s)
  | sleep wake next ih => exact ih h

theorem notes_pure {post : α → List κ → Prop} {r : α} (h : post r notes) :
    (pure r : Activity σ α).Notes note post notes := h

theorem notes_bind {post : β → List κ → Prop} {a : Activity σ α} {f : α → Activity σ β}
    (h : a.Notes note (fun r n => (f r).Notes note post n) notes) :
    (a >>= f).Notes note post notes := by
  change (a.bind f).Notes note post notes
  induction a generalizing notes with
  | done r => exact h
  | act change next ih => exact fun now s => ih now s (h now s)
  | sleep wake next ih => exact ih h

theorem notes_within {inner : τ → τ → List κ} {get : σ → τ} {set : τ → σ → σ}
    {post : α → List κ → Prop} {a : Activity τ α} (hset : ∀ s u, note s (set u s) = inner (get s) u)
    (h : a.Notes inner post notes) : (a.within get set).Notes note post notes := by
  induction a generalizing notes with
  | done r => exact h
  | act change next ih =>
    intro now s
    rw [hset]
    exact ih now (get s) (h now (get s))
  | sleep wake next ih => exact ih h

theorem notes_silent (a : Activity σ α) :
    a.Notes (fun _ _ => []) (fun _ n => n = notes) notes := by
  induction a with
  | done r => rfl
  | act change next ih =>
    intro now s
    rw [List.append_nil]
    exact ih now s
  | sleep wake next ih => exact ih

section Idle

variable (hidle : ∀ s, note s s = [])
include hidle

theorem notes_clock {post : Instant → List κ → Prop} (h : ∀ now, post now notes) :
    (clock : Activity σ Instant).Notes note post notes := by
  intro now s
  rw [hidle, List.append_nil]
  exact h now

theorem notes_breakOff {post : α → List κ → Prop} {a : Activity σ α} (h : a.Notes note post notes)
    (stop : Option Instant) : (a.breakOff stop).Notes note (IfGiven post) notes := by
  have hcut : ∀ fires, (a.cutAt fires).Notes note (IfGiven post) notes := by
    intro fires
    induction a generalizing notes with
    | done r => exact ifGiven_some h
    | act change next ih => exact fun now s => ih now s (h now s)
    | sleep wake next ih =>
      simp only [cutAt]
      split
      · exact ifGiven_none
      · exact ih h
  cases stop with
  | none => exact notes_bind (notes_mono h fun r n hr => ifGiven_some hr)
  | some fires =>
    intro now s
    rw [hidle, List.append_nil]
    dsimp only
    split
    · exact ifGiven_none
    · exact hcut fires

theorem notes_limit {post : α → List κ → Prop} {a : Activity σ α} (h : a.Notes note post notes)
    (deadline : Instant) : (a.limit deadline).Notes note (IfGiven post) notes := by
  induction a generalizing notes with
  | done r => exact ifGiven_some h
  | act change next ih => exact fun now s => ih now s (h now s)
  | sleep wake next ih =>
    intro now s
    rw [hidle, List.append_nil]
    dsimp only
    split
    · exact ih h
    · exact ifGiven_none

end Idle

end Rules

section Ensured

variable {note : σ → σ → List κ} {notes : List κ}
variable {pace : Instant → Instant → Prop} {inv : σ → Prop} {now : Instant}

theorem ensures_noting_pure {post : α × List κ → Instant → Prop} {r : α} (h : post (r, notes) now) :
    ((pure r : Activity σ α).noting note notes).Ensures pace inv post now := h

theorem ensures_noting_bind {post : β × List κ → Instant → Prop} {a : Activity σ α}
    {f : α → Activity σ β}
    (h : (a.noting note notes).Ensures pace inv
      (fun r t => ((f r.1).noting note r.2).Ensures pace inv post t) now) :
    ((a >>= f).noting note notes).Ensures pace inv post now := by
  change ((a.bind f).noting note notes).Ensures pace inv post now
  induction a generalizing notes now with
  | done r => exact h
  | act change next ih =>
    intro s hs
    obtain ⟨hkeep, hnext⟩ := h s hs
    exact ⟨hkeep, ih now s hnext⟩
  | sleep wake next ih => exact ⟨h.1, ih h.2⟩

theorem ensures_noting_access {post : α × List κ → Instant → Prop} {f : Instant → σ → α × σ}
    (h : ∀ s, inv s →
      inv (f now s).2 ∧ post ((f now s).1, notes ++ note s (f now s).2) now) :
    ((access f).noting note notes).Ensures pace inv post now := h

theorem ensures_noting_within {inner : τ → τ → List κ} {part : τ → Prop} {get : σ → τ}
    {set : τ → σ → σ} {post : α × List κ → Instant → Prop} {a : Activity τ α}
    (hnote : ∀ s u, note s (set u s) = inner (get s) u) (hget : ∀ s, inv s → part (get s))
    (hset : ∀ s u, inv s → part u → inv (set u s))
    (h : (a.noting inner notes).Ensures pace part post now) :
    ((a.within get set).noting note notes).Ensures pace inv post now := by
  induction a generalizing notes now with
  | done r => exact h
  | act change next ih =>
    intro s hs
    obtain ⟨hkeep, hnext⟩ := h (get s) (hget s hs)
    refine ⟨hset s _ hs hkeep, ?_⟩
    dsimp only
    rw [hnote]
    exact ih now (get s) hnext
  | sleep wake next ih => exact ⟨h.1, ih h.2⟩

section Idle

variable (hidle : ∀ s, note s s = [])
include hidle

theorem ensures_noting_clock {post : Instant × List κ → Instant → Prop}
    (h : post (now, notes) now) :
    ((clock : Activity σ Instant).noting note notes).Ensures pace inv post now := by
  intro s hs
  refine ⟨hs, ?_⟩
  dsimp only
  rw [hidle, List.append_nil]
  exact h

theorem ensures_noting_sleepUntil {post : Unit × List κ → Instant → Prop} {set : Instant}
    (h : post ((), notes) (timerFrom now set)) :
    ((sleepUntil set : Activity σ Unit).noting note notes).Ensures (Ticking none) inv post now := by
  intro s hs
  refine ⟨hs, ?_⟩
  dsimp only
  rw [hidle, List.append_nil]
  refine ⟨fun _ => timerFrom_place now set, ?_⟩
  rw [Nat.max_eq_right (le_timerFrom now set)]
  exact h

/-- An answer that is missed has been asked for all the same. -/
theorem ensures_noting_limit_inquire {post : Option α × List κ → Instant → Prop}
    {ask : Instant → σ → Delayed (σ → α) × σ} {deadline : Instant}
    (h : ∀ s, inv s → inv (ask now s).2 ∧
      if (ask now s).1.comesAt now ≤ timerFrom now deadline then
        ∀ found, inv found →
          post (some ((ask now s).1.value found), notes ++ note s (ask now s).2)
            ((ask now s).1.comesAt now)
      else post (none, notes ++ note s (ask now s).2) (timerFrom now deadline)) :
    (((inquire ask).limit deadline).noting note notes).Ensures (Ticking none) inv post now := by
  intro s hs
  obtain ⟨hkeep, hpost⟩ := h s hs
  refine ⟨hkeep, fun s' hs' => ⟨hs', ?_⟩⟩
  dsimp only
  rw [hidle, List.append_nil]
  split
  · rename_i hin
    rw [if_pos hin] at hpost
    refine ⟨fun _ => Delayed.comesAt_place now _, fun found hfound => ⟨hfound, ?_⟩⟩
    dsimp only
    rw [hidle, List.append_nil, Nat.max_eq_right (Delayed.le_comesAt now _)]
    exact hpost found hfound
  · rename_i hlate
    rw [if_neg hlate] at hpost
    refine ⟨fun _ => timerFrom_place now _, ?_⟩
    rw [Nat.max_eq_right (le_timerFrom now _)]
    exact hpost

end Idle

end Ensured

end ChainAudit.Schedule.Activity
