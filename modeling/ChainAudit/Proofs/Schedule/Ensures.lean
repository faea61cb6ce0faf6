import ChainAudit.Proofs.Schedule.Alone

/-!
# What activities ensure

An activity shares its state with others, which act on it whenever the activity sleeps. What it
ensures is therefore stated relative to an invariant that all of them keep: whatever state of the
invariant is found, the activity keeps it, sleeps only as a pace allows, and ends with a result and
at an instant that fit. The rules follow the constructions that activities are put together with.
-/

namespace ChainAudit.Schedule.Activity

open ChainAudit.Clock

/-- From the instant `now` on, the activity keeps `inv`, falls asleep only in ways of `pace` and
ends with a result and at an instant of `post`, as long as others keep `inv` too. -/
def Ensures (pace : Instant → Instant → Prop) (inv : σ → Prop) (post : α → Instant → Prop) :
    Activity σ α → Instant → Prop
  | .done a, now => post a now
  | .act change next, now =>
      ∀ s, inv s → inv (change now s) ∧ (next now s).Ensures pace inv post now
  | .sleep wake next, now =>
      (now < wake → pace now wake) ∧ next.Ensures pace inv post (max now wake)

/-- The ways to sleep of an activity that may be broken off at the instant `stop`: for a whole number
of milliseconds, or up to the stop, and never beyond it. -/
def Ticking : (stop : Option Instant) → (now wake : Instant) → Prop
  | none, now, wake => wake % 1000000 = now % 1000000
  | some fires, now, wake =>
      now < fires ∧ wake ≤ fires ∧ (wake % 1000000 = now % 1000000 ∨ wake = fires)

/-- The outcome of an activity that may be broken off at the instant `stop`. -/
def Unless (stop : Option Instant) (post : α → Instant → Prop) : Option α → Instant → Prop
  | none, ends => ∃ fires, stop = some fires ∧ fires ≤ ends
  | some a, ends => post a ends

section Rules

variable {pace : Instant → Instant → Prop} {inv : σ → Prop}

theorem ensures_mono {post post' : α → Instant → Prop} {a : Activity σ α} {now : Instant}
    (h : a.Ensures pace inv post now) (hp : ∀ r t, post r t → post' r t) :
    a.Ensures pace inv post' now := by
  induction a generalizing now with
  | done r => exact hp r now h
  | act change next ih =>
    intro s hs
    obtain ⟨hkeep, hnext⟩ := h s hs
    exact ⟨hkeep, ih now s hnext⟩
  | sleep wake next ih => exact ⟨h.1, ih h.2⟩

theorem ensures_since {post : α → Instant → Prop} {a : Activity σ α} {since now : Instant}
    (hsince : since ≤ now) (h : a.Ensures pace inv post now) :
    a.Ensures pace inv (fun r t => since ≤ t ∧ post r t) now := by
  induction a generalizing now with
  | done r => exact ⟨hsince, h⟩
  | act change next ih =>
    intro s hs
    obtain ⟨hkeep, hnext⟩ := h s hs
    exact ⟨hkeep, ih now s hsince hnext⟩
  | sleep wake next ih =>
    exact ⟨h.1, ih (Nat.le_trans hsince (Nat.le_max_left now wake)) h.2⟩

theorem ensures_pure {post : α → Instant → Prop} {r : α} {now : Instant} (h : post r now) :
    (pure r : Activity σ α).Ensures pace inv post now := h

theorem ensures_bind {post : β → Instant → Prop} {a : Activity σ α} {f : α → Activity σ β}
    {now : Instant}
    (h : a.Ensures pace inv (fun r t => (f r).Ensures pace inv post t) now) :
    (a >>= f).Ensures pace inv post now := by
  change (a.bind f).Ensures pace inv post now
  induction a generalizing now with
  | done r => exact h
  | act change next ih =>
    intro s hs
    obtain ⟨hkeep, hnext⟩ := h s hs
    exact ⟨hkeep, ih now s hnext⟩
  | sleep wake next ih => exact ⟨h.1, ih h.2⟩

theorem ensures_clock {post : Instant → Instant → Prop} {now : Instant} (h : post now now) :
    (clock : Activity σ Instant).Ensures pace inv post now :=
  fun _ hs => ⟨hs, h⟩

theorem ensures_access {post : α → Instant → Prop} {f : Instant → σ → α × σ} {now : Instant}
    (h : ∀ s, inv s → inv (f now s).2 ∧ post (f now s).1 now) :
    (access f).Ensures pace inv post now :=
  fun s hs => ⟨(h s hs).1, (h s hs).2⟩

theorem ensures_within {part : τ → Prop} {get : σ → τ} {set : τ → σ → σ}
    {post : α → Instant → Prop} {a : Activity τ α} {now : Instant}
    (hget : ∀ s, inv s → part (get s)) (hset : ∀ s t, inv s → part t → inv (set t s))
    (h : a.Ensures pace part post now) : (a.within get set).Ensures pace inv post now := by
  induction a generalizing now with
  | done r => exact h
  | act change next ih =>
    intro s hs
    obtain ⟨hkeep, hnext⟩ := h (get s) (hget s hs)
    exact ⟨hset s _ hs hkeep, ih now (get s) hnext⟩
  | sleep wake next ih => exact ⟨h.1, ih h.2⟩

end Rules

section Timers

variable {inv : σ → Prop}

theorem ensures_sleepUntil {post : Unit → Instant → Prop} {set now : Instant}
    (h : post () (timerFrom now set)) :
    (sleepUntil set : Activity σ Unit).Ensures (Ticking none) inv post now := by
  intro s hs
  refine ⟨hs, fun _ => timerFrom_place now set, ?_⟩
  rw [Nat.max_eq_right (le_timerFrom now set)]
  exact h

theorem ensures_await {post : α → Instant → Prop} {ask : Instant → σ → Delayed α × σ}
    {now : Instant}
    (h : ∀ s, inv s → inv (ask now s).2 ∧
      post (ask now s).1.value ((ask now s).1.comesAt now)) :
    (await ask).Ensures (Ticking none) inv post now := by
  intro s hs
  obtain ⟨hkeep, hpost⟩ := h s hs
  refine ⟨hkeep, fun _ => Delayed.comesAt_place now _, ?_⟩
  rw [Nat.max_eq_right (Delayed.le_comesAt now _)]
  exact hpost

/-- An answer is missed exactly if it comes after the limit has woken up. What it yields depends on
the state that others have left by then. -/
theorem ensures_limit_inquire {post : Option α → Instant → Prop}
    {ask : Instant → σ → Delayed (σ → α) × σ} {deadline now : Instant}
    (h : ∀ s, inv s → inv (ask now s).2 ∧
      if (ask now s).1.comesAt now ≤ timerFrom now deadline then
        ∀ found, inv found →
          post (some ((ask now s).1.value found)) ((ask now s).1.comesAt now)
      else post none (timerFrom now deadline)) :
    ((inquire ask).limit deadline).Ensures (Ticking none) inv post now := by
  intro s hs
  obtain ⟨hkeep, hpost⟩ := h s hs
  refine ⟨hkeep, fun s' hs' => ⟨hs', ?_⟩⟩
  dsimp only
  split
  · rename_i hin
    rw [if_pos hin] at hpost
    refine ⟨fun _ => Delayed.comesAt_place now _, fun found hfound => ⟨hfound, ?_⟩⟩
    rw [Nat.max_eq_right (Delayed.le_comesAt now _)]
    exact hpost found hfound
  · rename_i hlate
    rw [if_neg hlate] at hpost
    refine ⟨fun _ => timerFrom_place now _, ?_⟩
    rw [Nat.max_eq_right (le_timerFrom now _)]
    exact hpost

theorem ensures_cutAt {post : α → Instant → Prop} {fires : Instant} {a : Activity σ α}
    {now : Instant} (h : a.Ensures (Ticking none) inv post now) :
    (a.cutAt fires).Ensures (Ticking (some fires)) inv (Unless (some fires) post) now := by
  induction a generalizing now with
  | done r => exact h
  | act change next ih =>
    intro s hs
    obtain ⟨hkeep, hnext⟩ := h s hs
    exact ⟨hkeep, ih now s hnext⟩
  | sleep wake next ih =>
    simp only [cutAt]
    split
    · refine ⟨fun hlt => ⟨hlt, Nat.le_refl _, Or.inr rfl⟩, fires, rfl, ?_⟩
      exact Nat.le_max_right _ _
    · rename_i hbefore
      have hwake : wake < fires := Nat.lt_of_not_le hbefore
      exact ⟨fun hlt => ⟨Nat.lt_trans hlt hwake, Nat.le_of_lt hwake, .inl (h.1 hlt)⟩, ih h.2⟩

theorem ensures_breakOff {post : α → Instant → Prop} {stop : Option Instant} {a : Activity σ α}
    {now : Instant} (h : a.Ensures (Ticking none) inv post now) :
    (a.breakOff stop).Ensures (Ticking stop) inv (Unless stop post) now := by
  cases stop with
  | none =>
    apply ensures_bind
    exact ensures_mono h fun r t hr => hr
  | some fires =>
    intro s hs
    refine ⟨hs, ?_⟩
    dsimp only
    split
    · rename_i hfired
      exact ⟨fires, rfl, hfired⟩
    · exact ensures_cutAt h

theorem ensures_breakOff_fired {pace : Instant → Instant → Prop} {fires now : Instant}
    {a : Activity σ α} (hfires : fires ≤ now) :
    (a.breakOff (some fires)).Ensures pace inv (fun r _ => r = none) now := by
  intro s hs
  refine ⟨hs, ?_⟩
  dsimp only
  rw [if_pos hfires]
  exact ensures_pure rfl

end Timers

end ChainAudit.Schedule.Activity
