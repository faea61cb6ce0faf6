import ChainAudit.Proofs.Schedule.Punctual

/-!
# Activities that are not kept waiting

An activity whose questions are answered at once does not sleep beyond the instant at which it is
started. Whatever comes later, be it the stop or the deadline of a time limit, makes no difference
to it. Here `bound` is an instant that is not slept beyond, the rules follow the constructions, and
a pool is done by then too.
-/

namespace ChainAudit.Schedule

open ChainAudit.Clock

namespace Activity

/-- Falling asleep up to an instant at most. -/
def UpTo (bound : Instant) (_now wake : Instant) : Prop := wake ≤ bound

/-- Whenever the activity is started by an instant, it is done by that instant, with a result of
`post`. -/
def DoneBy (bound : Instant) (inv : σ → Prop) (post : α → Prop) (a : Activity σ α) : Prop :=
  ∀ now ≤ bound, a.Ensures (UpTo bound) inv (fun r t => t ≤ bound ∧ post r) now

variable {bound : Instant} {inv : σ → Prop}

theorem doneBy_pure {post : α → Prop} {r : α} (h : post r) :
    (pure r : Activity σ α).DoneBy bound inv post :=
  fun _ hnow => ensures_pure ⟨hnow, h⟩

theorem doneBy_bind {between : α → Prop} {post : β → Prop} {a : Activity σ α}
    {f : α → Activity σ β} (ha : a.DoneBy bound inv between)
    (hf : ∀ r, between r → (f r).DoneBy bound inv post) : (a >>= f).DoneBy bound inv post :=
  fun now hnow => ensures_bind (ensures_mono (ha now hnow) fun r t hr => hf r hr.2 t hr.1)

theorem doneBy_clock : (clock : Activity σ Instant).DoneBy bound inv fun _ => True :=
  fun _ hnow => ensures_clock ⟨hnow, trivial⟩

theorem doneBy_access {post : α → Prop} {f : Instant → σ → α × σ}
    (h : ∀ now s, inv s → inv (f now s).2 ∧ post (f now s).1) :
    (access f).DoneBy bound inv post :=
  fun now hnow => ensures_access fun s hs => ⟨(h now s hs).1, hnow, (h now s hs).2⟩

theorem doneBy_within {part : τ → Prop} {get : σ → τ} {set : τ → σ → σ} {post : α → Prop}
    {a : Activity τ α} (hget : ∀ s, inv s → part (get s))
    (hset : ∀ s t, inv s → part t → inv (set t s)) (h : a.DoneBy bound part post) :
    (a.within get set).DoneBy bound inv post :=
  fun now hnow => ensures_within hget hset (h now hnow)

theorem doneBy_await {post : α → Prop} {ask : Instant → σ → Delayed α × σ}
    (h : ∀ now s, inv s → (ask now s).1.delay = none ∧ inv (ask now s).2 ∧
      post (ask now s).1.value) : (await ask).DoneBy bound inv post := by
  intro now hnow s hs
  obtain ⟨hdelay, hkeep, hpost⟩ := h now s hs
  have hcomes : (ask now s).1.comesAt now = now := by rw [Delayed.comesAt, hdelay]
  dsimp only
  rw [hcomes]
  exact ⟨hkeep, fun _ => hnow, Nat.max_le.mpr ⟨hnow, hnow⟩, hpost⟩

theorem doneBy_inquire {ask : Instant → σ → Delayed (σ → α) × σ}
    (h : ∀ now s, inv s → (ask now s).1.delay = none ∧ inv (ask now s).2) :
    (inquire ask).DoneBy bound inv fun _ => True := by
  intro now hnow s hs
  obtain ⟨hdelay, hkeep⟩ := h now s hs
  have hcomes : (ask now s).1.comesAt now = now := by rw [Delayed.comesAt, hdelay]
  dsimp only
  rw [hcomes]
  exact ⟨hkeep, fun _ => hnow, fun _ hfound => ⟨hfound, Nat.max_le.mpr ⟨hnow, hnow⟩, trivial⟩⟩

private theorem wake_upTo {now wake : Instant} (hnow : now ≤ bound)
    (h : now < wake → UpTo bound now wake) : max now wake ≤ bound := by
  rcases Nat.lt_or_ge now wake with hlt | hge
  · exact Nat.max_le.mpr ⟨hnow, h hlt⟩
  · rwa [Nat.max_eq_left hge]

private theorem ensures_limit_upTo {post : α → Prop} {deadline now : Instant} {a : Activity σ α}
    (hnow : now ≤ bound) (h : a.Ensures (UpTo bound) inv (fun r t => t ≤ bound ∧ post r) now) :
    (a.limit deadline).Ensures (UpTo bound) inv (fun _ t => t ≤ bound ∧ True) now := by
  induction a generalizing now with
  | done r => exact ⟨hnow, trivial⟩
  | act change next ih =>
    intro s hs
    obtain ⟨hkeep, hnext⟩ := h s hs
    exact ⟨hkeep, ih now s hnow hnext⟩
  | sleep wake next ih =>
    have hsoon := wake_upTo hnow h.1
    intro s hs
    refine ⟨hs, ?_⟩
    dsimp only
    split
    · exact ⟨h.1, ih hsoon h.2⟩
    · -- the limit wakes up before the activity would
      rename_i hlate
      have hearly : timerFrom now deadline ≤ max now wake :=
        Nat.le_trans (Nat.le_of_not_le hlate) (Nat.le_max_right now wake)
      have hlast := Nat.le_trans hearly hsoon
      exact ⟨fun _ => hlast, Nat.max_le.mpr ⟨hnow, hlast⟩, trivial⟩

theorem doneBy_limit {post : α → Prop} {deadline : Instant} {a : Activity σ α}
    (h : a.DoneBy bound inv post) : (a.limit deadline).DoneBy bound inv fun _ => True :=
  fun now hnow => ensures_limit_upTo hnow (h now hnow)

private theorem ensures_cutAt_upTo {post : α → Prop} {fires now : Instant} {a : Activity σ α}
    (hfires : bound < fires) (hnow : now ≤ bound)
    (h : a.Ensures (UpTo bound) inv (fun r t => t ≤ bound ∧ post r) now) :
    (a.cutAt fires).Ensures (UpTo bound) inv
      (fun r t => t ≤ bound ∧ ∃ x, r = some x ∧ post x) now := by
  induction a generalizing now with
  | done r => exact ⟨hnow, r, rfl, h.2⟩
  | act change next ih =>
    intro s hs
    obtain ⟨hkeep, hnext⟩ := h s hs
    exact ⟨hkeep, ih now s hnow hnext⟩
  | sleep wake next ih =>
    have hsoon := wake_upTo hnow h.1
    have hwake := Nat.le_trans (Nat.le_max_right now wake) hsoon
    rw [cutAt, if_neg (Nat.not_le_of_lt (Nat.lt_of_le_of_lt hwake hfires))]
    exact ⟨h.1, ih hsoon h.2⟩

theorem doneBy_breakOff {post : α → Prop} {fires : Instant} {a : Activity σ α}
    (hfires : bound < fires) (h : a.DoneBy bound inv post) :
    (a.breakOff (some fires)).DoneBy bound inv fun r => ∃ x, r = some x ∧ post x := by
  intro now hnow s hs
  refine ⟨hs, ?_⟩
  dsimp only
  rw [if_neg (Nat.not_le_of_lt (Nat.lt_of_le_of_lt hnow hfires))]
  exact ensures_cutAt_upTo hfires hnow (h now hnow)

end Activity

theorem runPool_doneBy {bound : Instant} {inv : σ → Prop} {post : α → Prop} {fatal : α → Bool}
    {workers : Nat} {horizon now : Instant} {activities : List (Activity σ α)} {s : σ} (hs : inv s)
    (hjobs : ∀ a ∈ activities, a.DoneBy bound inv post) (hnow : now ≤ bound) :
    (runPool fatal workers horizon now activities s).endsAt ≤ bound ∧
      ∀ r ∈ (runPool fatal workers horizon now activities s).results, post r := by
  have hpace : ∀ t wake, Activity.UpTo bound t wake → wake ≤ bound := fun _ _ h => h
  have hends : (runPool fatal workers horizon now activities s).EndsBy
      (fun r t => t ≤ bound ∧ post r) bound now := runPool_endsBy hpace hs hjobs hnow
  refine ⟨hends.bounded, fun r hr => ?_⟩
  obtain ⟨_, _, _, hpost⟩ := hends.results r hr
  exact hpost

end ChainAudit.Schedule
