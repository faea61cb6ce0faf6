import ChainAudit.Proofs.Schedule.Turns

/-!
# Pools end in time

Where no activity sleeps beyond an instant, a pool is over when that instant has come, however many
turns it is given, and its results are those of activities that were started by then. Activities
that may be broken off do not sleep beyond the stop, and one that is started later does not sleep
at all.
-/

namespace ChainAudit.Schedule

open ChainAudit.Clock Activity

section Bounded

variable {pace : Instant → Instant → Prop} {inv : σ → Prop} {post : α → Instant → Prop}
variable {bound : Instant}

/-- A sleeper that wakes from `now` on and by `bound`, and then does what it is to do. -/
structure Sleeper.EndsBy (pace : Instant → Instant → Prop) (inv : σ → Prop)
    (post : α → Instant → Prop) (bound now : Instant) (x : Sleeper σ α) : Prop where
  later : now ≤ x.wake
  bounded : x.wake ≤ bound
  keeps : x.rest.Ensures pace inv post x.wake

/-- A pool that is over by `bound`, with results that are had by then. -/
structure PoolEnd.EndsBy (post : α → Instant → Prop) (bound now : Instant) (e : PoolEnd σ α) :
    Prop where
  later : now ≤ e.endsAt
  bounded : e.endsAt ≤ bound
  results : ∀ r ∈ e.results, ∃ t ≤ bound, post r t

private theorem endsBy_append {now : Instant} {asleep more : List (Sleeper σ α)}
    (h : ∀ x ∈ asleep, x.EndsBy pace inv post bound now)
    (hmore : ∀ x ∈ more, x.EndsBy pace inv post bound now) :
    ∀ x ∈ asleep ++ more, x.EndsBy pace inv post bound now :=
  fun x hx => (List.mem_append.mp hx).elim (h x) (hmore x)

private theorem endsBy_startAt {now : Instant} {activities : List (Activity σ α)}
    (h : ∀ a ∈ activities, ∀ t ≤ bound, a.Ensures pace inv post t) (hnow : now ≤ bound) :
    ∀ x ∈ startAt now activities, x.EndsBy pace inv post bound now := by
  intro x hx
  obtain ⟨a, ha, rfl⟩ := List.mem_map.mp hx
  exact ⟨Nat.le_refl now, hnow, h a ha now hnow⟩

/-- However many turns are given, no turn is later than the bound. -/
theorem serve_endsBy (hpace : ∀ now wake, pace now wake → wake ≤ bound) {fatal : α → Bool}
    {turns : Nat} {now : Instant} {asleep : List (Sleeper σ α)} {queue : List (Activity σ α)}
    {results : List α} {s : σ} (hasleep : ∀ x ∈ asleep, x.EndsBy pace inv post bound now)
    (hqueue : ∀ a ∈ queue, ∀ t ≤ bound, a.Ensures pace inv post t) (hs : inv s)
    (hresults : ∀ r ∈ results, ∃ t ≤ bound, post r t) (hnow : now ≤ bound) :
    (serve fatal turns now asleep queue results s).EndsBy post bound now := by
  induction turns generalizing now asleep queue results s with
  | zero => exact ⟨Nat.le_refl now, hnow, hresults⟩
  | succ turns ih =>
    simp only [serve]
    cases hfirst : earliest? asleep with
    | none => exact ⟨Nat.le_refl now, hnow, hresults⟩
    | some found =>
      obtain ⟨first, others⟩ := found
      obtain ⟨hperm, hleast⟩ := earliest?_spec hfirst
      have hwakes := hasleep first (hperm.mem_iff.mpr List.mem_cons_self)
      have hothers : ∀ x ∈ others, x.EndsBy pace inv post bound first.wake := by
        intro x hx
        have hbefore := hasleep x (hperm.mem_iff.mpr (List.mem_cons_of_mem _ hx))
        exact ⟨hleast x hx, hbefore.bounded, hbefore.keeps⟩
      obtain ⟨hturn, hkeep⟩ := advance_ensures hwakes.keeps hs
      simp only [Nat.max_eq_right hwakes.later]
      -- the first sleeper goes on when it wakes, and all others wake later
      suffices hrest : ∀ e : PoolEnd σ α, e.EndsBy post bound first.wake →
          e.EndsBy post bound now by
        apply hrest
        rcases hadv : first.rest.advance first.wake s with ⟨a | ⟨wake, left⟩, s'⟩
        · rw [hadv] at hturn hkeep
          have hmore : ∀ r ∈ results ++ [a], ∃ t ≤ bound, post r t := by
            intro r hr
            rcases List.mem_append.mp hr with hr | hr
            · exact hresults r hr
            · rw [List.mem_singleton.mp hr]
              exact ⟨first.wake, hwakes.bounded, hturn⟩
          dsimp only
          split
          · exact ⟨Nat.le_refl _, hwakes.bounded, hmore⟩
          · have hnext : ∀ x ∈ startAt first.wake (queue.take 1),
                x.EndsBy pace inv post bound first.wake :=
              endsBy_startAt (fun a ha => hqueue a (List.mem_of_mem_take ha)) hwakes.bounded
            exact ih (endsBy_append hothers hnext)
              (fun a ha => hqueue a (List.mem_of_mem_drop ha)) hkeep hmore hwakes.bounded
        · rw [hadv] at hturn hkeep
          obtain ⟨hlt, hstep, hleft⟩ := hturn
          have hsleeper : ∀ x ∈ [(⟨wake, left⟩ : Sleeper σ α)],
              x.EndsBy pace inv post bound first.wake :=
            List.forall_mem_singleton.mpr ⟨Nat.le_of_lt hlt, hpace _ _ hstep, hleft⟩
          exact ih (endsBy_append hothers hsleeper) hqueue hkeep hresults hwakes.bounded
      intro e he
      exact ⟨Nat.le_trans hwakes.later he.later, he.bounded, he.results⟩

theorem runPool_endsBy (hpace : ∀ now wake, pace now wake → wake ≤ bound) {fatal : α → Bool}
    {workers : Nat} {horizon now : Instant} {activities : List (Activity σ α)} {s : σ} (hs : inv s)
    (hjobs : ∀ a ∈ activities, ∀ t ≤ bound, a.Ensures pace inv post t) (hnow : now ≤ bound) :
    (runPool fatal workers horizon now activities s).EndsBy post bound now :=
  serve_endsBy hpace
    (endsBy_startAt (fun a ha => hjobs a (List.mem_of_mem_take ha)) hnow)
    (fun a ha => hjobs a (List.mem_of_mem_drop ha)) hs (fun _ h => absurd h List.not_mem_nil) hnow

end Bounded

/-- An activity that goes on at an instant does not sleep beyond the stop. -/
def KeepsTo (fires : Instant) (inv : σ → Prop) (a : Activity σ α) (now : Instant) : Prop :=
  a.Ensures (Ticking (some fires)) inv (fun _ _ => True) now

/-- However many turns are given, no turn is later than the stop or the start. -/
theorem runPool_endsAt {fires : Instant} {inv : σ → Prop} {fatal : α → Bool} {workers : Nat}
    {horizon now : Instant} {activities : List (Activity σ α)} {s : σ} (hs : inv s)
    (hjobs : ∀ a ∈ activities, ∀ t, KeepsTo fires inv a t) :
    now ≤ (runPool fatal workers horizon now activities s).endsAt ∧
      (runPool fatal workers horizon now activities s).endsAt ≤ max now fires := by
  have hpace : ∀ t wake, Ticking (some fires) t wake → wake ≤ max now fires :=
    fun _ _ h => Nat.le_trans h.2.1 (Nat.le_max_right now fires)
  have hends : (runPool fatal workers horizon now activities s).EndsBy (fun _ _ => True)
      (max now fires) now :=
    runPool_endsBy hpace hs (fun a ha t _ => hjobs a ha t) (Nat.le_max_left now fires)
  exact ⟨hends.later, hends.bounded⟩

end ChainAudit.Schedule
