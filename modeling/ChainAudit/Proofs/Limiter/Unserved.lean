import ChainAudit.Proofs.Limiter.Bucket
import ChainAudit.Proofs.Limiter.Callers

/-!
# Callers that are not served

A caller that fails or is dropped has brought the count up to date at most, and that is nothing to
the others. So a run without it goes the same way for them.
-/

namespace ChainAudit.Limiter

open ChainAudit.Clock ChainAudit.Schedule

variable {κ : Type} [DecidableEq κ] {gone : κ → Prop} {calls : κ → Call} {b b' : Bucket Rat}
variable {c c' d e : Crowd κ (Limiter Rat) Result}
variable {t : Turn κ} {turns : List (Turn κ)}
variable {f : Option (Finish κ Result)}
variable {log : List (Finish κ Result)}

/-- A crowd and another one that lacks some of its waiters and is no later. From now on there is the
same to be had from both buckets. -/
structure Alike (gone : κ → Prop) (calls : κ → Call) (b b' : Bucket Rat)
    (c d : Crowd κ (Limiter Rat) Result) : Prop where
  waiting : Waiting calls b c
  state : d.state = .bucket b'
  now : d.now ≤ c.now
  asleep : ∀ who, ¬ gone who → d.asleep who = c.asleep who
  rate : 0 ≤ b.rate
  counted : b.countedAt ≤ c.now
  same : ∀ t, c.now ≤ t → b.refill t = b'.refill t

theorem Alike.hidden (h : Alike gone calls b b' c d) (hturn : c.turn? t = some (f, c'))
    (hwho : gone t.who) (hf : ∀ g, f = some g → g.result ≠ .granted) :
    ∃ next, Alike gone calls next b' c' d := by
  have hnow := (Crowd.turn?_now hturn).1
  have hasleep : ∀ who, ¬ gone who → d.asleep who = c'.asleep who := by
    intro who hthere
    have hother : who ≠ t.who := fun heq => hthere (heq ▸ hwho)
    rw [Crowd.turn?_asleep hturn hother]
    exact h.asleep who hthere
  rcases h.waiting.turn hturn with ⟨hwaiting, -⟩ | ⟨hwaiting, hgranted⟩
  · exact ⟨b, hwaiting, h.state, h.now.trans hnow, hasleep, h.rate, h.counted.trans hnow,
      fun u hu => h.same u (hnow.trans hu)⟩
  · have hnone : (b.take c'.now).1 ≠ .taken := by
      intro htaken
      obtain ⟨g, hg, hok⟩ := hgranted.mpr htaken
      exact hf g hg hok
    -- The bucket has been brought up to date at most, and a later count makes up for that.
    rw [Bucket.take_of_not_taken hnone] at hwaiting
    refine ⟨_, hwaiting, h.state, h.now.trans hnow, hasleep, h.rate, Nat.le_refl _, ?_⟩
    intro u hu
    rw [Bucket.refill_refill h.rate (h.counted.trans hnow) hu]
    exact h.same u (hnow.trans hu)

theorem Alike.shared (h : Alike gone calls b b' c d) (hturn : c.turn? t = some (f, c'))
    (hwho : ¬ gone t.who) :
    ∃ next next' d', d.turn? t = some (f, d') ∧ Alike gone calls next next' c' d' := by
  cases t with
  | drops who instant =>
    obtain ⟨hnow, rfl, rfl, hasleep, hwaiting⟩ := h.waiting.drops hturn
    have hthere : (d.asleep who).isSome := by
      rw [h.asleep who hwho]
      exact (Crowd.turn?_drops hturn).2.2.1
    refine ⟨b, b', _, Crowd.turn?_of_drops hthere (h.now.trans hnow), hwaiting, h.state,
      Nat.le_refl _, ?_, h.rate, h.counted.trans hnow, fun u hu => h.same u (hnow.trans hu)⟩
    intro other hother
    rw [hasleep, Crowd.become_asleep, Function.update_apply, h.asleep other hother]
  | goesOn who late =>
    obtain ⟨x, rest, hx, hnow, hinstant, hadvance, rfl, hasleep, hwaiting⟩ :=
      h.waiting.goesOn hturn
    have hthere : d.asleep who = some x := (h.asleep who hwho).trans hx
    have htake : b.take c'.now = b'.take c'.now := Bucket.take_congr (h.same _ hnow)
    have hturn' := Crowd.turn?_of_goesOn hthere (hinstant ▸ h.now.trans hnow)
    rw [← hinstant, h.state, hadvance b', ← htake] at hturn'
    dsimp only at hturn'
    refine ⟨_, _, _, hturn', hwaiting, rfl, Nat.le_refl _, ?_, ?_, ?_, fun _ _ => rfl⟩
    · intro other hother
      rw [hasleep, Crowd.become_asleep, Function.update_apply, h.asleep other hother]
    · rw [Bucket.take_rate]
      exact h.rate
    · rw [Bucket.take_countedAt]

/-- Who is lacking is left out of the log too, and the rest of it is the same. -/
theorem Alike.replay [DecidablePred gone] (h : Alike gone calls b b' c d)
    (hrun : c.replay? turns = some (log, e)) (hgone : ∀ g ∈ log, gone g.who → g.result ≠ .granted) :
    ∃ next next' e',
      d.replay? (turns.filter fun t => ¬ gone t.who) =
        some (log.filter fun g => ¬ gone g.who, e') ∧
      Alike gone calls next next' e e' := by
  induction turns generalizing b b' c d log with
  | nil =>
    obtain ⟨rfl, rfl⟩ := Crowd.replay?_nil hrun
    exact ⟨b, b', d, rfl, h⟩
  | cons t turns ih =>
    obtain ⟨f, c', rest, hturn, hrest, rfl⟩ := Crowd.replay?_cons hrun
    have hfinish := (Crowd.turn?_now hturn).2
    have hrestgone : ∀ g ∈ rest, gone g.who → g.result ≠ .granted :=
      fun g hg => hgone g (List.mem_append_right _ hg)
    by_cases hwho : gone t.who
    · obtain ⟨next, halike⟩ := h.hidden hturn hwho fun g hg =>
        hgone g (List.mem_append_left _ (Option.mem_toList.mpr hg))
          ((hfinish g hg).1 ▸ hwho)
      have hlog : (f.toList.filter fun g => ¬ gone g.who) = [] := by
        refine List.filter_eq_nil_iff.mpr ?_
        intro g hg
        simp [(hfinish g (Option.mem_toList.mp hg)).1, hwho]
      rw [List.filter_cons_of_neg (by simpa using hwho), List.filter_append, hlog]
      exact ih halike hrest hrestgone
    · obtain ⟨next, next', d', hturn', halike⟩ := h.shared hturn hwho
      obtain ⟨last, last', e', hrest', hend⟩ := ih halike hrest hrestgone
      have hlog : (f.toList.filter fun g => ¬ gone g.who) = f.toList := by
        refine List.filter_eq_self.mpr ?_
        intro g hg
        simp [(hfinish g (Option.mem_toList.mp hg)).1, hwho]
      rw [List.filter_cons_of_pos (by simpa using hwho), List.filter_append, hlog]
      exact ⟨last, last', e', Crowd.replay?_cons_of hturn' hrest', hend⟩

omit [DecidableEq κ] in
theorem alike_without [DecidablePred gone] (hrate : 0 ≤ b.rate) (calls : κ → Call) :
    Alike gone calls b b (callers b.countedAt calls b)
      ((callers b.countedAt calls b).without gone) := by
  refine ⟨waiting_callers _ calls b, rfl, Nat.le_refl _, ?_, hrate, Nat.le_refl _, fun _ _ => rfl⟩
  intro who hthere
  exact if_neg hthere

/-- Callers that get no token make no difference. Whether they fail, are dropped while they wait,
or wait still: without them the others take their turns at the same instants, and each has the same
result at the same instant. -/
theorem unserved_invisible (b : Bucket Rat) (hrate : 0 ≤ b.rate) (calls : κ → Call)
    (gone : κ → Prop) [DecidablePred gone] (turns : List (Turn κ))
    (log : List (Finish κ Result))
    (e : Crowd κ (Limiter Rat) Result)
    (hrun : (callers b.countedAt calls b).replay? turns = some (log, e))
    (hgone : ∀ g ∈ log, gone g.who → g.result ≠ .granted) :
    ∃ e',
      ((callers b.countedAt calls b).without gone).replay? (turns.filter fun t => ¬ gone t.who) =
        some (log.filter fun g => ¬ gone g.who, e') ∧
      ∀ who, ¬ gone who → e'.asleep who = e.asleep who := by
  obtain ⟨_, _, e', hrun', halike⟩ := (alike_without hrate calls).replay hrun hgone
  exact ⟨e', hrun', halike.asleep⟩

/-- Of four callers one is dropped and one fails, and without them the first token is granted at
once and the second a second later too. -/
theorem two_of_four_invisible :
    ∃ log e,
      (callers 0 (fun _ : Fin 4 => ⟨0, 1500000000⟩) (.full 1 (1 : Rat) 0)).replay?
        [.goesOn 0 none, .goesOn 1 none, .goesOn 2 none, .goesOn 3 none, .drops 3 500000000,
          .goesOn 2 none, .goesOn 1 none] = some (log, e) ∧
      log = [⟨0, 0, .granted⟩, ⟨2, 1000000000, .granted⟩, ⟨1, 1000000000, .tooLate⟩] ∧
      ∃ e',
        ((callers 0 (fun _ : Fin 4 => ⟨0, 1500000000⟩) (.full 1 (1 : Rat) 0)).without
          fun who => who = 1 ∨ who = 3).replay?
            [.goesOn 0 none, .goesOn 2 none, .goesOn 2 none] =
          some ([⟨0, 0, .granted⟩, ⟨2, 1000000000, .granted⟩], e') ∧
        ∀ who, ¬ (who = 1 ∨ who = 3) → e'.asleep who = e.asleep who := by
  have hlog : ((callers 0 (fun _ : Fin 4 => ⟨0, 1500000000⟩) (.full 1 (1 : Rat) 0)).replay?
      [.goesOn 0 none, .goesOn 1 none, .goesOn 2 none, .goesOn 3 none, .drops 3 500000000,
        .goesOn 2 none, .goesOn 1 none]).map Prod.fst =
      some [⟨0, 0, .granted⟩, ⟨2, 1000000000, .granted⟩, ⟨1, 1000000000, .tooLate⟩] := by
    decide +kernel
  obtain ⟨⟨log, e⟩, hrun, rfl⟩ := Option.map_eq_some_iff.mp hlog
  exact ⟨_, e, hrun, rfl,
    unserved_invisible (.full 1 1 0) (by decide +kernel) _ (fun who => who = 1 ∨ who = 3) _ _ e
      hrun (by decide +kernel)⟩

end ChainAudit.Limiter
