import ChainAudit.Proofs.Limiter.Callers
import ChainAudit.Proofs.Limiter.Doubles
import ChainAudit.Proofs.Limiter.Tally
import ChainAudit.Proofs.Schedule.Yields
import ChainAudit.Settings.Check

/-!
# Rates that are accepted

A rate is accepted if it is positive and finite. The limiter of such a rate answers every call, with
a token or because the next one is due too late, as long as the wait for a whole token is on the
clock; at a lower rate it comes to a call that it cannot answer as soon as its tokens are used up.
-/

namespace ChainAudit.Limiter

open ChainAudit.Clock ChainAudit.Decimal ChainAudit.Schedule

/-- Callers of any limiter that make their calls from an instant on. -/
def crowdOf [Quantity α] (since : Instant) (calls : κ → Call) (l : Limiter α) :
    Crowd κ (Limiter α) Result :=
  ⟨since, fun who => some (.since (calls who).start (acquire (calls who).deadline)), l⟩

/-- A token was granted, or none is due in time. -/
def Answered (r : Result) : Prop := r = .granted ∨ r = .tooLate

section Steps

variable [Quantity α] {inv : Limiter α → Prop}

theorem askUpTo_yields (hask : ∀ deadline now l, inv l → inv (l.ask deadline now).2 ∧
    (l.ask deadline now).1 ≠ .ends .lost) (deadline : Instant) (times : Nat) :
    (askUpTo deadline times : Activity (Limiter α) Result).Yields inv Answered := by
  induction times with
  | zero => exact .inr rfl
  | succ times ih =>
    have hreply : (Activity.access fun now (l : Limiter α) => l.ask deadline now).Yields inv
        fun reply => reply ≠ .ends .lost :=
      Activity.yields_access (hask deadline)
    refine Activity.yields_bind hreply ?_
    intro reply hreply
    cases reply with
    | ends r =>
      cases r with
      | granted => exact .inl rfl
      | tooLate => exact .inr rfl
      | lost => exact absurd rfl hreply
    | wait due => exact Activity.yields_bind (Activity.yields_sleepUntil due) fun _ _ => ih

theorem acquire_yields (hask : ∀ deadline now l, inv l → inv (l.ask deadline now).2 ∧
    (l.ask deadline now).1 ≠ .ends .lost) (deadline : Instant) :
    (acquire deadline : Activity (Limiter α) Result).Yields inv Answered :=
  Activity.yields_bind Activity.yields_clock fun _ _ => askUpTo_yields hask deadline _

end Steps

/-- The wait for a whole token is on the clock, if there is a limit at all. -/
def Rate.Timely : Rate → Prop
  | .unlimited => True
  | .perSecond rate _ => (spanOfFloat? (1.0 / rate)).isSome

instance : DecidablePred Rate.Timely
  | .unlimited => inferInstanceAs (Decidable True)
  | .perSecond rate _ => inferInstanceAs (Decidable ((spanOfFloat? (1.0 / rate)).isSome = true))

/-- What a limiter of doubles keeps. -/
def InOrder : Limiter Float → Prop
  | .unlimited => True
  | .bucket b => ∃ r, b.Regular r ∧ (spanOfRat? (rounded (1 / r))).isSome

theorem ask_inOrder (deadline now : Instant) (l : Limiter Float) (h : l.InOrder) :
    (l.ask deadline now).2.InOrder ∧ (l.ask deadline now).1 ≠ .ends .lost := by
  cases l with
  | unlimited => exact ⟨trivial, nofun⟩
  | bucket b =>
    obtain ⟨r, hregular, hwait⟩ := h
    rw [ask_bucket]
    refine ⟨⟨r, hregular.take now, hwait⟩, ?_⟩
    intro hlost
    exact absurd (reply_tooLate hlost nofun (hregular.take_ne_endless hwait now)) nofun

theorem InOrder.onClock {l : Limiter Float} (h : l.InOrder) : l.OnClock := by
  intro l' hreach deadline now
  have hinOrder : l'.InOrder := by
    induction hreach with
    | start => exact h
    | ask deadline now _ ih => exact (ask_inOrder deadline now _ ih).1
  exact (ask_inOrder deadline now l' hinOrder).2

open ChainAudit.Settings

theorem checkRate_perSecond {rate : Float} {burst : Nat}
    (h : checkRate (.perSecond rate burst) = .ok ()) :
    (∃ r, 0 < r ∧ Worth rate r) ∧ 0 < burst := by
  simp only [checkRate, notZero] at h
  split at h
  · cases h
  · rename_i hrate
    simp only [Bool.or_eq_true, Bool.not_eq_true', decide_eq_true_eq, not_or,
      Bool.not_eq_false] at hrate
    split at h
    · cases h
    · rename_i hburst
      exact ⟨worth_of_positive hrate.1 worth_zero hrate.2, Nat.pos_of_ne_zero hburst⟩

theorem bind_ok {α β ε : Type} {a : Except ε α} {f : α → Except ε β} {r : β}
    (h : a >>= f = .ok r) : ∃ x, a = .ok x ∧ f x = .ok r := by
  cases a with
  | error e => cases h
  | ok x => exact ⟨x, rfl, h⟩

theorem checkRate_of_check {s : Settings} (h : s.check = .ok ()) :
    checkRate s.store.rate = .ok () := by
  obtain ⟨_, -, h⟩ := bind_ok h
  obtain ⟨_, -, h⟩ := bind_ok h
  obtain ⟨_, -, h⟩ := bind_ok h
  obtain ⟨_, -, h⟩ := bind_ok h
  obtain ⟨_, -, h⟩ := bind_ok h
  obtain ⟨_, hrate, -⟩ := bind_ok h
  exact hrate

theorem timely_iff {rate : Float} {burst : Nat} {r : Rat} (hr : 0 < r) (hrate : Worth rate r) :
    (Rate.perSecond rate burst).Timely ↔ (spanOfRat? (rounded (1 / r))).isSome := by
  rw [Rate.Timely, spanOfFloat?_rounds (rounds_div worth_one hrate hr)]

theorem ofRate_inOrder {rate : Rate} (hcheck : checkRate rate = .ok ()) (htimely : rate.Timely)
    (since : Instant) : (ofRate since rate).InOrder := by
  cases rate with
  | unlimited => trivial
  | perSecond rate burst =>
    obtain ⟨⟨r, hr, hrate⟩, -⟩ := checkRate_perSecond hcheck
    obtain ⟨c, hc, -⟩ := worth_toFloat burst.toUInt64
    exact ⟨r, ⟨hr, hrate, ⟨c, hc⟩, .inl ⟨c, hc⟩⟩, (timely_iff hr hrate).mp htimely⟩

theorem ofRate_onClock {rate : Rate} (hcheck : checkRate rate = .ok ()) (htimely : rate.Timely)
    (since : Instant) : (ofRate since rate).OnClock :=
  (ofRate_inOrder hcheck htimely since).onClock

theorem crowdOf_yields {l : Limiter Float} (h : l.InOrder) (since : Instant) (calls : κ → Call) :
    (crowdOf since calls l).Yields InOrder Answered := by
  refine ⟨h, ?_⟩
  intro who x hx
  obtain rfl := Option.some.inj hx
  exact acquire_yields ask_inOrder _

/-- The turn of a caller that cannot wait is decided by what its request finds. -/
theorem turn?_of_call {t : Instant} {b : Bucket Float} {c : Crowd Nat (Limiter Float) Result}
    {who : Nat} (hnow : c.now = t) (hstate : c.state = .bucket b)
    (hwho : c.asleep who = some (.since t (acquire t))) :
    ∃ rest, c.turn? (.goesOn who none) =
      some ((((b.take t).1.reply t t).progress t rest).finish? who t,
        c.become who t (((b.take t).1.reply t t).progress t rest).resting?
          (.bucket (b.take t).2)) := by
  have hturn : c.turn? (.goesOn who none) = _ := Crowd.turn?_of_goesOn hwho hnow.le
  simp only [Resting.goesOnAt, Resting.since, hstate, advance_acquire, advance_askUpTo,
    ask_bucket] at hturn
  exact ⟨_, hturn⟩

theorem used_up {r : Rat} {t : Instant} {m : Nat} {b : Bucket Float} (h : b.Holds r t m)
    (hwait : ¬ (spanOfRat? (rounded (1 / r))).isSome) (first : Nat)
    {c : Crowd Nat (Limiter Float) Result} (hnow : c.now = t) (hstate : c.state = .bucket b)
    (hasleep : ∀ who, first ≤ who → c.asleep who = some (.since t (acquire t))) :
    ∃ turns log e, c.replay? turns = some (log, e) ∧
      ∃ f ∈ log, f.result = .lost := by
  obtain ⟨rest, hturn⟩ := turn?_of_call hnow hstate (hasleep first (Nat.le_refl first))
  -- a caller for each token that is left, from `first` on
  induction m generalizing b c first rest with
  | zero =>
    rw [h.take_zero hwait] at hturn
    exact ⟨[.goesOn first none], _, _, Crowd.replay?_cons_of hturn rfl,
      ⟨first, t, .lost⟩, List.mem_cons_self, rfl⟩
  | succ m ih =>
    obtain ⟨htaken, hnext⟩ := h.take_succ
    rw [htaken] at hturn
    have hothers : ∀ who, first + 1 ≤ who →
        (c.become first t none (.bucket (b.take t).2)).asleep who = some (.since t (acquire t)) := by
      intro who hwho
      rw [Crowd.become_asleep, if_neg (by omega)]
      exact hasleep who (by omega)
    obtain ⟨rest', hturn'⟩ := turn?_of_call rfl rfl (hothers (first + 1) (Nat.le_refl _))
    obtain ⟨turns, log, e, hrun, f, hf, hresult⟩ :=
      ih hnext (first + 1) rfl rfl hothers rest' hturn'
    exact ⟨.goesOn first none :: turns, _, e, Crowd.replay?_cons_of hturn hrun, f,
      List.mem_append_right _ hf, hresult⟩

end ChainAudit.Limiter

namespace ChainAudit.Settings

open ChainAudit.Clock ChainAudit.Limiter ChainAudit.Schedule ChainAudit.Text

theorem burst_of_rate {s : StoreSettings} {rate : Float} {burst : Nat}
    (h : s.rate = .perSecond rate burst) : burst = s.burst := by
  unfold StoreSettings.rate Rate.ofSetting at h
  split at h
  · cases h
  · exact (Rate.perSecond.inj h).2.symm

/-- For accepted settings every call for a token is answered, whoever calls before and with it, in
whatever order, and however late they go on or are dropped, exactly if the wait for a whole token
is on the clock. So is then a call that is made alone after all that. -/
theorem accepted_calls_answered_iff (s : Settings) (hcheck : s.check = .ok ())
    (hburst : s.store.burst < bound32) (since : Instant) :
    (∀ {κ : Type} [DecidableEq κ] (calls : κ → Call) (turns : List (Turn κ))
        (log : List (Finish κ Result)) (e : Crowd κ (Limiter Float) Result),
        (crowdOf since calls (.ofRate since s.store.rate)).replay? turns = some (log, e) →
          (∀ f ∈ log, Answered f.result) ∧
            ∀ deadline now, Answered ((acquire deadline).run now e.state).1) ↔
      s.store.rate.Timely := by
  have hrate := checkRate_of_check hcheck
  constructor
  · intro hall
    by_contra hlong
    cases hlimit : s.store.rate with
    | unlimited =>
      rw [hlimit] at hlong
      exact hlong trivial
    | perSecond rate burst =>
      rw [hlimit] at hrate hlong hall
      obtain ⟨⟨r, hr, hworth⟩, -⟩ := checkRate_perSecond hrate
      rw [timely_iff hr hworth] at hlong
      have hshort : burst < 2 ^ 53 := by
        rw [burst_of_rate hlimit]
        exact hburst.trans (by decide)
      obtain ⟨turns, log, e, hrun, f, hf, hresult⟩ :=
        used_up (Bucket.holds_full hr hworth hshort since) hlong 0
          (c := crowdOf since (fun _ => ⟨since, since⟩) (ofRate since (.perSecond rate burst)))
          rfl rfl (fun _ _ => rfl)
      rcases (hall _ turns log e hrun).1 f hf with hok | hlate
      · rw [hresult] at hok
        cases hok
      · rw [hresult] at hlate
        cases hlate
  · intro htimely κ _ calls turns log e hrun
    obtain ⟨hend, hlog⟩ :=
      (crowdOf_yields (ofRate_inOrder hrate htimely since) since calls).replay hrun
    exact ⟨hlog, fun deadline now =>
      Activity.run_yields (acquire_yields ask_inOrder deadline) now hend.state⟩

theorem standard_calls_answered :
    standard.check = .ok () ∧ standard.store.burst < bound32 ∧ standard.store.rate.Timely ∧
      ∀ (calls : Nat → Call) (turns : List (Turn Nat)) (log : List (Finish Nat Result))
        (e : Crowd Nat (Limiter Float) Result),
        (crowdOf 0 calls (.ofRate 0 standard.store.rate)).replay? turns = some (log, e) →
          (∀ f ∈ log, Answered f.result) ∧
            ∀ deadline now, Answered ((acquire deadline).run now e.state).1 := by
  have hcheck : standard.check = .ok () := by decide +kernel
  have hburst : standard.store.burst < bound32 := by decide
  have htimely : standard.store.rate.Timely := by decide +kernel
  exact ⟨hcheck, hburst, htimely,
    (accepted_calls_answered_iff standard hcheck hburst 0).mpr htimely⟩

/-- The standard settings at a rate so low that no clock can hold the wait for a token. -/
def glacial : Settings :=
  { standard with store := { StoreSettings.standard with perSecond := 1e-300, burst := 1 } }

/-- These settings are accepted, and the second of two calls is neither granted a token nor refused
for its deadline. -/
theorem accepted_second_call_unanswered :
    glacial.check = .ok () ∧
      ((crowdOf 0 (fun _ : Fin 2 => ⟨0, 1000000⟩) (.ofRate 0 glacial.store.rate)).replay?
        [.goesOn 0 none, .goesOn 1 none]).map (fun run => run.1.map Finish.result) =
          some [.granted, .lost] := by
  refine ⟨?_, ?_⟩
  · decide +kernel
  · decide +kernel

end ChainAudit.Settings
