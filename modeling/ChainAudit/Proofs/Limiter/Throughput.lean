import ChainAudit.Proofs.Limiter.Bucket
import ChainAudit.Proofs.Limiter.Callers

/-!
# Throughput of a limiter

How many tokens are granted in a stretch of time is bounded by what the bucket holds at the start
and what it gains on the way, whoever calls when and whoever gives up. Each token that is granted
is paid for with nearly one from the count, and the count stays between zero and the capacity.
-/

namespace ChainAudit.Limiter

open ChainAudit.Clock ChainAudit.Schedule

/-- What a request takes from the count at least. -/
def Taking.price (found : Taking) : Rat := if found = .taken then 1 - 1 / 1000000000 else 0

theorem Taking.price_nonneg (found : Taking) : 0 ≤ found.price := by
  unfold price
  split
  · norm_num
  · exact le_refl 0

namespace Bucket

/-- The count is between zero and the capacity, and tokens are not lost with time. -/
structure Sound (b : Bucket Rat) : Prop where
  rate : 0 ≤ b.rate
  tokens : 0 ≤ b.tokens
  room : b.tokens ≤ b.capacity

theorem sound_full (burst : Nat) {rate : Rat} (hrate : 0 ≤ rate) (now : Instant) :
    (full burst rate now).Sound :=
  ⟨hrate, Nat.cast_nonneg burst, le_refl (burst : Rat)⟩

variable {b b' : Bucket Rat} {s t u : Instant}

theorem Sound.refill (h : b.Sound) (t : Instant) : (b.refill t).Sound := by
  have hgain : 0 ≤ seconds (t - b.countedAt) * b.rate := mul_nonneg (seconds_nonneg _) h.rate
  have htokens := refill_tokens b t
  refine ⟨h.rate, ?_, ?_⟩
  · rw [htokens]
    exact le_min (add_nonneg h.tokens hgain) (h.tokens.trans h.room)
  · rw [htokens]
    exact min_le_right _ _

theorem Sound.refill_countedAt (h : b.Sound) : (b.refill b.countedAt).tokens = b.tokens := by
  rw [refill_tokens, Nat.sub_self]
  simp [seconds, h.room]

theorem gain_le (k s t : Nat) : seconds (t - k) ≤ seconds (s - k) + seconds (t - s) := by
  rw [← seconds_add]
  exact seconds_mono (by omega)

theorem refill_gain (hrate : 0 ≤ b.rate) (s t : Instant) :
    (b.refill t).tokens ≤ (b.refill s).tokens + b.rate * seconds (t - s) := by
  have hgain : 0 ≤ b.rate * seconds (t - s) := mul_nonneg hrate (seconds_nonneg _)
  have hspan := mul_le_mul_of_nonneg_right (gain_le b.countedAt s t) hrate
  rw [refill_tokens, refill_tokens, ← min_add_add_right]
  refine min_le_min ?_ (le_add_of_nonneg_right hgain)
  linarith

theorem refill_mono (htokens : b.tokens ≤ b'.tokens) (hcapacity : b.capacity = b'.capacity)
    (hrate : b.rate = b'.rate) (hcounted : b.countedAt = b'.countedAt) (t : Instant) :
    (b.refill t).tokens ≤ (b'.refill t).tokens := by
  rw [refill_tokens, refill_tokens, hcapacity, hrate, hcounted]
  exact min_le_min (by linarith) (le_refl _)

theorem take_price (b : Bucket Rat) (t : Instant) :
    (b.take t).1.price + (b.take t).2.tokens ≤ (b.refill t).tokens := by
  rcases take_cases b t with ⟨hfound, henough, hnext⟩ | ⟨hfound, -, hnext⟩
  · rw [hnext, Taking.price, if_pos hfound]
    rcases max_cases ((b.refill t).tokens - 1) 0 with ⟨hmax, -⟩ | ⟨hmax, -⟩
    · dsimp only
      rw [hmax]
      linarith
    · dsimp only
      rw [hmax]
      linarith
  · rw [hnext, Taking.price, if_neg hfound, zero_add]

theorem Sound.take (h : b.Sound) (t : Instant) : (b.take t).2.Sound := by
  have hfull := h.refill t
  rcases take_cases b t with ⟨-, -, hnext⟩ | ⟨-, -, hnext⟩
  · rw [hnext]
    refine ⟨h.rate, le_max_right _ _, max_le ?_ (hfull.tokens.trans hfull.room)⟩
    exact (sub_le_self _ zero_le_one).trans hfull.room
  · rw [hnext]
    exact hfull

theorem take_refill_le (hrate : 0 ≤ b.rate) (hcounted : b.countedAt ≤ t) (htu : t ≤ u) :
    ((b.take t).2.refill u).tokens ≤ (b.refill u).tokens := by
  have hless : (b.take t).2.tokens ≤ (b.refill t).tokens := by
    linarith [take_price b t, (b.take t).1.price_nonneg]
  calc ((b.take t).2.refill u).tokens
      ≤ ((b.refill t).refill u).tokens :=
        refill_mono hless (take_capacity b t) (take_rate b t) (take_countedAt b t) u
    _ = (b.refill u).tokens := by rw [refill_refill hrate hcounted htu]

end Bucket

section Grants

variable {κ : Type} {s t : Instant}

/-- Who is granted a token in a stretch of time. -/
def grantedIn (s t : Instant) (g : Finish κ Result) : Bool :=
  g.result == .granted && decide (s ≤ g.instant ∧ g.instant ≤ t)

def grants (s t : Instant) (log : List (Finish κ Result)) : Nat :=
  log.countP (grantedIn s t)

theorem grants_outside {log : List (Finish κ Result)}
    (h : ∀ g ∈ log, g.instant < s ∨ t < g.instant) : grants s t log = 0 := by
  refine List.countP_eq_zero.mpr ?_
  intro g hg hcounts
  simp only [grantedIn, Bool.and_eq_true, decide_eq_true_eq] at hcounts
  rcases h g hg with hearly | hlate
  · exact Nat.not_le_of_lt hearly hcounts.2.1
  · exact Nat.not_le_of_lt hlate hcounts.2.2

theorem grants_from {u : Instant} {log : List (Finish κ Result)}
    (hsu : s ≤ u) (h : ∀ g ∈ log, u ≤ g.instant) : grants s t log = grants u t log := by
  refine List.countP_congr ?_
  intro g hg
  have hu := h g hg
  simp only [grantedIn, Bool.and_eq_true, decide_eq_true_eq, hu, hsu.trans hu, true_and]

theorem grants_append (f : Option (Finish κ Result))
    (rest : List (Finish κ Result)) :
    grants s t (f.toList ++ rest) = grants s t f.toList + grants s t rest :=
  List.countP_append

theorem grants_price {f : Option (Finish κ Result)} {found : Taking}
    (h : (∃ g, f = some g ∧ g.result = .granted) ↔ found = .taken) :
    (grants s t f.toList : Rat) * (1 - 1 / 1000000000) ≤ found.price := by
  have hprice := found.price_nonneg
  cases f with
  | none => simpa [grants] using hprice
  | some g =>
    by_cases hgranted : g.result = .granted
    · have hfound := h.mp ⟨g, rfl, hgranted⟩
      have hone : (grants s t [g] : Rat) ≤ 1 := by
        exact_mod_cast List.countP_le_length
      rw [Taking.price, if_pos hfound]
      exact mul_le_of_le_one_left (by norm_num) hone
    · have hnone : grants s t [g] = 0 := by
        refine List.countP_eq_zero.mpr ?_
        intro g' hg' hcounts
        obtain rfl := List.mem_singleton.mp hg'
        simp only [grantedIn, Bool.and_eq_true, beq_iff_eq] at hcounts
        exact hgranted hcounts.1
      rw [Option.toList_some, hnone]
      simpa using hprice

end Grants

section Runs

variable {κ : Type} [DecidableEq κ] {calls : κ → Call} {b : Bucket Rat}
variable {c e : Crowd κ (Limiter Rat) Result} {turns : List (Turn κ)}
variable {log : List (Finish κ Result)}

/-- In a stretch of time no more is granted than the bucket holds at its start and gains during
it. -/
theorem grants_le (hw : Waiting calls b c) (hb : b.Sound) (hcounted : b.countedAt ≤ c.now)
    (hrun : c.replay? turns = some (log, e)) {s t : Instant} (hst : s ≤ t) :
    (grants s t log : Rat) * (1 - 1 / 1000000000) ≤
      (b.refill s).tokens + b.rate * seconds (t - s) := by
  induction turns generalizing c b s log with
  | nil =>
    obtain ⟨rfl, -⟩ := Crowd.replay?_nil hrun
    have hgain := mul_nonneg hb.rate (seconds_nonneg (t - s))
    simpa [grants] using add_nonneg (hb.refill s).tokens hgain
  | cons turn turns ih =>
    obtain ⟨f, c', rest, hturn, hrest, rfl⟩ := Crowd.replay?_cons hrun
    obtain ⟨hnow, hfinish⟩ := Crowd.turn?_now hturn
    have hafter := (Crowd.replay?_now hrest).2
    rcases hw.turn hturn with ⟨hw', rfl⟩ | ⟨hw', hgranted⟩
    · exact ih hw' hb (hcounted.trans hnow) hrest hst
    · have hb' := hb.take c'.now
      have hcounted' : (b.take c'.now).2.countedAt ≤ c'.now := (Bucket.take_countedAt b _).le
      have hlog : ∀ g ∈ f.toList ++ rest, c'.now ≤ g.instant := by
        intro g hg
        rcases List.mem_append.mp hg with hg | hg
        · exact (hfinish g (Option.mem_toList.mp hg)).2.ge
        · exact hafter g hg
      -- The turn comes after the stretch of time, before it, or in it.
      rcases lt_or_ge t c'.now with hlate | hby
      · rw [grants_outside fun g hg => .inr (hlate.trans_le (hlog g hg)), Nat.cast_zero, zero_mul]
        exact add_nonneg (hb.refill s).tokens (mul_nonneg hb.rate (seconds_nonneg _))
      · rcases lt_or_ge c'.now s with hearly | hfrom
        · have hnone : grants s t f.toList = 0 := by
            refine grants_outside fun g hg => .inl ?_
            rw [(hfinish g (Option.mem_toList.mp hg)).2]
            exact hearly
          have hlater := ih hw' hb' hcounted' hrest hst
          have hless := Bucket.take_refill_le hb.rate (hcounted.trans hnow) hearly.le
          rw [Bucket.take_rate] at hlater
          rw [grants_append, hnone, zero_add]
          exact hlater.trans (add_le_add_left hless _)
        · have hprice := grants_price (s := s) (t := t) hgranted
          have hlater := ih hw' hb' hcounted' hrest hby
          have hcount := hb'.refill_countedAt
          rw [Bucket.take_countedAt] at hcount
          rw [Bucket.take_rate, hcount] at hlater
          have hspan : seconds (t - s) = seconds (t - c'.now) + seconds (c'.now - s) := by
            rw [← seconds_add, Nat.sub_add_sub_cancel hby hfrom]
          rw [grants_append, Nat.cast_add, add_mul, grants_from hfrom hafter]
          calc _ ≤ (b.take c'.now).1.price +
                ((b.take c'.now).2.tokens + b.rate * seconds (t - c'.now)) :=
                add_le_add hprice hlater
            _ ≤ (b.refill c'.now).tokens + b.rate * seconds (t - c'.now) := by
                linarith [Bucket.take_price b c'.now]
            _ ≤ (b.refill s).tokens + b.rate * seconds (t - s) := by
                rw [hspan, mul_add]
                linarith [Bucket.refill_gain hb.rate s c'.now]

theorem Waiting.sound (hw : Waiting calls b c) (hb : b.Sound)
    (hrun : c.replay? turns = some (log, e)) :
    ∃ b', Waiting calls b' e ∧ b'.Sound ∧ b'.capacity = b.capacity := by
  refine Crowd.replay?_keeps
    (fun c => ∃ b', Waiting calls b' c ∧ b'.Sound ∧ b'.capacity = b.capacity) ?_
    ⟨b, hw, hb, rfl⟩ hrun
  rintro c t f c' ⟨b', hw', hb', hcapacity⟩ hturn
  rcases hw'.turn hturn with ⟨hnext, -⟩ | ⟨hnext, -⟩
  · exact ⟨b', hnext, hb', hcapacity⟩
  · exact ⟨_, hnext, hb'.take c'.now, (Bucket.take_capacity b' _).trans hcapacity⟩

/-- However many call whenever they like, and whoever gives up or is dropped while it waits: in no
stretch of time more tokens are granted than the burst and what the rate adds, but for the part by
which a token may be short. The count never leaves its bounds. -/
theorem grants_within_rate (rate : Rat) (hrate : 0 < rate) (burst : Nat) (since : Instant)
    (calls : κ → Call) (turns : List (Turn κ)) (log : List (Finish κ Result))
    (e : Crowd κ (Limiter Rat) Result)
    (hrun : (callers since calls (.full burst rate since)).replay? turns = some (log, e)) :
    (∀ s t, s ≤ t →
      (grants s t log : Rat) * (1 - 1 / 1000000000) ≤ burst + rate * seconds (t - s)) ∧
    ∃ b, e.state = .bucket b ∧ (0 ≤ b.tokens ∧ b.tokens ≤ burst) ∧
      ∀ t, 0 ≤ (b.refill t).tokens ∧ (b.refill t).tokens ≤ burst := by
  have hw := waiting_callers since calls (.full burst rate since)
  have hb := Bucket.sound_full burst hrate.le since
  refine ⟨?_, ?_⟩
  · intro s t hst
    have hstart : ((Bucket.full burst rate since).refill s).tokens ≤ burst := (hb.refill s).room
    exact (grants_le hw hb (Nat.le_refl since) hrun hst).trans (add_le_add_left hstart _)
  · obtain ⟨b, hwaiting, hsound, hcapacity⟩ := hw.sound hb hrun
    have hburst : b.capacity = burst := hcapacity
    have hbounds : ∀ b' : Bucket Rat, b'.Sound → b'.capacity = burst →
        0 ≤ b'.tokens ∧ b'.tokens ≤ burst :=
      fun b' hb' hcap => ⟨hb'.tokens, hb'.room.trans_eq hcap⟩
    exact ⟨b, hwaiting.state, hbounds b hsound hburst,
      fun t => hbounds _ (hsound.refill t) hburst⟩

/-- Two tokens within a second from a bucket of one that gains one in a second. -/
theorem two_within_a_second :
    ∃ log e,
      (callers 0 (fun _ : Bool => ⟨0, 2000000000⟩) (.full 1 (1 : Rat) 0)).replay?
        [.goesOn true none, .goesOn false none, .goesOn false none] = some (log, e) ∧
      grants 0 1000000000 log = 2 ∧
      (grants 0 1000000000 log : Rat) * (1 - 1 / 1000000000) ≤
        (1 : Nat) + 1 * seconds (1000000000 - 0) := by
  have hlog : ((callers 0 (fun _ : Bool => ⟨0, 2000000000⟩) (.full 1 (1 : Rat) 0)).replay?
      [.goesOn true none, .goesOn false none, .goesOn false none]).map
        (fun r => grants 0 1000000000 r.1) = some 2 := by
    decide +kernel
  obtain ⟨⟨log, e⟩, hrun, htwo⟩ := Option.map_eq_some_iff.mp hlog
  exact ⟨log, e, hrun, htwo,
    (grants_within_rate 1 (by norm_num) 1 0 _ _ log e hrun).1 0 1000000000 (by norm_num)⟩

end Runs

end ChainAudit.Limiter
