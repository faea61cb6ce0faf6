import ChainAudit.Proofs.Decimal.Amounts
import ChainAudit.Proofs.Limiter.Timely

/-!
# Buckets with tokens in doubles

A bucket of doubles keeps its numbers in order whatever it gains: no operation of it yields no
number, and the count stays finite and not negative. Whole tokens are counted exactly as long as
nothing is gained in between, and no wait for a token is longer than that for a whole one.
-/

namespace ChainAudit.Limiter

open ChainAudit.Clock ChainAudit.Decimal

variable {x : Float} {p q r : Rat}

theorem spanOfFloat?_worth (h : Worth x q) : spanOfFloat? x = spanOfRat? q := by
  obtain ⟨negative, m, e, hx, hnegative, rfl⟩ := h.parts
  rw [spanOfRat?_eq (by positivity), spanOfFloat?, hx]
  dsimp only
  rw [if_neg (fun hlow => hlow.2 (hnegative hlow.1))]
  congr 1
  cases e with
  | ofNat n =>
    rw [← nearestWhole_div _ (show 0 < (powerParts 2 (.ofNat n)).2 from Nat.one_pos)]
    simp [powerParts]
  | negSucc n =>
    rw [← nearestWhole_div _ (show 0 < (powerParts 2 (.negSucc n)).2 by simp [powerParts])]
    simp [powerParts, zpow_negSucc]
    congr 1
    field_simp

theorem spanOfRat?_beyond (hq : 2 ^ (1024 : Int) ≤ q) : spanOfRat? q = none := by
  have hpow : (2 : Rat) ^ 63 ≤ 2 ^ (1024 : Int) := by
    rw [← zpow_natCast]
    exact zpow_le_zpow_right₀ (by norm_num) (by norm_num)
  have hlong : ((Nat.pow 2 63 * 1000000000 : Nat) : Rat) ≤ q * 1000000000 := by
    calc ((Nat.pow 2 63 * 1000000000 : Nat) : Rat) = 2 ^ 63 * 1000000000 := by norm_num
      _ ≤ q * 1000000000 := mul_le_mul_of_nonneg_right (hpow.trans hq) (by norm_num)
  have hwhole := nearestWhole_mono (Nat.cast_nonneg _) hlong
  rw [nearestWhole_natCast] at hwhole
  rw [spanOfRat?_eq (le_trans (by positivity) hq), spanOnClock?, if_neg (not_lt.mpr hwhole)]

theorem spanOfFloat?_rounds (h : Rounds x q) : spanOfFloat? x = spanOfRat? (rounded q) := by
  rcases lt_or_ge (rounded q) (2 ^ (1024 : Int)) with hlt | hge
  · exact spanOfFloat?_worth (h.worth hlt)
  · rw [spanOfRat?_beyond hge, spanOfFloat?, ofFloat_eq, h.beyond hge]
    rfl

theorem worth_count {n : Nat} (hn : n < 2 ^ 53) : Worth (Quantity.count n) n := by
  have h := rounds_toFloat n.toUInt64
  rw [UInt64.toNat_ofNat', Nat.mod_eq_of_lt (by omega)] at h
  exact h.worth_natCast hn

/-- What counts as a whole token is worth less than one. -/
theorem worth_nearlyOne : ∃ q, Worth (Quantity.nearlyOne : Float) q ∧ 0 < q ∧ q < 1 := by
  have h := worth_of_ofFloat (show Binary.ofFloat Quantity.nearlyOne =
    .finite false 9007199245733793 (-53) by decide +kernel)
  exact ⟨_, h, by norm_num, by norm_num⟩

theorem worth_floatOfSpan (s : Span) : ∃ q, Worth (floatOfSpan s) q := by
  obtain ⟨p, hp, hp0, hple⟩ := worth_toFloat s.seconds.toUInt64
  obtain ⟨q, hq, hq0, hqle⟩ := worth_toFloat s.subsecond.toUInt64
  have hpart : q / 1000000000 ≤ 2 ^ ((64 : Nat) : Int) :=
    (div_le_self hq0 (by norm_num)).trans hqle
  have hrest := (rounds_div hq worth_billion (by norm_num)).worth_of_le (by positivity) hpart
    (by decide)
  have hsum : p + rounded (q / 1000000000) ≤ 2 ^ ((65 : Nat) : Int) := by
    have hdouble : (2 : Rat) ^ (65 : Int) = 2 ^ (64 : Int) + 2 ^ (64 : Int) := by norm_num
    exact (add_le_add hple hrest.2).trans_eq hdouble.symm
  exact ⟨_, ((rounds_add hp hrest.1).worth_of_le
    (add_nonneg hp0 (rounded_nonneg _)) hsum (by decide)).1⟩

namespace Bucket

/-- A bucket of doubles that are in order. -/
structure Regular (r : Rat) (b : Bucket Float) : Prop where
  positive : 0 < r
  rate : Worth b.rate r
  capacity : ∃ c, Worth b.capacity c
  tokens : NotNegative b.tokens

variable {b : Bucket Float} {t : Instant}

theorem Regular.tokens_refill (h : b.Regular r) (t : Instant) :
    ∃ p, Worth (b.refill t).tokens p := by
  obtain ⟨c, hc⟩ := h.capacity
  obtain ⟨s, hs⟩ := worth_floatOfSpan ⟨t - b.countedAt⟩
  exact (h.tokens.add (rounds_mul hs h.rate).notNegative).lesserDouble hc

theorem Regular.refill (h : b.Regular r) (t : Instant) : (b.refill t).Regular r :=
  ⟨h.positive, h.rate, h.capacity, .inl (h.tokens_refill t)⟩

def spent (b : Bucket Float) : Bucket Float :=
  { b with tokens := greaterDouble (b.tokens - Quantity.count 1) (Quantity.count 0) }

theorem Regular.take_cases (h : b.Regular r) (t : Instant) {p : Rat}
    (hp : Worth (b.refill t).tokens p) :
    (0 < p ∧ b.take t = (.taken, (b.refill t).spent)) ∨
      (p < 1 ∧ b.take t =
        (match spanOfRat? (rounded (rounded (1 - p) / r)) with
          | some wait => .short wait
          | none => .endless, b.refill t)) := by
  obtain ⟨q, hq, hqpos, hqlt⟩ := worth_nearlyOne
  have hrate : ¬ (b.refill t).rate ≤ Quantity.count 0 := by
    rw [worth_le_iff (h.refill t).rate (worth_count (by decide)), Nat.cast_zero]
    exact not_le.mpr h.positive
  unfold take
  simp only [Quantity.atMost, decide_eq_true_eq, worth_le_iff hq hp, hrate, if_false]
  split
  · rename_i hle
    exact .inl ⟨hqpos.trans_le hle, rfl⟩
  · rename_i hless
    have hplt := (not_le.mp hless).trans hqlt
    refine .inr ⟨hplt, ?_⟩
    have hone : Worth (Quantity.count 1) 1 := by exact_mod_cast worth_count (n := 1) (by decide)
    have hp0 : 0 ≤ p := Stands.nonneg hp
    have hmissing := (rounds_sub hone hp hplt.le).worth_of_le (k := 0) (by linarith)
      (by norm_num [hp0]) (by decide)
    have hwait := spanOfFloat?_rounds (rounds_div hmissing.1 (h.refill t).rate h.positive)
    change (match spanOfFloat? ((Quantity.count 1 - (b.refill t).tokens) / (b.refill t).rate) with
      | some wait => (Taking.short wait, b.refill t)
      | none => (.endless, b.refill t)) = _
    rw [hwait]
    cases spanOfRat? (rounded (rounded (1 - p) / r)) <;> rfl

theorem Regular.spent (h : b.Regular r) : b.spent.Regular r := by
  have hzero : Worth (Quantity.count 0) 0 := by exact_mod_cast worth_count (n := 0) (by decide)
  exact ⟨h.positive, h.rate, h.capacity, notNegative_greaterDouble hzero⟩

theorem Regular.take (h : b.Regular r) (t : Instant) : (b.take t).2.Regular r := by
  obtain ⟨p, hp⟩ := h.tokens_refill t
  rcases h.take_cases t hp with ⟨-, htake⟩ | ⟨-, htake⟩
  · rw [htake]
    exact (h.refill t).spent
  · rw [htake]
    exact h.refill t

/-- The wait for the next token is no longer than that for a whole one. -/
theorem Regular.take_ne_endless (h : b.Regular r) (hwait : (spanOfRat? (rounded (1 / r))).isSome)
    (t : Instant) : (b.take t).1 ≠ .endless := by
  obtain ⟨p, hp⟩ := h.tokens_refill t
  rcases h.take_cases t hp with ⟨-, htake⟩ | ⟨hshort, htake⟩
  · rw [htake]
    simp
  · have hp0 : 0 ≤ p := Stands.nonneg hp
    have hone : rounded (1 - p) ≤ 1 :=
      (rounded_mono (sub_nonneg.mpr hshort.le) (sub_le_self 1 hp0)).trans_eq rounded_one
    have hless : rounded (rounded (1 - p) / r) ≤ rounded (1 / r) := by
      have hr := h.positive
      refine rounded_mono (div_nonneg (rounded_nonneg _) hr.le) ?_
      gcongr
    obtain ⟨wait, hsome⟩ :=
      Option.isSome_iff_exists.mp (spanOfRat?_mono (rounded_nonneg _) hless hwait)
    rw [htake, hsome]
    simp

/-- A bucket that holds whole tokens at an instant. -/
structure Holds (r : Rat) (t : Instant) (m : Nat) (b : Bucket Float) : Prop where
  regular : b.Regular r
  counted : b.countedAt = t
  whole : Worth b.tokens m
  room : ∃ c : Nat, m ≤ c ∧ c < 2 ^ 53 ∧ Worth b.capacity c

variable {m : Nat}

theorem holds_full {rate : Float} (hr : 0 < r) (hrate : Worth rate r) (hm : m < 2 ^ 53)
    (t : Instant) : (full m rate t).Holds r t m :=
  ⟨⟨hr, hrate, ⟨m, worth_count hm⟩, .inl ⟨m, worth_count hm⟩⟩, rfl, worth_count hm,
    m, le_refl m, hm, worth_count hm⟩

theorem Holds.refill (h : b.Holds r t m) : (b.refill t).Holds r t m := by
  obtain ⟨c, hmc, hc, hcapacity⟩ := h.room
  refine ⟨h.regular.refill t, rfl, ?_, c, hmc, hc, hcapacity⟩
  have hspan : Worth (floatOfSpan ⟨t - b.countedAt⟩) 0 := by
    rw [h.counted, Nat.sub_self]
    have hzero := worth_of_ofFloat
      (show Binary.ofFloat (floatOfSpan ⟨0⟩) = .finite false 0 (-1074) by decide +kernel)
    rwa [Nat.cast_zero, zero_mul] at hzero
  have hgained := rounds_mul hspan h.regular.rate
  rw [zero_mul, ← Nat.cast_zero] at hgained
  have hsum := rounds_add h.whole (hgained.worth_natCast (by decide))
  rw [Nat.cast_zero, add_zero] at hsum
  have hleast := worth_lesserDouble (hsum.worth_natCast (by omega)) hcapacity
  rwa [min_eq_left (by exact_mod_cast hmc)] at hleast

theorem Holds.take_succ (h : b.Holds r t (m + 1)) :
    (b.take t).1 = .taken ∧ (b.take t).2.Holds r t m := by
  have hrefill := h.refill
  obtain ⟨c, hmc, hc, hcapacity⟩ := h.room
  rcases h.regular.take_cases t hrefill.whole with ⟨-, htake⟩ | ⟨hshort, -⟩
  · rw [htake]
    refine ⟨rfl, hrefill.regular.spent, rfl, ?_, c, by omega, hc, hcapacity⟩
    have hone : Worth (Quantity.count 1) (1 : Nat) := worth_count (by decide)
    have hzero : Worth (Quantity.count 0) (0 : Nat) := worth_count (by decide)
    have hless := rounds_sub hrefill.whole hone (by exact_mod_cast Nat.le_add_left 1 m)
    rw [← Nat.cast_sub (Nat.le_add_left 1 m), Nat.add_sub_cancel] at hless
    have hmost := worth_greaterDouble (hless.worth_natCast (by omega)) hzero
    rwa [max_eq_left (by exact_mod_cast Nat.zero_le m)] at hmost
  · exact absurd hshort (not_lt.mpr (by exact_mod_cast Nat.le_add_left 1 m))

theorem Holds.take_zero (h : b.Holds r t 0) (hwait : ¬ (spanOfRat? (rounded (1 / r))).isSome) :
    (b.take t).1 = .endless := by
  rcases h.regular.take_cases t h.refill.whole with ⟨hpos, -⟩ | ⟨-, htake⟩
  · exact absurd hpos (by simp)
  · rw [Nat.cast_zero, sub_zero, rounded_one, Option.not_isSome_iff_eq_none.mp hwait] at htake
    rw [htake]

end Bucket

end ChainAudit.Limiter
