import ChainAudit.Proofs.Decimal.Rounding
import ChainAudit.Proofs.Limiter.Bucket

/-!
# Waits that the clock can hold

The longer a wait is in seconds, the longer its span is, so a bucket whose wait for a whole token
is on the clock never asks for one that is not.
-/

namespace ChainAudit.Limiter

open ChainAudit.Clock ChainAudit.Decimal

theorem spanOfRat?_eq {x : Rat} (hx : 0 ≤ x) :
    spanOfRat? x = spanOnClock? (nearestWhole (x * 1000000000)) := by
  have hnum := Int.toNat_of_nonneg (Rat.num_nonneg.mpr hx)
  have hfraction : x * 1000000000 = ((x.num.toNat * 1000000000 : Nat) : Rat) / x.den := by
    have hvalue : (x.num.toNat : Rat) / x.den = x := by
      rw [← Int.cast_natCast, hnum, Rat.num_div_den]
    push_cast
    rw [mul_div_right_comm, hvalue]
  rw [spanOfRat?, if_neg (not_lt.mpr hx), hfraction, nearestWhole_div _ x.pos]

theorem spanOnClock?_mono {m n : Nat} (hmn : m ≤ n) (h : (spanOnClock? n).isSome) :
    (spanOnClock? m).isSome := by
  unfold spanOnClock? at h ⊢
  split at h
  · rename_i hshort
    rw [if_pos (hmn.trans_lt hshort)]
    rfl
  · cases h

theorem spanOfRat?_mono {x y : Rat} (hx : 0 ≤ x) (hxy : x ≤ y) (h : (spanOfRat? y).isSome) :
    (spanOfRat? x).isSome := by
  rw [spanOfRat?_eq (hx.trans hxy)] at h
  rw [spanOfRat?_eq hx]
  refine spanOnClock?_mono (nearestWhole_mono (by positivity) ?_) h
  gcongr

namespace Bucket

/-- The wait for a whole token is on the clock, if any is due at all. -/
def Timely (b : Bucket Rat) : Prop :=
  b.rate ≤ 0 ∨ 0 ≤ b.tokens ∧ 0 ≤ b.capacity ∧ (spanOfRat? (1 / b.rate)).isSome

variable {b : Bucket Rat}

theorem Timely.refill (h : b.Timely) (t : Instant) : (b.refill t).Timely := by
  rcases h with hrate | ⟨htokens, hcapacity, hwait⟩
  · exact .inl hrate
  · rcases le_or_gt b.rate 0 with hrate | hrate
    · exact .inl hrate
    · refine .inr ⟨?_, hcapacity, hwait⟩
      rw [refill_tokens]
      exact le_min (add_nonneg htokens (mul_nonneg (seconds_nonneg _) hrate.le)) hcapacity

theorem Timely.take (h : b.Timely) (t : Instant) : (b.take t).2.Timely := by
  rcases take_cases b t with ⟨-, -, hnext⟩ | ⟨-, -, hnext⟩
  · rw [hnext]
    rcases h.refill t with hrate | ⟨-, hcapacity, hwait⟩
    · exact .inl hrate
    · exact .inr ⟨le_max_right _ _, hcapacity, hwait⟩
  · rw [hnext]
    exact h.refill t

theorem Timely.take_ne_endless (h : b.Timely) (t : Instant) : (b.take t).1 ≠ .endless := by
  rw [take_eq]
  split
  · simp
  · split
    · simp
    · rename_i hshort hrate
      rcases h.refill t with hnone | ⟨htokens, -, hwait⟩
      · exact absurd hnone hrate
      · have hpos : 0 < b.rate := not_le.mp hrate
        have hless : (b.refill t).tokens ≤ 1 := by linarith
        have hsome : (spanOfRat? ((1 - (b.refill t).tokens) / b.rate)).isSome := by
          refine spanOfRat?_mono (div_nonneg (by linarith) hpos.le) ?_ hwait
          exact div_le_div_of_nonneg_right (by linarith) hpos.le
        obtain ⟨wait, hwait⟩ := Option.isSome_iff_exists.mp hsome
        rw [hwait]
        simp

end Bucket

end ChainAudit.Limiter
