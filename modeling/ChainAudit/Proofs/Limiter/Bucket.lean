import ChainAudit.Limiter.Bucket
import Mathlib.Algebra.Order.Field.Basic
import Mathlib.Algebra.Order.Ring.Rat
import Mathlib.Tactic.Linarith
import Mathlib.Tactic.Ring

/-!
# Buckets with exact tokens

On rational numbers a bucket is a function of time: it does not matter how often the count was
brought up to date on the way. The count stays between zero and the capacity, and each token that
is taken lowers it by nearly one at least.
-/

namespace ChainAudit.Limiter

open ChainAudit.Clock

/-- A span of nanoseconds in seconds. -/
def seconds (nanos : Nat) : Rat := nanos / 1000000000

theorem seconds_nonneg (nanos : Nat) : 0 ≤ seconds nanos := by
  exact div_nonneg (Nat.cast_nonneg nanos) (by norm_num)

theorem seconds_add (m n : Nat) : seconds (m + n) = seconds m + seconds n := by
  unfold seconds
  rw [Nat.cast_add, add_div]

theorem seconds_mono {m n : Nat} (h : m ≤ n) : seconds m ≤ seconds n := by
  have hmore : seconds n = seconds m + seconds (n - m) := by
    rw [← seconds_add, Nat.add_sub_of_le h]
  rw [hmore]
  exact le_add_of_nonneg_right (seconds_nonneg _)

namespace Bucket

variable {b b' : Bucket Rat} {t u : Instant}

theorem refill_tokens (b : Bucket Rat) (t : Instant) :
    (b.refill t).tokens = min (b.tokens + seconds (t - b.countedAt) * b.rate) b.capacity := by
  change (if b.capacity < b.tokens + seconds (t - b.countedAt) * b.rate then b.capacity
    else b.tokens + seconds (t - b.countedAt) * b.rate) = _
  split
  · rename_i hfull
    exact (min_eq_right (le_of_lt hfull)).symm
  · rename_i hroom
    exact (min_eq_left (le_of_not_gt hroom)).symm

theorem eq_of_fields (htokens : b.tokens = b'.tokens) (hcapacity : b.capacity = b'.capacity)
    (hrate : b.rate = b'.rate) (hcounted : b.countedAt = b'.countedAt) : b = b' := by
  cases b
  cases b'
  simp_all

theorem refill_same (b : Bucket Rat) (t : Instant) : (b.refill t).refill t = b.refill t := by
  refine eq_of_fields ?_ rfl rfl rfl
  have hnone : seconds (t - t) = 0 := by simp [seconds]
  rw [refill_tokens]
  change min ((b.refill t).tokens + seconds (t - t) * b.rate) b.capacity = _
  rw [hnone, zero_mul, add_zero, refill_tokens, min_assoc, min_self]

theorem refill_refill (hrate : 0 ≤ b.rate) (hcounted : b.countedAt ≤ t) (htu : t ≤ u) :
    (b.refill t).refill u = b.refill u := by
  refine eq_of_fields ?_ rfl rfl rfl
  have hgain : 0 ≤ seconds (u - t) * b.rate := mul_nonneg (seconds_nonneg _) hrate
  rw [refill_tokens]
  change min ((b.refill t).tokens + seconds (u - t) * b.rate) b.capacity = _
  have hspan : seconds (u - b.countedAt) = seconds (u - t) + seconds (t - b.countedAt) := by
    rw [← seconds_add, Nat.sub_add_sub_cancel htu hcounted]
  rw [refill_tokens, refill_tokens, hspan, ← min_add_add_right, min_assoc,
    min_eq_right (le_add_of_nonneg_right hgain)]
  congr 1
  ring

theorem take_congr (h : b.refill t = b'.refill t) : b.take t = b'.take t := by
  unfold take
  rw [h]

theorem take_refill (b : Bucket Rat) (t : Instant) : (b.refill t).take t = b.take t :=
  take_congr (refill_same b t)

theorem take_eq (b : Bucket Rat) (t : Instant) :
    b.take t =
      if 1 - 1 / 1000000000 ≤ (b.refill t).tokens then
        (.taken, { b.refill t with tokens :=
          if (b.refill t).tokens - 1 < 0 then 0 else (b.refill t).tokens - 1 })
      else if b.rate ≤ 0 then (.never, b.refill t)
      else
        match spanOfRat? ((1 - (b.refill t).tokens) / b.rate) with
        | some wait => (.short wait, b.refill t)
        | none => (.endless, b.refill t) := by
  -- With the count at hand the two sides differ in how the operations are written only.
  generalize hc : b.refill t = c
  have hrate : b.rate = c.rate := by
    rw [← hc]
    rfl
  unfold take
  rw [hc, hrate]
  simp only [Quantity.atMost, Quantity.nearlyOne, decide_eq_true_eq]
  rfl

/-- A request takes a token from a count of nearly one at least, or only brings the count up to
date. -/
theorem take_cases (b : Bucket Rat) (t : Instant) :
    ((b.take t).1 = .taken ∧ 1 - 1 / 1000000000 ≤ (b.refill t).tokens ∧
        (b.take t).2 = { b.refill t with tokens := max ((b.refill t).tokens - 1) 0 }) ∨
      ((b.take t).1 ≠ .taken ∧ (b.refill t).tokens < 1 - 1 / 1000000000 ∧
        (b.take t).2 = b.refill t) := by
  rw [take_eq]
  split
  · rename_i henough
    refine .inl ⟨rfl, henough, eq_of_fields ?_ rfl rfl rfl⟩
    dsimp only
    split
    · rename_i hneg
      exact (max_eq_right (le_of_lt hneg)).symm
    · rename_i hpos
      exact (max_eq_left (le_of_not_gt hpos)).symm
  · rename_i hshort
    refine .inr ?_
    have htokens := lt_of_not_ge hshort
    split
    · exact ⟨by simp, htokens, rfl⟩
    · split
      · exact ⟨by simp, htokens, rfl⟩
      · exact ⟨by simp, htokens, rfl⟩

theorem take_of_not_taken (h : (b.take t).1 ≠ .taken) : (b.take t).2 = b.refill t := by
  rcases take_cases b t with ⟨htaken, -⟩ | ⟨-, -, hnext⟩
  · exact absurd htaken h
  · exact hnext

/-- A request that takes nothing can be made again at once with the same outcome. -/
theorem take_again (h : (b.take t).1 ≠ .taken) : (b.take t).2.take t = b.take t := by
  rw [take_of_not_taken h]
  exact take_refill b t

theorem take_eq_refill (b : Bucket Rat) (t : Instant) :
    (b.take t).2 = { b.refill t with tokens := (b.take t).2.tokens } := by
  rcases take_cases b t with ⟨-, -, hnext⟩ | ⟨-, -, hnext⟩
  · rw [hnext]
  · rw [hnext]

theorem take_capacity (b : Bucket Rat) (t : Instant) : (b.take t).2.capacity = b.capacity := by
  rw [take_eq_refill]
  rfl

theorem take_rate (b : Bucket Rat) (t : Instant) : (b.take t).2.rate = b.rate := by
  rw [take_eq_refill]
  rfl

theorem take_countedAt (b : Bucket Rat) (t : Instant) : (b.take t).2.countedAt = t := by
  rw [take_eq_refill]
  rfl

end Bucket

end ChainAudit.Limiter
