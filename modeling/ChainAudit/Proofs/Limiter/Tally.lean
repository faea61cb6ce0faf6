import ChainAudit.Proofs.Limiter.OnClock
import ChainAudit.Proofs.Schedule.Erasure

/-!
# Tallies of tokens

The count of a bucket does not show how many tokens were ever taken from it. If it is kept in
quantities that tally the amounts taken from them, the bucket does the same as before, and each
token taken is one more in its tally.
-/

namespace ChainAudit.Limiter

open ChainAudit.Clock ChainAudit.Schedule

/-- A quantity and how often something was taken from it. -/
structure Tallied (α : Type) where
  amount : α
  taken : Nat

instance [Quantity α] : Quantity (Tallied α) where
  add x y := ⟨x.amount + y.amount, x.taken⟩
  sub x y := ⟨x.amount - y.amount, x.taken + 1⟩
  mul x y := ⟨x.amount * y.amount, x.taken⟩
  div x y := ⟨x.amount / y.amount, x.taken⟩
  count n := ⟨Quantity.count n, 0⟩
  ofSpan s := ⟨Quantity.ofSpan s, 0⟩
  toSpan? x := Quantity.toSpan? x.amount
  atMost x y := Quantity.atMost x.amount y.amount
  lesser x y := ⟨Quantity.lesser x.amount y.amount, x.taken⟩
  greater x y := ⟨Quantity.greater x.amount y.amount, x.taken⟩
  nearlyOne := ⟨Quantity.nearlyOne, 0⟩

namespace Bucket

/-- The bucket without its tally. -/
def amounts (b : Bucket (Tallied α)) : Bucket α :=
  ⟨b.tokens.amount, b.capacity.amount, b.rate.amount, b.countedAt⟩

def tallied (b : Bucket α) : Bucket (Tallied α) :=
  ⟨⟨b.tokens, 0⟩, ⟨b.capacity, 0⟩, ⟨b.rate, 0⟩, b.countedAt⟩

variable [Quantity α]

theorem take_amounts (b : Bucket (Tallied α)) (now : Instant) :
    (b.take now).1 = (b.amounts.take now).1 ∧
      (b.take now).2.amounts = (b.amounts.take now).2 := by
  have hfull : Quantity.atMost Quantity.nearlyOne (b.refill now).tokens =
      Quantity.atMost Quantity.nearlyOne (b.amounts.refill now).tokens := rfl
  have hrate : Quantity.atMost (b.refill now).rate (Quantity.count 0) =
      Quantity.atMost (b.amounts.refill now).rate (Quantity.count 0) := rfl
  have hwait : Quantity.toSpan?
        ((Quantity.count 1 - (b.refill now).tokens) / (b.refill now).rate) =
      Quantity.toSpan?
        ((Quantity.count 1 - (b.amounts.refill now).tokens) / (b.amounts.refill now).rate) := rfl
  unfold take
  dsimp only
  rw [hfull, hrate, hwait]
  split
  · exact ⟨rfl, rfl⟩
  · split
    · exact ⟨rfl, rfl⟩
    · split
      · exact ⟨rfl, rfl⟩
      · exact ⟨rfl, rfl⟩

theorem take_taken (b : Bucket (Tallied α)) (now : Instant) :
    (b.take now).2.tokens.taken =
      if (b.take now).1 = .taken then b.tokens.taken + 1 else b.tokens.taken := by
  unfold take
  dsimp only
  split
  · rfl
  · split
    · rfl
    · split
      · rfl
      · rfl

end Bucket

def amounts : Limiter (Tallied α) → Limiter α
  | .unlimited => .unlimited
  | .bucket b => .bucket b.amounts

def tallied : Limiter α → Limiter (Tallied α)
  | .unlimited => .unlimited
  | .bucket b => .bucket b.tallied

@[simp]
theorem amounts_tallied (l : Limiter α) : l.tallied.amounts = l := by
  cases l with
  | unlimited => rfl
  | bucket b => rfl

/-- How many tokens were taken from a limiter. -/
def tally : Limiter (Tallied α) → Nat
  | .unlimited => 0
  | .bucket b => b.tokens.taken

/-- How many tokens a grant costs. -/
def price : Limiter α → Nat
  | .unlimited => 0
  | .bucket _ => 1

theorem price_amounts (l : Limiter (Tallied α)) : l.amounts.price = l.price := by
  cases l with
  | unlimited => rfl
  | bucket b => rfl

variable [Quantity α]

variable {l l' : Limiter α} {deadline now : Instant}

theorem Reaches.price (h : l.Reaches l') : l'.price = l.price := by
  induction h with
  | start => rfl
  | @ask l' deadline now _ ih =>
    rw [← ih]
    cases l' with
    | unlimited => rfl
    | bucket b => rfl

theorem ask_amounts (deadline now : Instant) (l : Limiter (Tallied α)) :
    (l.ask deadline now).1 = (l.amounts.ask deadline now).1 ∧
      (l.ask deadline now).2.amounts = (l.amounts.ask deadline now).2 := by
  cases l with
  | unlimited => exact ⟨rfl, rfl⟩
  | bucket b =>
    obtain ⟨hfound, hnext⟩ := b.take_amounts now
    have hamounts : (bucket b).amounts.ask deadline now =
        ((b.amounts.take now).1.reply deadline now, .bucket (b.amounts.take now).2) :=
      ask_bucket deadline now b.amounts
    rw [hamounts, ask_bucket, ← hfound, ← hnext]
    exact ⟨rfl, rfl⟩

theorem Reaches.amounts {l l' : Limiter (Tallied α)} (h : l.Reaches l') :
    l.amounts.Reaches l'.amounts := by
  induction h with
  | start => exact .start
  | ask deadline now _ ih =>
    rw [(ask_amounts deadline now _).2]
    exact ih.ask deadline now

theorem ask_tally (deadline now : Instant) (l : Limiter (Tallied α)) :
    (l.ask deadline now).2.tally =
      if (l.ask deadline now).1 = .ends .granted then l.tally + l.price else l.tally := by
  cases l with
  | unlimited => rfl
  | bucket b =>
    rw [ask_bucket]
    by_cases htaken : (b.take now).1 = .taken
    · rw [if_pos ((reply_granted deadline now _).mpr htaken)]
      exact (b.take_taken now).trans (if_pos htaken)
    · rw [if_neg fun h => htaken ((reply_granted deadline now _).mp h)]
      exact (b.take_taken now).trans (if_neg htaken)

section Erasing

open Activity

theorem askUpTo_amounts (deadline : Instant) (times : Nat) :
    (askUpTo deadline times : Activity (Limiter (Tallied α)) _).Mirrors amounts id
      (askUpTo deadline times) := by
  induction times with
  | zero => exact .done _
  | succ times ih =>
    have hask : (access fun now (l : Limiter (Tallied α)) => l.ask deadline now).Mirrors amounts id
        (access fun now l => l.ask deadline now) :=
      mirrors_access (fun now l => (ask_amounts deadline now l).1)
        fun now l => (ask_amounts deadline now l).2
    refine mirrors_bind hask fun reply => ?_
    cases reply with
    | ends r => exact mirrors_pure _
    | wait due => exact mirrors_bind (mirrors_sleepUntil due) fun _ => ih

theorem acquire_amounts (deadline : Instant) :
    (acquire deadline : Activity (Limiter (Tallied α)) _).Mirrors amounts id (acquire deadline) :=
  mirrors_bind mirrors_clock fun _ => askUpTo_amounts deadline _

end Erasing

end ChainAudit.Limiter
