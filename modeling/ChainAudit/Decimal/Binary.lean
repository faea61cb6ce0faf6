/-!
# Binary floating point numbers as exact quotients

A finite double is `m · 2^q` with whole numbers `m` and `q`. Here a double is taken apart into these
two, and a quotient of whole numbers is rounded to a whole number; every conversion of this library
between doubles and other numbers is exact arithmetic on them.
-/

namespace ChainAudit.Decimal

/-- What a double stands for. A finite one is `mantissa · 2^exponent`, with a sign. -/
inductive Binary where
  | nan
  | infinite (negative : Bool)
  | finite (negative : Bool) (mantissa : Nat) (exponent : Int)
  deriving DecidableEq, Repr, Inhabited

def Binary.ofFloat (x : Float) : Binary :=
  let bits := x.toBits.toNat
  let negative := bits / Nat.pow 2 63 == 1
  let biased : Nat := bits / Nat.pow 2 52 % 2048
  let fraction : Nat := bits % Nat.pow 2 52
  if biased = 2047 then
    if fraction = 0 then .infinite negative else .nan
  else if biased = 0 then .finite negative fraction (-1074)
  else .finite negative (Nat.pow 2 52 + fraction) ((biased : Int) - 1075)

/-- A power of two, or of ten, as a quotient: the numerator and the denominator of `b^e`. -/
def powerParts (b : Nat) (e : Int) : Nat × Nat :=
  match e with
  | .ofNat n => (Nat.pow b n, 1)
  | .negSucc n => (1, Nat.pow b (n + 1))

/-- The whole number nearest to `num / den`; of two at the same distance the even one. -/
def roundHalfEven (num den : Nat) : Nat :=
  let floor := num / den
  let rest := num % den
  if 2 * rest < den then floor
  else if den < 2 * rest then floor + 1
  else if floor % 2 = 0 then floor else floor + 1

/-- The lesser of two doubles; of a number and no number, the number. -/
def lesserDouble (x y : Float) : Float :=
  if x.isNaN then y else if y.isNaN then x else if y < x then y else x

/-- The greater of two doubles; of a number and no number, the number. -/
def greaterDouble (x y : Float) : Float :=
  if x.isNaN then y else if y.isNaN then x else if x < y then y else x

end ChainAudit.Decimal
