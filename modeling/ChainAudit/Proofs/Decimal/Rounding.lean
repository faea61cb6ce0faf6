import ChainAudit.Decimal.Binary
import Mathlib.Algebra.Order.Field.Power
import Mathlib.Data.Int.Log
import Mathlib.Data.Rat.Cast.Order
import Mathlib.Data.Rat.Floor
import Mathlib.Tactic.FieldSimp
import Mathlib.Tactic.Linarith
import Mathlib.Tactic.NormNum
import Mathlib.Tactic.Positivity
import Mathlib.Tactic.Ring

/-!
# Rounding to doubles

Doubles have whole numbers below `2^53` as mantissas and no exponent below `-1074`. So the place of
the last binary digit of a double is decided by the first binary digit of the number it stands for,
and rounding to the nearest double is rounding to whole units of that place. Rounding is monotone,
and it leaves alone what a double can hold.
-/

namespace ChainAudit.Decimal

theorem roundHalfEven_bounds (m d : Nat) :
    m / d ≤ roundHalfEven m d ∧ roundHalfEven m d ≤ m / d + 1 := by
  unfold roundHalfEven
  dsimp only
  split
  · omega
  · split
    · omega
    · split <;> omega

theorem roundHalfEven_mono {m d m' d' : Nat} (hd : 0 < d) (hd' : 0 < d') (h : m * d' ≤ m' * d) :
    roundHalfEven m d ≤ roundHalfEven m' d' := by
  have hfloor : m / d ≤ m' / d' := by
    rw [Nat.le_div_iff_mul_le hd']
    refine Nat.le_of_mul_le_mul_right ?_ hd
    calc m / d * d' * d = m / d * d * d' := Nat.mul_right_comm _ _ _
      _ ≤ m * d' := Nat.mul_le_mul_right d' (Nat.div_mul_le_self m d)
      _ ≤ m' * d := h
  rcases Nat.lt_or_eq_of_le hfloor with hless | hsame
  · exact (roundHalfEven_bounds m d).2.trans (hless.trans_le (roundHalfEven_bounds m' d').1)
  · -- With the same whole part the rests decide.
    have hrest : m % d * d' ≤ m' % d' * d := by
      have hm := Nat.div_add_mod m d
      have hm' := Nat.div_add_mod m' d'
      rw [← hm, ← hm', ← hsame] at h
      nlinarith
    have hbelow : 2 * (m' % d') < d' → 2 * (m % d) < d := by
      intro hlt
      by_contra hge
      nlinarith
    have habove : d < 2 * (m % d) → d' < 2 * (m' % d') := by
      intro hlt
      by_contra hge
      nlinarith
    unfold roundHalfEven
    dsimp only
    rw [hsame]
    split_ifs <;> omega

/-- The whole number nearest to a number that is not negative; of two the even one. -/
def nearestWhole (x : Rat) : Nat := roundHalfEven x.num.toNat x.den

theorem nearestWhole_div (m : Nat) {d : Nat} (hd : 0 < d) :
    nearestWhole ((m : Rat) / d) = roundHalfEven m d := by
  have hx : (0 : Rat) ≤ (m : Rat) / d := by positivity
  have hnum := Int.toNat_of_nonneg (Rat.num_nonneg.mpr hx)
  have hcross : ((m : Rat) / d).num.toNat * d = m * ((m : Rat) / d).den := by
    have hd' : (d : Rat) ≠ 0 := by positivity
    have hden : (((m : Rat) / d).den : Rat) ≠ 0 := by
      exact_mod_cast ((m : Rat) / d).den_nz
    have hfraction := Rat.num_div_den ((m : Rat) / d)
    rw [div_eq_div_iff hden hd', ← hnum] at hfraction
    exact_mod_cast hfraction
  exact Nat.le_antisymm (roundHalfEven_mono ((m : Rat) / d).pos hd hcross.le)
    (roundHalfEven_mono hd ((m : Rat) / d).pos hcross.ge)

theorem nearestWhole_mono {x y : Rat} (hx : 0 ≤ x) (hxy : x ≤ y) :
    nearestWhole x ≤ nearestWhole y := by
  refine roundHalfEven_mono x.pos y.pos ?_
  have hcross := (Rat.le_iff x y).mp hxy
  rw [← Int.toNat_of_nonneg (Rat.num_nonneg.mpr hx),
    ← Int.toNat_of_nonneg (Rat.num_nonneg.mpr (hx.trans hxy))] at hcross
  exact_mod_cast hcross

theorem nearestWhole_natCast (n : Nat) : nearestWhole n = n := by
  have hone := nearestWhole_div n Nat.one_pos
  rw [Nat.cast_one, div_one] at hone
  rw [hone]
  simp [roundHalfEven, Nat.mod_one]

/-- The place of the last binary digit of the double nearest to a number. -/
def place (x : Rat) : Int := max (Int.log 2 x - 52) (-1074)

/-- The number nearest to `x` that has a mantissa and an exponent of a double, as if there were no
greatest exponent. -/
def rounded (x : Rat) : Rat := nearestWhole (x / 2 ^ place x) * 2 ^ place x

variable {x y : Rat}

theorem two_zpow_add (e : Int) (n : Nat) : (2 : Rat) ^ (e + n) = (2 ^ n : Nat) * 2 ^ e := by
  rw [zpow_add₀ (by norm_num), mul_comm, zpow_natCast]
  norm_num

theorem place_mono (hx : 0 < x) (hxy : x ≤ y) : place x ≤ place y :=
  max_le_max (Int.sub_le_sub_right (Int.log_mono_right hx hxy) 52) (le_refl _)

theorem lt_place (x : Rat) : x < 2 ^ (place x + 53) := by
  have hlog : x < 2 ^ (Int.log 2 x + 1) := by exact_mod_cast Int.lt_zpow_succ_log_self (by decide) x
  have hplace : Int.log 2 x - 52 ≤ place x := le_max_left _ _
  exact hlog.trans_le (zpow_le_zpow_right₀ (by norm_num) (by omega))

theorem place_le (hx : 0 < x) (h : -1074 < place x) : 2 ^ (place x + 52) ≤ x := by
  have hlog : (2 : Rat) ^ Int.log 2 x ≤ x := by exact_mod_cast Int.zpow_log_le_self (by decide) hx
  have hplace : place x = Int.log 2 x - 52 := by
    unfold place at h ⊢
    omega
  rwa [hplace, Int.sub_add_cancel]

theorem units_lt (x : Rat) : x / 2 ^ place x < (2 ^ 53 : Nat) := by
  have hpos : (0 : Rat) < 2 ^ place x := by positivity
  rw [div_lt_iff₀ hpos]
  exact (lt_place x).trans_eq (two_zpow_add _ 53)

theorem le_units (hx : 0 < x) (h : -1074 < place x) : (2 ^ 52 : Nat) ≤ x / 2 ^ place x := by
  have hpos : (0 : Rat) < 2 ^ place x := by positivity
  rw [le_div_iff₀ hpos]
  exact (two_zpow_add _ 52).symm.trans_le (place_le hx h)

theorem nearestWhole_units_le (hx : 0 ≤ x) : nearestWhole (x / 2 ^ place x) ≤ 2 ^ 53 := by
  have hunits : 0 ≤ x / 2 ^ place x := by positivity
  rw [← nearestWhole_natCast (2 ^ 53)]
  exact nearestWhole_mono hunits (units_lt x).le

theorem le_nearestWhole_units (hx : 0 < x) (h : -1074 < place x) :
    2 ^ 52 ≤ nearestWhole (x / 2 ^ place x) := by
  rw [← nearestWhole_natCast (2 ^ 52)]
  exact nearestWhole_mono (Nat.cast_nonneg _) (le_units hx h)

theorem rounded_nonneg (x : Rat) : 0 ≤ rounded x := by
  unfold rounded
  positivity

theorem rounded_zero : rounded 0 = 0 := by
  rw [rounded, zero_div]
  simp [nearestWhole, roundHalfEven]

theorem rounded_mono (hx : 0 ≤ x) (hxy : x ≤ y) : rounded x ≤ rounded y := by
  rcases hx.eq_or_lt with rfl | hpos
  · rw [rounded_zero]
    exact rounded_nonneg y
  · rcases (place_mono hpos hxy).eq_or_lt with hsame | hless
    · unfold rounded
      rw [hsame]
      have hunits : x / 2 ^ place y ≤ y / 2 ^ place y := by gcongr
      have hwhole := nearestWhole_mono (by positivity) hunits
      gcongr
    · -- A power of two lies between them that is no further away from either.
      have hplaces : place x + 53 ≤ place y + 52 := by omega
      have hleast : -1074 ≤ place x := le_max_right _ _
      have habove := le_nearestWhole_units (hpos.trans_le hxy) (by omega)
      calc rounded x ≤ (2 ^ 53 : Nat) * 2 ^ place x := by
            have hbelow := nearestWhole_units_le hpos.le
            unfold rounded
            gcongr
        _ = 2 ^ (place x + 53) := (two_zpow_add _ 53).symm
        _ ≤ 2 ^ (place y + 52) := zpow_le_zpow_right₀ (by norm_num) hplaces
        _ = (2 ^ 52 : Nat) * 2 ^ place y := two_zpow_add _ 52
        _ ≤ rounded y := by
            unfold rounded
            gcongr

theorem rounded_of_parts {m : Nat} {e : Int} (hm : m < 2 ^ 53) (he : -1074 ≤ e) :
    rounded (m * 2 ^ e) = m * 2 ^ e := by
  rcases Nat.eq_zero_or_pos m with rfl | hpos
  · simp [rounded_zero]
  · have hx : (0 : Rat) < m * 2 ^ e := by positivity
    have hbelow : (m : Rat) * 2 ^ e < 2 ^ (e + 53) := by
      calc (m : Rat) * 2 ^ e < (2 ^ 53 : Nat) * 2 ^ e := by gcongr
        _ = 2 ^ (e + 53) := (two_zpow_add e 53).symm
    have hlog : Int.log 2 ((m : Rat) * 2 ^ e) < e + 53 :=
      (Int.lt_zpow_iff_log_lt (by decide) hx).mp (by exact_mod_cast hbelow)
    have hplace : place (m * 2 ^ e) ≤ e := by
      unfold place
      omega
    obtain ⟨k, hk⟩ := Int.eq_ofNat_of_zero_le (Int.sub_nonneg_of_le hplace)
    have hunits : (m : Rat) * 2 ^ e / 2 ^ place (m * 2 ^ e) = (m * 2 ^ k : Nat) := by
      rw [mul_div_assoc, ← zpow_sub₀ (by norm_num), hk]
      push_cast
      rfl
    rw [rounded, hunits, nearestWhole_natCast, ← hunits]
    field_simp

theorem rounded_natCast {n : Nat} (hn : n < 2 ^ 53) : rounded n = n := by
  have hparts := rounded_of_parts hn (show -1074 ≤ (0 : Int) by decide)
  rwa [zpow_zero, mul_one] at hparts

theorem rounded_one : rounded 1 = 1 := by
  have h := rounded_natCast (show 1 < 2 ^ 53 by decide)
  rwa [Nat.cast_one] at h

end ChainAudit.Decimal
