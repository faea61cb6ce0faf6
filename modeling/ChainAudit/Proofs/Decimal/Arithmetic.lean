import ChainAudit.Proofs.Decimal.Doubles

/-!
# Arithmetic on doubles

An operation takes its operands apart, computes a whole quotient in a place that is low enough, and
moves its binary point up to the place of a double. Of the digits that are lost two bits are kept,
which is all that rounding needs. So every operation yields the double nearest to the exact result.
-/

namespace ChainAudit.Decimal

open Float.Model Float.Model.UnpackedFloat

/-- A quotient as its whole part and the two bits that decide its rounding. -/
def quotient (num den : Nat) : ExtendedMantissa :=
  ⟨num / den, decide (den ≤ 2 * (num % den)), decide (num % den ≠ 0 ∧ 2 * (num % den) ≠ den)⟩

variable {num den : Nat}

private theorem ofMantissaAndAccuracy_quotient (hden : 0 < den) :
    ExtendedMantissa.ofMantissaAndAccuracy (num / den) (accuracyOfFraction (num % den) den) =
      quotient num den := by
  unfold accuracyOfFraction quotient
  split
  · rename_i h
    simp [ExtendedMantissa.ofMantissaAndAccuracy, h, Nat.not_le_of_lt hden]
  · rename_i h
    rcases Nat.lt_trichotomy (2 * (num % den)) den with hlt | heq | hgt
    · rw [Nat.compare_eq_lt.mpr hlt]
      simp [ExtendedMantissa.ofMantissaAndAccuracy, h, hlt.ne, Nat.not_le_of_lt hlt]
    · rw [Nat.compare_eq_eq.mpr heq]
      simp [ExtendedMantissa.ofMantissaAndAccuracy, heq]
    · rw [Nat.compare_eq_gt.mpr hgt]
      simp [ExtendedMantissa.ofMantissaAndAccuracy, h, hgt.ne', hgt.le]

private theorem shiftRightOne_quotient (hden : 0 < den) :
    (quotient num den).shiftRightOne = quotient num (den * 2) := by
  -- the digit that is lost becomes the first of the two bits
  have hmod : num % (den * 2) = num % den + den * (num / den % 2) := Nat.mod_mul
  have hrest := Nat.mod_lt num hden
  unfold quotient ExtendedMantissa.shiftRightOne
  rw [hmod]
  rcases Nat.mod_two_eq_zero_or_one (num / den) with hbit | hbit
  all_goals
    rw [hbit]
    congr 1
    · exact Nat.div_div_eq_div_mul num den 2
    · simp
      omega
    · apply Bool.eq_iff_iff.mpr
      simp only [Bool.or_eq_true, decide_eq_true_eq]
      omega

private theorem shiftRight_quotient (hden : 0 < den) (k : Nat) :
    quotient num den >>> k = quotient num (den * 2 ^ k) := by
  change k.repeat ExtendedMantissa.shiftRightOne (quotient num den) = _
  induction k with
  | zero => rw [Nat.pow_zero, Nat.mul_one]; rfl
  | succ k ih =>
    rw [Nat.repeat, ih, shiftRightOne_quotient (by positivity), Nat.mul_assoc, Nat.pow_succ]

private theorem roundedMantissa_quotient (hden : 0 < den) :
    (quotient num den).roundedMantissa = roundHalfEven num den := by
  rw [← ofMantissaAndAccuracy_quotient hden, roundHalfEven, accuracyOfFraction]
  split
  · rename_i h
    rw [if_pos (by omega)]
    rfl
  · rename_i h
    rcases Nat.lt_trichotomy (2 * (num % den)) den with hlt | heq | hgt
    · rw [Nat.compare_eq_lt.mpr hlt, if_pos hlt]
      rfl
    · rw [Nat.compare_eq_eq.mpr heq, if_neg heq.not_lt, if_neg heq.not_gt]
      change num / den + num / den % 2 = _
      split <;> omega
    · rw [Nat.compare_eq_gt.mpr hgt, if_neg hgt.le.not_gt, if_pos hgt]
      rfl

private theorem targetExponent_eq (total : Int) :
    Format.binary64.targetExponent total = max (total - 53) (-1074) := rfl

private theorem log_quotient (hwhole : 0 < num / den) (t : Int) :
    Int.log 2 ((num : Rat) / den * 2 ^ t) = (num / den).log2 + t := by
  obtain ⟨hden, hle⟩ := Nat.div_pos_iff.mp hwhole
  have hden' : (0 : Rat) < den := by exact_mod_cast hden
  have hnum : (0 : Rat) < num := by exact_mod_cast hden.trans_le hle
  have hx : (0 : Rat) < (num : Rat) / den * 2 ^ t := by positivity
  have hlow : ((2 ^ (num / den).log2 : Nat) : Rat) ≤ (num : Rat) / den := by
    rw [le_div_iff₀ hden']
    have h := Nat.mul_le_mul_right den (Nat.log2_self_le hwhole.ne')
    exact_mod_cast h.trans (Nat.div_mul_le_self num den)
  have hhigh : (num : Rat) / den < (2 ^ ((num / den).log2 + 1) : Nat) := by
    rw [div_lt_iff₀ hden']
    exact_mod_cast (Nat.div_lt_iff_lt_mul hden).mp (Nat.lt_log2_self (n := num / den))
  apply le_antisymm
  · have hbelow : (num : Rat) / den * 2 ^ t < 2 ^ (t + ((num / den).log2 + 1 : Nat)) := by
      rw [two_zpow_add]
      gcongr
    have hlog := (Int.lt_zpow_iff_log_lt (b := 2) (by decide) hx).mp (by exact_mod_cast hbelow)
    omega
  · have habove : (2 : Rat) ^ (t + ((num / den).log2 : Nat)) ≤ (num : Rat) / den * 2 ^ t := by
      rw [two_zpow_add]
      gcongr
    have hlog := (Int.zpow_le_iff_le_log (b := 2) (by decide) hx).mp (by exact_mod_cast habove)
    omega

/-- The exponent that a double needs for a quotient of whole numbers is its place. -/
private theorem targetExponent_quotient (hnum : 0 < num) (hden : 0 < den) {t : Int}
    (ht : t ≤ place (num / den * 2 ^ t)) :
    Format.binary64.targetExponent (totalExponent (num / den) t) = place (num / den * 2 ^ t) := by
  rw [targetExponent_eq, totalExponent]
  rcases Nat.eq_zero_or_pos (num / den) with hnone | hwhole
  · have hden' : (0 : Rat) < den := by exact_mod_cast hden
    have hless : (num : Rat) / den * 2 ^ t < 2 ^ t := by
      apply mul_lt_of_lt_one_left (by positivity)
      rw [div_lt_one hden']
      exact_mod_cast (Nat.div_eq_zero_iff.mp hnone).resolve_left hden.ne'
    have hlog : Int.log 2 ((num : Rat) / den * 2 ^ t) < t :=
      (Int.lt_zpow_iff_log_lt (by decide) (by positivity)).mp (by exact_mod_cast hless)
    unfold place at ht ⊢
    rw [hnone, Nat.log2_zero]
    omega
  · rw [place, log_quotient hwhole]
    congr 1
    omega

private theorem shift_short {m : Nat} {e : Int} (hm : m < 2 ^ 53) (he : -1074 ≤ e) :
    shiftToTargetExponent Format.binary64 m e .exact = (⟨m, false, false⟩, e) := by
  have hlog : m.log2 ≤ 52 := by
    rcases Nat.eq_zero_or_pos m with rfl | hpos
    · simp
    · exact Nat.le_of_lt_succ ((Nat.log2_lt hpos.ne').mpr hm)
  have hshift : (max (((m.log2 + 1 : Nat) : Int) + e - 53) (-1074) - e).toNat = 0 := by omega
  rw [shiftToTargetExponent, targetExponent_eq, totalExponent, shiftToExponent]
  push_cast at hshift
  rw [hshift]
  simp [ExtendedMantissa.ofMantissaAndAccuracy]
  rfl

private theorem shift_carry {e : Int} (he : -1074 ≤ e) :
    shiftToTargetExponent Format.binary64 (2 ^ 53) e .exact =
      (⟨2 ^ 52, false, false⟩, e + 1) := by
  have hshift : (max (((53 : Nat) : Int) + 1 + e - 53) (-1074) - e).toNat = 1 := by omega
  rw [shiftToTargetExponent, targetExponent_eq, totalExponent, shiftToExponent, Nat.log2_two_pow,
    hshift]
  rfl

private theorem roundWithAccuracy_eq {s : Sign} {m r m' : Nat} {t e e' : Int} {acc : Accuracy}
    {em : ExtendedMantissa} {roundBit stickyBit : Bool}
    (hfirst : shiftToTargetExponent Format.binary64 m t acc = (em, e))
    (hrounded : em.roundedMantissa = r)
    (hsecond : shiftToTargetExponent Format.binary64 r e .exact =
      (⟨m', roundBit, stickyBit⟩, e')) :
    roundWithAccuracy Format.binary64 s m t acc =
      if h : m' = 0 then .zero s else .finite s m' e' (Nat.pos_of_ne_zero h) := by
  simp only [roundWithAccuracy, hfirst, hrounded, hsecond]

private theorem first_shift (hnum : 0 < num) (hden : 0 < den) {t : Int}
    (ht : t ≤ place (num / den * 2 ^ t)) :
    shiftToTargetExponent Format.binary64 (num / den) t (accuracyOfFraction (num % den) den) =
      (quotient num (den * 2 ^ (place (num / den * 2 ^ t) - t).toNat),
        place (num / den * 2 ^ t)) := by
  rw [shiftToTargetExponent, targetExponent_quotient hnum hden ht, shiftToExponent,
    ofMantissaAndAccuracy_quotient hden, shiftRight_quotient hden, Int.toNat_of_nonneg (by omega)]
  congr 1
  omega

private theorem first_rounded (hden : 0 < den) {t : Int} (ht : t ≤ place (num / den * 2 ^ t)) :
    (quotient num (den * 2 ^ (place (num / den * 2 ^ t) - t).toNat)).roundedMantissa =
      nearestWhole (num / den * 2 ^ t / 2 ^ place (num / den * 2 ^ t)) := by
  rw [roundedMantissa_quotient (by positivity), ← nearestWhole_div num (by positivity)]
  congr 1
  push_cast
  rw [← zpow_natCast, Int.toNat_of_nonneg (by omega), zpow_sub₀ (by norm_num)]
  field_simp

theorem stands_roundWithAccuracy (hnum : 0 < num) (hden : 0 < den) {t : Int}
    (ht : t ≤ place (num / den * 2 ^ t)) :
    Stands (roundWithAccuracy Format.binary64 .positive (num / den) t
        (accuracyOfFraction (num % den) den))
      (rounded (num / den * 2 ^ t)) := by
  have hfirst := first_shift hnum hden ht
  have hrounded := first_rounded hden ht
  have hx : (0 : Rat) < num / den * 2 ^ t := by positivity
  have hleast : -1074 ≤ place ((num : Rat) / den * 2 ^ t) := le_max_right _ _
  have hmost := nearestWhole_units_le hx.le
  have hnormal : 2 ^ 52 ≤ nearestWhole (num / den * 2 ^ t / 2 ^ place (num / den * 2 ^ t)) ∨
      place ((num : Rat) / den * 2 ^ t) = -1074 := by
    rcases hleast.eq_or_lt with heq | hlt
    · exact .inr heq.symm
    · exact .inl (le_nearestWhole_units hx hlt)
  rw [rounded]
  generalize nearestWhole (num / den * 2 ^ t / 2 ^ place (num / den * 2 ^ t)) = m at *
  generalize place ((num : Rat) / den * 2 ^ t) = e at *
  rcases hmost.lt_or_eq with hm | rfl
  · rw [roundWithAccuracy_eq hfirst hrounded (shift_short hm hleast)]
    split
    · rename_i hzero
      rw [hzero, Nat.cast_zero, zero_mul]
      exact .zero .positive
    · exact .finite ⟨hm, hleast, hnormal⟩ _
  · -- rounding up has carried into one binary digit more
    have hvalue : ((2 ^ 53 : Nat) : Rat) * 2 ^ e = (2 ^ 52 : Nat) * 2 ^ (e + 1) := by
      rw [← two_zpow_add, ← two_zpow_add]
      congr 1
      omega
    rw [roundWithAccuracy_eq hfirst hrounded (shift_carry hleast), hvalue]
    exact .finite ⟨by decide, by omega, .inl (le_refl _)⟩ _

private theorem stands_exact {m : Nat} (hm : 0 < m) {t : Int} (ht : t ≤ place (m * 2 ^ t)) :
    Stands (roundWithAccuracy Format.binary64 .positive m t .exact) (rounded (m * 2 ^ t)) := by
  have hone : (m : Rat) / (1 : Nat) * 2 ^ t = m * 2 ^ t := by rw [Nat.cast_one, div_one]
  have hstands := stands_roundWithAccuracy hm Nat.one_pos (hone ▸ ht)
  rwa [hone, Nat.div_one, Nat.mod_one] at hstands

private theorem place_whole {m : Nat} (hm : 0 < m) (t : Int) :
    place (m * 2 ^ t) = max (m.log2 + t - 52) (-1074) := by
  have hlog := log_quotient (show 0 < m / 1 by omega) t
  rw [Nat.div_one, Nat.cast_one, div_one] at hlog
  rw [place, hlog]

private theorem shiftLeft_pos {m : Nat} (hm : 0 < m) (k : Nat) : 0 < m <<< k := by
  rw [Nat.shiftLeft_eq]
  positivity

private theorem shiftLeft_value (m : Nat) (e : Int) (k : Nat) :
    ((m <<< k : Nat) : Rat) * 2 ^ (e - k) = m * 2 ^ e := by
  rw [Nat.shiftLeft_eq, zpow_sub₀ (by norm_num), zpow_natCast]
  push_cast
  field_simp

private theorem stands_round {m : Nat} (hm : 0 < m) (e : Int) :
    Stands (UnpackedFloat.round Format.binary64 .positive m e) (rounded (m * 2 ^ e)) := by
  have htarget : Format.binary64.targetExponent (totalExponent m e) = place (m * 2 ^ e) := by
    rw [targetExponent_eq, totalExponent, place_whole hm]
    congr 1
    omega
  have hvalue := shiftLeft_value m e (e - place (m * 2 ^ e)).toNat
  rw [UnpackedFloat.round, htarget]
  simp only [decreaseExponent]
  have hplace : e - (e - place (m * 2 ^ e)).toNat ≤ place (m * 2 ^ e) := by omega
  generalize (e - place (m * 2 ^ e)).toNat = k at *
  rw [← hvalue] at hplace ⊢
  exact stands_exact (shiftLeft_pos hm k) hplace

private theorem log2_le_log {m n : Nat} (e f : Int) (hm : 0 < m) (hn : 0 < n) :
    totalExponent m e - totalExponent n f - 1 ≤ Int.log 2 ((m : Rat) * 2 ^ e / (n * 2 ^ f)) := by
  have hx : (0 : Rat) < m * 2 ^ e / (n * 2 ^ f) := by positivity
  have hlow : ((2 ^ m.log2 : Nat) : Rat) ≤ m := by exact_mod_cast Nat.log2_self_le hm.ne'
  have hhigh : (n : Rat) ≤ (2 ^ (n.log2 + 1) : Nat) := by exact_mod_cast Nat.lt_log2_self.le
  have hle : (2 : Rat) ^ (totalExponent m e - totalExponent n f - 1) ≤ m * 2 ^ e / (n * 2 ^ f) := by
    calc (2 : Rat) ^ (totalExponent m e - totalExponent n f - 1)
        = 2 ^ (e + m.log2) / 2 ^ (f + (n.log2 + 1 : Nat)) := by
          rw [← zpow_sub₀ (by norm_num)]
          unfold totalExponent
          congr 1
          omega
      _ = (2 ^ m.log2 : Nat) * 2 ^ e / ((2 ^ (n.log2 + 1) : Nat) * 2 ^ f) := by
          rw [two_zpow_add, two_zpow_add]
      _ ≤ m * 2 ^ e / (n * 2 ^ f) := by gcongr
  exact (Int.zpow_le_iff_le_log (b := 2) (by decide) hx).mp (by exact_mod_cast hle)

private theorem stands_div_finite {m n : Nat} {e f : Int} (hm : 0 < m) (hn : 0 < n) :
    Stands (UnpackedFloat.div Format.binary64 (.finite .positive m e hm) (.finite .positive n f hn))
      (rounded (m * 2 ^ e / (n * 2 ^ f))) := by
  have hlog := log2_le_log e f hm hn
  simp only [UnpackedFloat.div, divCore, targetExponent_eq]
  generalize htarget : min (e - f) (max (totalExponent m e - totalExponent n f - 53) (-1074)) = t
  have hplace : t ≤ place ((m : Rat) * 2 ^ e / (n * 2 ^ f)) := by
    unfold place
    omega
  have hvalue : ((m <<< (e - f - t).toNat : Nat) : Rat) / n * 2 ^ t = m * 2 ^ e / (n * 2 ^ f) := by
    have hshift := shiftLeft_value m (e - f) (e - f - t).toNat
    have ht : e - f - (e - f - t).toNat = t := by omega
    rw [ht, zpow_sub₀ (by norm_num)] at hshift
    rw [div_mul_eq_mul_div, hshift]
    field_simp
  rw [← hvalue] at hplace ⊢
  exact stands_roundWithAccuracy (shiftLeft_pos hm _) hn hplace

theorem stands_normalize {m : Int} (hm : 0 ≤ m) (e : Int) :
    Stands (UnpackedFloat.normalize Format.binary64 m e .positive) (rounded (m * 2 ^ e)) := by
  obtain ⟨n, rfl⟩ := Int.eq_ofNat_of_zero_le hm
  rw [UnpackedFloat.normalize]
  rcases Nat.eq_zero_or_pos n with rfl | hn
  · have hzero : rounded (((0 : Nat) : Int) * 2 ^ e) = 0 := by simp [rounded_zero]
    rw [hzero]
    exact .zero .positive
  · rw [compare_gt_iff_gt.mpr (by omega)]
    exact stands_round hn e

private theorem aligned_value (m : Nat) {e f : Int} (h : f ≤ e) :
    ((decreaseExponent m e f).1 : Rat) * 2 ^ f = m * 2 ^ e := by
  have hshift := shiftLeft_value m e (e - f).toNat
  rwa [show e - (e - f).toNat = f by omega] at hshift

variable {u v : UnpackedFloat} {p q : Rat}

theorem Stands.rounded_eq (h : Stands u q) : rounded q = q := by
  cases h with
  | zero s => exact rounded_zero
  | finite h hm => exact rounded_of_parts h.short h.least

theorem stands_add (hu : Stands u p) (hv : Stands v q) :
    Stands (UnpackedFloat.add Format.binary64 u v) (rounded (p + q)) := by
  cases hu with
  | zero s =>
    rw [zero_add, hv.rounded_eq]
    cases hv with
    | zero s' =>
      simp only [UnpackedFloat.add]
      split
      · exact .zero s
      · exact .zero .positive
    | finite h hm => exact .finite h hm
  | @finite m e h hm =>
    cases hv with
    | zero s' =>
      rw [add_zero, (Stands.finite h hm).rounded_eq]
      exact .finite h hm
    | @finite n f h' hn =>
      have hvalue : ((Sign.positive.apply (decreaseExponent m e (min e f)).1 +
          Sign.positive.apply (decreaseExponent n f (min e f)).1 : Int) : Rat) * 2 ^ (min e f) =
            m * 2 ^ e + n * 2 ^ f := by
        rw [Sign.apply, Sign.apply]
        push_cast
        rw [add_mul, aligned_value m (min_le_left e f), aligned_value n (min_le_right e f)]
      rw [← hvalue]
      exact stands_normalize (Int.add_nonneg (Int.natCast_nonneg _) (Int.natCast_nonneg _)) _

theorem stands_sub (hu : Stands u p) (hv : Stands v q) (hle : q ≤ p) :
    Stands (UnpackedFloat.sub Format.binary64 u v) (rounded (p - q)) := by
  cases hv with
  | zero s' =>
    rw [sub_zero, hu.rounded_eq]
    cases hu with
    | zero s =>
      simp only [UnpackedFloat.sub]
      split
      · exact .zero s
      · exact .zero .positive
    | finite h hm => exact .finite h hm
  | @finite n f h' hn =>
    cases hu with
    | zero s =>
      have hpos : (0 : Rat) < n * 2 ^ f := by positivity
      exact absurd hle (not_le.mpr hpos)
    | @finite m e h hm =>
      have hvalue : ((Sign.positive.apply (decreaseExponent m e (min e f)).1 -
          Sign.positive.apply (decreaseExponent n f (min e f)).1 : Int) : Rat) * 2 ^ (min e f) =
            m * 2 ^ e - n * 2 ^ f := by
        rw [Sign.apply, Sign.apply]
        push_cast
        rw [sub_mul, aligned_value m (min_le_left e f), aligned_value n (min_le_right e f)]
      rw [← hvalue]
      refine stands_normalize ?_ _
      have hpow : (0 : Rat) < 2 ^ (min e f) := by positivity
      have hdiff := sub_nonneg.mpr hle
      rw [← hvalue] at hdiff
      exact_mod_cast nonneg_of_mul_nonneg_left hdiff hpow

private theorem Fits.log2_mul {m n : Nat} {e f : Int} (h : Fits m e) (h' : Fits n f) (hmore : -1074 < e + f)
    (hm : 0 < m) (hn : 0 < n) : 52 ≤ (m * n).log2 := by
  rw [Nat.le_log2 (Nat.mul_pos hm hn).ne']
  rcases h.normal with hlow | he
  · exact hlow.trans (Nat.le_mul_of_pos_right m hn)
  · have hlow := h'.normal.resolve_right (by omega)
    exact hlow.trans (Nat.le_mul_of_pos_left n hm)

theorem stands_mul (hu : Stands u p) (hv : Stands v q) :
    Stands (UnpackedFloat.mul Format.binary64 u v) (rounded (p * q)) := by
  cases hu with
  | zero s =>
    rw [zero_mul, rounded_zero]
    cases hv with
    | zero s' => exact .zero _
    | finite h hm => exact .zero _
  | @finite m e h hm =>
    cases hv with
    | zero s' =>
      rw [mul_zero, rounded_zero]
      exact .zero _
    | @finite n f h' hn =>
      have hplace : e + f ≤ place ((m * n : Nat) * 2 ^ (e + f)) := by
        rw [place_whole (Nat.mul_pos hm hn)]
        rcases le_or_gt (e + f) (-1074) with hleast | hmore
        · exact le_max_of_le_right hleast
        · have hlog := Fits.log2_mul h h' hmore hm hn
          apply le_max_of_le_left
          omega
      have hvalue : ((m * n : Nat) : Rat) * 2 ^ (e + f) = m * 2 ^ e * (n * 2 ^ f) := by
        rw [zpow_add₀ (by norm_num)]
        push_cast
        ring
      rw [← hvalue]
      exact stands_exact (Nat.mul_pos hm hn) hplace

theorem stands_div (hu : Stands u p) (hv : Stands v q) (hq : 0 < q) :
    Stands (UnpackedFloat.div Format.binary64 u v) (rounded (p / q)) := by
  cases hv with
  | zero s => exact absurd hq (lt_irrefl 0)
  | finite h' hn =>
    cases hu with
    | zero s =>
      rw [zero_div, rounded_zero]
      exact .zero _
    | finite h hm => exact stands_div_finite hm hn

end ChainAudit.Decimal
