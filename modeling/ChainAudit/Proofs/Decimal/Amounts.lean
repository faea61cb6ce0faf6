import ChainAudit.Proofs.Decimal.Arithmetic

/-!
# Amounts in doubles

Doubles that are not negative, by the numbers they are worth: what the operations round to, how they
compare, and which of them stay at zero or above whatever is rounded on the way.
-/

namespace ChainAudit.Decimal

open Float.Model Float.Model.UnpackedFloat

/-- The double that a number is rounded to; too great a number is rounded to infinity. -/
structure Rounds (x : Float) (q : Rat) : Prop where
  worth : rounded q < 2 ^ (1024 : Int) → Worth x (rounded q)
  beyond : 2 ^ (1024 : Int) ≤ rounded q → x.toModel.unpack = .infinity .positive

variable {x y : Float} {p q : Rat} {u v : UnpackedFloat}

theorem rounds_pack (h : Stands u (rounded q)) : Rounds (.ofModel (.pack u)) q :=
  ⟨worth_pack h, unpack_pack_beyond h⟩

theorem rounds_add (hx : Worth x p) (hy : Worth y q) : Rounds (x + y) (p + q) :=
  rounds_pack (stands_add hx hy)

theorem rounds_sub (hx : Worth x p) (hy : Worth y q) (hle : q ≤ p) : Rounds (x - y) (p - q) :=
  rounds_pack (stands_sub hx hy hle)

theorem rounds_mul (hx : Worth x p) (hy : Worth y q) : Rounds (x * y) (p * q) :=
  rounds_pack (stands_mul hx hy)

theorem rounds_div (hx : Worth x p) (hy : Worth y q) (hq : 0 < q) : Rounds (x / y) (p / q) :=
  rounds_pack (stands_div hx hy hq)

theorem rounds_toFloat (n : UInt64) : Rounds n.toFloat n.toNat := by
  have h := stands_normalize (Int.natCast_nonneg n.toNat) 0
  rw [zpow_zero, mul_one] at h
  exact rounds_pack h

private theorem le_iff_unpack : x ≤ y ↔ x.toModel.unpack.le y.toModel.unpack = true := by
  change decide (x.toModel ≤ y.toModel) = true ↔ _
  exact decide_eq_true_iff

private theorem lt_iff_unpack : x < y ↔ x.toModel.unpack.lt y.toModel.unpack = true := by
  change decide (x.toModel < y.toModel) = true ↔ _
  exact decide_eq_true_iff

private theorem Fits.lt_of_lt {m n : Nat} {e f : Int} (h : Fits m e) (h' : Fits n f) (hef : e < f) :
    (m : Rat) * 2 ^ e < n * 2 ^ f := by
  have hleast := h.least
  have hpow : (2 : Rat) ^ (e + 53) ≤ 2 ^ (f + 52) := zpow_le_zpow_right₀ (by norm_num) (by omega)
  exact (h.lt.trans_le hpow).trans_le (h'.le (by omega))

private theorem Fits.compare_eq {m n : Nat} {e f : Int} (h : Fits m e) (h' : Fits n f) :
    (compare e f).then (compare m n) = compare ((m : Rat) * 2 ^ e) (n * 2 ^ f) := by
  rcases lt_trichotomy e f with hlt | rfl | hgt
  · rw [compare_lt_iff_lt.mpr hlt, compare_lt_iff_lt.mpr (h.lt_of_lt h' hlt)]
    rfl
  · have hpow : (0 : Rat) < 2 ^ e := by positivity
    rw [compare_eq_iff_eq.mpr rfl]
    change compare m n = _
    rcases lt_trichotomy m n with hlt | rfl | hgt
    · have hlt' : (m : Rat) * 2 ^ e < n * 2 ^ e := by gcongr
      rw [compare_lt_iff_lt.mpr hlt, compare_lt_iff_lt.mpr hlt']
    · rw [compare_eq_iff_eq.mpr rfl, compare_eq_iff_eq.mpr rfl]
    · have hgt' : (n : Rat) * 2 ^ e < m * 2 ^ e := by gcongr
      rw [compare_gt_iff_gt.mpr hgt, compare_gt_iff_gt.mpr hgt']
  · rw [compare_gt_iff_gt.mpr hgt, compare_gt_iff_gt.mpr (h'.lt_of_lt h hgt)]
    rfl

private theorem Stands.compare_eq (hu : Stands u p) (hv : Stands v q) :
    u.compare v = some (compare p q) := by
  cases hu with
  | zero s =>
    cases hv with
    | zero s' =>
      rw [compare_eq_iff_eq.mpr rfl]
      rfl
    | @finite n f h' hn =>
      have hpos : (0 : Rat) < n * 2 ^ f := by positivity
      rw [compare_lt_iff_lt.mpr hpos]
      cases s <;> rfl
  | @finite m e h hm =>
    have hpos : (0 : Rat) < m * 2 ^ e := by positivity
    cases hv with
    | zero s' =>
      rw [compare_gt_iff_gt.mpr hpos]
      rfl
    | finite h' hn =>
      rw [← h.compare_eq h']
      rfl

theorem worth_le_iff (hx : Worth x p) (hy : Worth y q) : x ≤ y ↔ p ≤ q := by
  rw [le_iff_unpack, UnpackedFloat.le, hx.compare_eq hy]
  change (compare p q).isLE = true ↔ p ≤ q
  exact Ordering.isLE_iff_ne_gt.trans compare_le_iff_le

theorem worth_lt_iff (hx : Worth x p) (hy : Worth y q) : x < y ↔ p < q := by
  rw [lt_iff_unpack, UnpackedFloat.lt, hx.compare_eq hy, beq_iff_eq, Option.some_inj]
  exact compare_lt_iff_lt

/-- A number up to a power of two that is not too great is not rounded beyond it. -/
theorem Rounds.worth_of_le {k : Nat} (h : Rounds x q) (hq : 0 ≤ q) (hle : q ≤ 2 ^ (k : Int))
    (hk : k ≤ 971) : Worth x (rounded q) ∧ rounded q ≤ 2 ^ (k : Int) := by
  have hpow : rounded (2 ^ (k : Int)) = 2 ^ (k : Int) := by
    have hparts := rounded_of_parts (show 1 < 2 ^ 53 by decide) (show -1074 ≤ (k : Int) by omega)
    rwa [Nat.cast_one, one_mul] at hparts
  have hround := rounded_mono hq hle
  rw [hpow] at hround
  refine ⟨h.worth (hround.trans_lt ?_), hround⟩
  exact zpow_lt_zpow_right₀ (by norm_num) (by omega)

theorem Rounds.worth_natCast {n : Nat} (h : Rounds x n) (hn : n < 2 ^ 53) : Worth x n := by
  have hle : (n : Rat) ≤ 2 ^ ((53 : Nat) : Int) := by
    rw [zpow_natCast]
    exact_mod_cast hn.le
  have hworth := (h.worth_of_le (Nat.cast_nonneg n) hle (by decide)).1
  rwa [rounded_natCast hn] at hworth

theorem worth_toFloat (n : UInt64) : ∃ q, Worth n.toFloat q ∧ 0 ≤ q ∧ q ≤ 2 ^ (64 : Int) := by
  have hle : (n.toNat : Rat) ≤ 2 ^ ((64 : Nat) : Int) := by
    rw [zpow_natCast]
    exact_mod_cast n.toNat_lt.le
  have h := (rounds_toFloat n).worth_of_le (Nat.cast_nonneg _) hle (by decide)
  exact ⟨_, h.1, rounded_nonneg _, h.2⟩

private theorem worth_of_unpack {m : Nat} {e : Int} {hm : 0 < m}
    (h : x.toModel.unpack = .finite .positive m e hm) : Worth x (m * 2 ^ e) := by
  have hfits := (unpack_fits x h).1
  unfold Worth
  rw [h]
  exact .finite hfits hm

theorem worth_of_ofFloat {m : Nat} {e : Int} (h : Binary.ofFloat x = .finite false m e) :
    Worth x (m * 2 ^ e) := by
  rw [ofFloat_eq] at h
  cases hu : x.toModel.unpack with
  | infinity s =>
    rw [hu] at h
    cases h
  | notANumber =>
    rw [hu] at h
    cases h
  | zero s =>
    rw [hu] at h
    obtain ⟨-, rfl, -⟩ := Binary.finite.inj h
    rw [Worth, hu, Nat.cast_zero, zero_mul]
    exact .zero s
  | finite s m' e' hm =>
    rw [hu] at h
    obtain ⟨hs, rfl, rfl⟩ := Binary.finite.inj h
    cases s with
    | negative => cases hs
    | positive => exact worth_of_unpack hu

theorem worth_one : Worth 1.0 1 := by
  have h := worth_of_ofFloat
    (show Binary.ofFloat 1.0 = .finite false 4503599627370496 (-52) by decide +kernel)
  norm_num at h
  exact h

theorem worth_zero : Worth 0.0 0 := by
  have h := worth_of_ofFloat (show Binary.ofFloat 0.0 = .finite false 0 (-1074) by decide +kernel)
  rwa [Nat.cast_zero, zero_mul] at h

theorem worth_billion : Worth 1000000000.0 1000000000 := by
  have h := worth_of_ofFloat
    (show Binary.ofFloat 1000000000.0 = .finite false 8388608000000000 (-23) by decide +kernel)
  norm_num at h
  exact h

private theorem Stands.eq_zero (h : Stands u q) (hq : q = 0) : ∃ s, u = .zero s := by
  cases h with
  | zero s => exact ⟨s, rfl⟩
  | @finite m e h hm =>
    have hpos : (0 : Rat) < m * 2 ^ e := by positivity
    exact absurd hq hpos.ne'

theorem worth_of_positive (hfinite : x.isFinite = true) (hy : Worth y 0) (hless : ¬ x ≤ y) :
    ∃ q, 0 < q ∧ Worth x q := by
  obtain ⟨s', hs'⟩ := Stands.eq_zero hy rfl
  change x.toModel.unpack.isFinite = true at hfinite
  rw [le_iff_unpack, hs'] at hless
  cases hu : x.toModel.unpack with
  | infinity s =>
    rw [hu] at hfinite
    cases hfinite
  | notANumber =>
    rw [hu] at hfinite
    cases hfinite
  | zero s =>
    rw [hu] at hless
    exact absurd rfl hless
  | finite s m e hm =>
    cases s with
    | negative =>
      rw [hu] at hless
      exact absurd rfl hless
    | positive => exact ⟨m * 2 ^ e, by positivity, worth_of_unpack hu⟩

/-- A double that is not negative; it may be infinite. -/
def NotNegative (x : Float) : Prop := (∃ q, Worth x q) ∨ x.toModel.unpack = .infinity .positive

theorem Rounds.notNegative (h : Rounds x q) : NotNegative x := by
  rcases lt_or_ge (rounded q) (2 ^ (1024 : Int)) with hlt | hge
  · exact .inl ⟨_, h.worth hlt⟩
  · exact .inr (h.beyond hge)

private theorem Stands.not_isNaN (h : Stands u q) : u.isNaN = false := by
  cases h <;> rfl

private theorem Stands.lt_infinity (h : Stands u q) : u.lt (.infinity .positive) = true := by
  cases h <;> rfl

private theorem Stands.add_infinity (h : Stands u q) (s : Sign) :
    UnpackedFloat.add Format.binary64 u (.infinity s) = .infinity s := by
  cases h <;> rfl

private theorem Stands.infinity_add (h : Stands u q) (s : Sign) :
    UnpackedFloat.add Format.binary64 (.infinity s) u = .infinity s := by
  cases h <;> rfl

theorem NotNegative.not_isNaN (h : NotNegative x) : x.isNaN = false := by
  change x.toModel.unpack.isNaN = false
  rcases h with ⟨q, hq⟩ | hinf
  · exact Stands.not_isNaN hq
  · rw [hinf]
    rfl

theorem NotNegative.add (hx : NotNegative x) (hy : NotNegative y) : NotNegative (x + y) := by
  have hsum : (x + y).toModel.unpack =
      (Float.Model.pack (.add Format.binary64 x.toModel.unpack y.toModel.unpack)).unpack := rfl
  rcases hx with ⟨p, hp⟩ | hinf
  · rcases hy with ⟨q, hq⟩ | hinf
    · exact (rounds_add hp hq).notNegative
    · refine .inr ?_
      rw [hsum, hinf, Stands.add_infinity hp]
      exact unpack_pack_infinity .positive
  · refine .inr ?_
    rcases hy with ⟨q, hq⟩ | hinf'
    · rw [hsum, hinf, Stands.infinity_add hq]
      exact unpack_pack_infinity .positive
    · rw [hsum, hinf, hinf']
      exact unpack_pack_infinity .positive

theorem worth_lesserDouble (hx : Worth x p) (hy : Worth y q) :
    Worth (lesserDouble x y) (min p q) := by
  rw [lesserDouble, NotNegative.not_isNaN (.inl ⟨p, hx⟩), NotNegative.not_isNaN (.inl ⟨q, hy⟩)]
  simp only [Bool.false_eq_true, if_false, worth_lt_iff hy hx]
  split
  · rename_i h
    rwa [min_eq_right h.le]
  · rename_i h
    rwa [min_eq_left (not_lt.mp h)]

theorem NotNegative.lesserDouble (hx : NotNegative x) (hy : Worth y q) :
    ∃ p, Worth (lesserDouble x y) p := by
  rcases hx with ⟨p, hp⟩ | hinf
  · exact ⟨_, worth_lesserDouble hp hy⟩
  · have hless : y < x := by
      rw [lt_iff_unpack, hinf]
      exact Stands.lt_infinity hy
    refine ⟨q, ?_⟩
    rw [Decimal.lesserDouble, NotNegative.not_isNaN (.inr hinf),
      NotNegative.not_isNaN (.inl ⟨q, hy⟩)]
    simpa only [Bool.false_eq_true, if_false, if_pos hless] using hy

theorem worth_greaterDouble (hx : Worth x p) (hy : Worth y q) :
    Worth (greaterDouble x y) (max p q) := by
  rw [greaterDouble, NotNegative.not_isNaN (.inl ⟨p, hx⟩), NotNegative.not_isNaN (.inl ⟨q, hy⟩)]
  simp only [Bool.false_eq_true, if_false, worth_lt_iff hx hy]
  split
  · rename_i h
    rwa [max_eq_right h.le]
  · rename_i h
    rwa [max_eq_left (not_lt.mp h)]

theorem notNegative_greaterDouble (hy : Worth y 0) : NotNegative (greaterDouble x y) := by
  have hzero : NotNegative y := .inl ⟨0, hy⟩
  obtain ⟨s', hs'⟩ := Stands.eq_zero hy rfl
  rw [greaterDouble, hzero.not_isNaN]
  split
  · exact hzero
  · rename_i hnan
    simp only [Bool.false_eq_true, if_false]
    split
    · exact hzero
    · rename_i hless
      rw [lt_iff_unpack, hs'] at hless
      cases hu : x.toModel.unpack with
      | infinity s =>
        cases s with
        | negative =>
          rw [hu] at hless
          exact absurd rfl hless
        | positive => exact .inr hu
      | notANumber =>
        change ¬ x.toModel.unpack.isNaN = true at hnan
        rw [hu] at hnan
        exact absurd rfl hnan
      | zero s =>
        refine .inl ⟨0, ?_⟩
        rw [Worth, hu]
        exact .zero s
      | finite s m e hm =>
        cases s with
        | negative =>
          rw [hu] at hless
          exact absurd rfl hless
        | positive => exact .inl ⟨_, worth_of_unpack hu⟩

end ChainAudit.Decimal
