import ChainAudit.Proofs.Decimal.Rounding
import Mathlib

/-!
# What doubles stand for

A double is a word of 64 bits: a sign, an exponent and a mantissa without its leading one. Taken
apart it is a zero, an infinity, no number, or a sign, a mantissa and an exponent, and what is put
together from such parts comes apart into them again.
-/

namespace ChainAudit.Decimal

open Float.Model Float.Model.UnpackedFloat

/-- The parts of a double that is taken apart already. -/
def Binary.ofUnpacked : UnpackedFloat → Binary
  | .infinity s => .infinite (s == .negative)
  | .notANumber => .nan
  | .zero s => .finite (s == .negative) 0 (-1074)
  | .finite s m e _ => .finite (s == .negative) m e

private theorem unpackMantissa_toNat (b : BitVec 64) :
    (@unpackMantissa Format.binary64 b).toNat = b.toNat % 2 ^ 52 := by
  simp [unpackMantissa]

private theorem unpackExponent_toNat (b : BitVec 64) :
    (@unpackExponent Format.binary64 b).toNat = b.toNat / 2 ^ 52 % 2 ^ 11 := by
  simp [unpackExponent, Nat.shiftRight_eq_div_pow]

private theorem unpackSign_toNat (b : BitVec 64) :
    (@unpackSign Format.binary64 b).toNat = b.toNat / 2 ^ 63 := by
  have hlt := b.isLt
  simp [unpackSign, Nat.shiftRight_eq_div_pow]
  omega

private theorem ofBitVec_negative (b : BitVec 1) : (Sign.ofBitVec b == .negative) = (b.toNat == 1) := by
  have hlt := b.isLt
  rcases Nat.lt_or_ge b.toNat 1 with h | h
  · obtain rfl : b = 0#1 := BitVec.eq_of_toNat_eq (show b.toNat = 0 by omega)
    rfl
  · obtain rfl : b = 1#1 := BitVec.eq_of_toNat_eq (show b.toNat = 1 by omega)
    rfl

private theorem leadingOne_toNat (v : BitVec 52) : (1#1 ++ v).toNat = 2 ^ 52 + v.toNat := by
  rw [BitVec.toNat_append, ← Nat.shiftLeft_add_eq_or_of_lt v.isLt]
  rfl

/-- The cases of taking a double apart, by its fields: `v` holds the mantissa without its leading
one, and `w` the exponent. -/
inductive OfFields (s : Sign) (v w : Nat) : UnpackedFloat → Prop where
  | infinity (hw : w = 2047) (hv : v = 0) : OfFields s v w (.infinity s)
  | notANumber (hw : w = 2047) (hv : v ≠ 0) : OfFields s v w .notANumber
  | zero (hw : w = 0) (hv : v = 0) : OfFields s v w (.zero s)
  | subnormal (hw : w = 0) (hv : 0 < v) : OfFields s v w (.finite s v (-1074) hv)
  | normal (hw : 0 < w) (hw' : w < 2047) (hm : 0 < 2 ^ 52 + v) :
      OfFields s v w (.finite s (2 ^ 52 + v) (w - 1075) hm)

private theorem unpack_ofFields (b : BitVec 64) :
    OfFields (.ofBitVec (@unpackSign Format.binary64 b))
      (@unpackMantissa Format.binary64 b).toNat
      (@unpackExponent Format.binary64 b).toNat (UnpackedFloat.unpack Format.binary64 b) := by
  have hw : (@unpackExponent Format.binary64 b).toNat < 2 ^ 11 :=
    (@unpackExponent Format.binary64 b).isLt
  have hinf : @unpackExponent Format.binary64 b = -1#11 ↔
      (@unpackExponent Format.binary64 b).toNat = 2047 := BitVec.toNat_inj.symm
  have hleast : @unpackExponent Format.binary64 b = 0#11 ↔
      (@unpackExponent Format.binary64 b).toNat = 0 := BitVec.toNat_inj.symm
  have hnone : @unpackMantissa Format.binary64 b = 0#52 ↔
      (@unpackMantissa Format.binary64 b).toNat = 0 := BitVec.toNat_inj.symm
  simp only [UnpackedFloat.unpack]
  split
  · rename_i hmost
    split
    · rename_i hzero
      exact .infinity (hinf.mp hmost) (hnone.mp hzero)
    · rename_i hsome
      exact .notANumber (hinf.mp hmost) (mt hnone.mpr hsome)
  · rename_i hless
    split
    · rename_i hlow
      split
      · rename_i hzero
        exact .zero (hleast.mp hlow) (hnone.mp hzero)
      · rename_i hsome
        simp only [hleast.mp hlow]
        exact .subnormal rfl (Nat.pos_of_ne_zero (mt hnone.mpr hsome))
    · rename_i hmore
      have hbelow := mt hinf.mpr hless
      simp only [leadingOne_toNat]
      exact .normal (Nat.pos_of_ne_zero (mt hleast.mpr hmore)) (by omega) _

theorem ofFloat_eq (x : Float) : Binary.ofFloat x = .ofUnpacked x.toModel.unpack := by
  have hfields : OfFields _ _ _ x.toModel.unpack := unpack_ofFields x.toModel.toBits.toBitVec
  have hsign := ofBitVec_negative (@unpackSign Format.binary64 x.toModel.toBits.toBitVec)
  have hbits : x.toBits.toNat = x.toModel.toBits.toBitVec.toNat := rfl
  rw [unpackMantissa_toNat, unpackExponent_toNat] at hfields
  rw [unpackSign_toNat] at hsign
  simp only [Binary.ofFloat, hbits, Nat.pow_eq, ← hsign]
  change (if _ / 2 ^ 52 % 2 ^ 11 = 2047 then _ else if _ / 2 ^ 52 % 2 ^ 11 = 0 then _ else _) = _
  generalize x.toModel.toBits.toBitVec.toNat % 2 ^ 52 = v at *
  generalize x.toModel.toBits.toBitVec.toNat / 2 ^ 52 % 2 ^ 11 = w at *
  generalize x.toModel.unpack = u at *
  cases hfields with
  | infinity hw hv => rw [if_pos hw, if_pos hv, Binary.ofUnpacked]
  | notANumber hw hv => rw [if_pos hw, if_neg hv, Binary.ofUnpacked]
  | zero hw hv => simp [Binary.ofUnpacked, hw, hv]
  | subnormal hw hv => simp [Binary.ofUnpacked, hw]
  | normal hw hw' hm => simp [Binary.ofUnpacked, hw.ne', hw'.ne]

/-- A mantissa and an exponent as doubles have them, but without a bound on the exponent: all binary
digits are in use unless the exponent is the least. -/
structure Fits (m : Nat) (e : Int) : Prop where
  short : m < 2 ^ 53
  least : -1074 ≤ e
  normal : 2 ^ 52 ≤ m ∨ e = -1074

theorem unpack_fits (x : Float) {s : Sign} {m : Nat} {e : Int} {hm : 0 < m}
    (h : x.toModel.unpack = .finite s m e hm) : Fits m e ∧ e ≤ 971 := by
  have hfields : OfFields _ _ _ x.toModel.unpack := unpack_ofFields x.toModel.toBits.toBitVec
  have hv : (@unpackMantissa Format.binary64 x.toModel.toBits.toBitVec).toNat < 2 ^ 52 :=
    (@unpackMantissa Format.binary64 x.toModel.toBits.toBitVec).isLt
  rw [h] at hfields
  cases hfields with
  | subnormal hw _ => exact ⟨⟨by omega, le_refl _, .inr rfl⟩, by omega⟩
  | normal hw hw' _ => exact ⟨⟨by omega, by omega, .inl (by omega)⟩, by omega⟩

private theorem components_ofFields (s : Sign) (w : BitVec 11) (v : BitVec 52) :
    OfFields s v.toNat w.toNat
      (UnpackedFloat.unpack Format.binary64 (packComponents Format.binary64 s w v)) := by
  have hfields := unpack_ofFields (packComponents Format.binary64 s w v)
  rwa [unpackSign_packComponents, Sign.ofBitVec_toBitVec, unpackMantissa_packComponents,
    unpackExponent_packComponents] at hfields

private theorem unpack_normal {s : Sign} {w v : Nat} (hw : 0 < w) (hw' : w < 2047) (hv : v < 2 ^ 52)
    (hm : 0 < 2 ^ 52 + v) :
    UnpackedFloat.unpack Format.binary64
        (packComponents Format.binary64 s (BitVec.ofNat 11 w) (BitVec.ofNat 52 v)) =
      .finite s (2 ^ 52 + v) (w - 1075) hm := by
  have hfields := components_ofFields s (BitVec.ofNat 11 w) (BitVec.ofNat 52 v)
  rw [BitVec.toNat_ofNat, BitVec.toNat_ofNat, Nat.mod_eq_of_lt hv,
    Nat.mod_eq_of_lt (show w < 2 ^ 11 by omega)] at hfields
  generalize UnpackedFloat.unpack Format.binary64 (packComponents _ _ _ _) = u at *
  cases hfields with
  | normal _ _ _ => rfl
  | infinity hw'' _ => exact absurd hw'' hw'.ne
  | notANumber hw'' _ => exact absurd hw'' hw'.ne
  | zero hw'' _ => exact absurd hw'' hw.ne'
  | subnormal hw'' _ => exact absurd hw'' hw.ne'

private theorem unpack_subnormal {s : Sign} {v : Nat} (hv : v < 2 ^ 52) (hm : 0 < v) :
    UnpackedFloat.unpack Format.binary64
        (packComponents Format.binary64 s 0#11 (BitVec.ofNat 52 v)) = .finite s v (-1074) hm := by
  have hfields := components_ofFields s 0#11 (BitVec.ofNat 52 v)
  rw [BitVec.toNat_ofNat, Nat.mod_eq_of_lt hv] at hfields
  generalize UnpackedFloat.unpack Format.binary64 (packComponents _ _ _ _) = u at *
  cases hfields with
  | subnormal _ _ => rfl
  | infinity hw _ => cases hw
  | notANumber hw _ => cases hw
  | zero _ hv' => exact absurd hv' hm.ne'
  | normal hw _ _ => cases hw

private theorem ofNat_mantissa {m : Nat} (hlow : 2 ^ 52 ≤ m) :
    BitVec.ofNat 52 m = BitVec.ofNat 52 (m - 2 ^ 52) := by
  apply BitVec.eq_of_toNat_eq
  rw [BitVec.toNat_ofNat, BitVec.toNat_ofNat]
  omega

private theorem unpack_pack_finite {s : Sign} {m : Nat} {e : Int} {hm : 0 < m} (h : Fits m e)
    (he : e ≤ 971) : (Float.Model.pack (.finite s m e hm)).unpack = .finite s m e hm := by
  have hleast := h.least
  have hshort := h.short
  change UnpackedFloat.unpack Format.binary64 (UnpackedFloat.pack Format.binary64 _) = _
  rw [UnpackedFloat.pack]
  dsimp only
  rw [if_neg (by simp [Format.exponentBias]; omega)]
  -- a double is normal if its mantissa has a leading one to drop
  split
  · rename_i hlog
    have hlow : 2 ^ 52 ≤ m := ((Nat.log2_eq_iff hm.ne').mp (Nat.succ.inj hlog)).1
    have hw : e + (Format.exponentBias Format.binary64 : Nat) + (52 : Nat) = e + 1075 := by
      simp [Format.exponentBias]
      omega
    have hexp : ((e + 1075).toNat : Int) - 1075 = e := by omega
    rw [hw, ofNat_mantissa hlow, unpack_normal (by omega) (by omega) (by omega) (by omega)]
    simp only [hexp, Nat.add_sub_cancel' hlow]
  · rename_i hlog
    have hlow : m < 2 ^ 52 := by
      by_contra hge
      exact hlog (congrArg Nat.succ ((Nat.log2_eq_iff hm.ne').mpr ⟨Nat.le_of_not_lt hge, hshort⟩))
    obtain rfl := h.normal.resolve_left (Nat.not_le_of_lt hlow)
    exact unpack_subnormal hlow hm

private theorem unpack_pack_overflow {s : Sign} {m : Nat} {e : Int} {hm : 0 < m} (he : 971 < e) :
    (Float.Model.pack (.finite s m e hm)).unpack = .infinity s := by
  change UnpackedFloat.unpack Format.binary64 (UnpackedFloat.pack Format.binary64 _) = _
  rw [UnpackedFloat.pack]
  dsimp only
  rw [if_pos (by simp [Format.exponentBias]; omega)]
  cases s <;> rfl

private theorem unpack_pack_zero (s : Sign) : (Float.Model.pack (.zero s)).unpack = .zero s := by
  cases s <;> rfl

theorem unpack_pack_infinity (s : Sign) :
    (Float.Model.pack (.infinity s)).unpack = .infinity s := by
  cases s <;> rfl

/-- What a double stands for that is taken apart and not negative, without a bound on its
exponent. -/
inductive Stands : UnpackedFloat → Rat → Prop where
  | zero (s : Sign) : Stands (.zero s) 0
  | finite {m : Nat} {e : Int} (h : Fits m e) (hm : 0 < m) :
      Stands (.finite .positive m e hm) (m * 2 ^ e)

theorem Fits.lt {m : Nat} {e : Int} (h : Fits m e) : (m : Rat) * 2 ^ e < 2 ^ (e + 53) := by
  have hshort := h.short
  calc (m : Rat) * 2 ^ e < (2 ^ 53 : Nat) * 2 ^ e := by gcongr
    _ = 2 ^ (e + 53) := (two_zpow_add e 53).symm

theorem Fits.le {m : Nat} {e : Int} (h : Fits m e) (he : -1074 < e) :
    (2 : Rat) ^ (e + 52) ≤ m * 2 ^ e := by
  have hlow := h.normal.resolve_right he.ne'
  calc (2 : Rat) ^ (e + 52) = (2 ^ 52 : Nat) * 2 ^ e := two_zpow_add e 52
    _ ≤ m * 2 ^ e := by gcongr

theorem Fits.exponent {m : Nat} {e : Int} (h : Fits m e) :
    e ≤ 971 ↔ (m : Rat) * 2 ^ e < 2 ^ (1024 : Int) := by
  constructor
  · intro he
    exact h.lt.trans_le (zpow_le_zpow_right₀ (by norm_num) (by omega))
  · intro hlt
    by_contra he
    have hle := h.le (by omega)
    have hpow : (2 : Rat) ^ (1024 : Int) ≤ 2 ^ (e + 52) :=
      zpow_le_zpow_right₀ (by norm_num) (by omega)
    exact absurd hlt (not_lt.mpr (hpow.trans hle))

/-- The double `x` stands for the number `q`, which is not negative. -/
def Worth (x : Float) (q : Rat) : Prop := Stands x.toModel.unpack q

variable {u : UnpackedFloat} {x : Float} {q : Rat}

theorem Stands.nonneg (h : Stands u q) : 0 ≤ q := by
  cases h with
  | zero s => exact le_refl _
  | finite h hm => positivity

theorem worth_pack (h : Stands u q) (hq : q < 2 ^ (1024 : Int)) : Worth (.ofModel (.pack u)) q := by
  change Stands (Float.Model.pack u).unpack q
  cases h with
  | zero s =>
    rw [unpack_pack_zero]
    exact .zero s
  | finite h hm =>
    rw [unpack_pack_finite h (h.exponent.mpr hq)]
    exact .finite h hm

theorem unpack_pack_beyond (h : Stands u q) (hq : 2 ^ (1024 : Int) ≤ q) :
    (Float.Model.pack u).unpack = .infinity .positive := by
  cases h with
  | zero s => exact absurd hq (not_le.mpr (by positivity))
  | finite h hm => exact unpack_pack_overflow (not_le.mp (mt h.exponent.mp (not_lt.mpr hq)))

theorem Worth.parts (h : Worth x q) :
    ∃ negative m e, Binary.ofFloat x = .finite negative m e ∧ (negative = true → m = 0) ∧
      q = m * 2 ^ e := by
  unfold Worth at h
  rw [ofFloat_eq]
  generalize x.toModel.unpack = u at h
  cases h with
  | zero s => exact ⟨_, 0, -1074, rfl, fun _ => rfl, by simp⟩
  | finite h hm => exact ⟨_, _, _, rfl, nofun, rfl⟩

end ChainAudit.Decimal
