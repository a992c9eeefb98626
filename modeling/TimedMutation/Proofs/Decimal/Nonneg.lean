import Mathlib

/-! Doubles that are at least zero, and the sum of two of them. Such a double is not NaN. -/

namespace TimedMutation.Decimal

open Float.Model Float.Model.UnpackedFloat

/-- The floats that are at least zero: a zero of either sign, and what is positive. -/
inductive Nonneg : UnpackedFloat → Prop
  | zero (sign : Sign) : Nonneg (.zero sign)
  | finite (mantissa : ℕ) (exponent : ℤ) (hpos : 0 < mantissa) :
      Nonneg (.finite .positive mantissa exponent hpos)
  | infinity : Nonneg (.infinity .positive)

theorem nonneg_iff {x : UnpackedFloat} : Nonneg x ↔ (UnpackedFloat.zero .positive).le x = true := by
  constructor
  · rintro (_ | _ | _) <;> rfl
  · intro h
    cases x with
    | notANumber => cases h
    | zero sign => exact .zero sign
    | infinity sign =>
      cases sign with
      | negative => cases h
      | positive => exact .infinity
    | finite sign mantissa exponent hpos =>
      cases sign with
      | negative => cases h
      | positive => exact .finite mantissa exponent hpos

/-- Rounding keeps the sign of a positive number, which may become zero or infinite. -/
theorem nonneg_round (spec : Format) (mantissa : ℕ) (exponent : ℤ) :
    Nonneg (UnpackedFloat.round spec .positive mantissa exponent) := by
  simp only [UnpackedFloat.round, roundWithAccuracy]
  split
  · exact .zero .positive
  · exact .finite _ _ _

theorem Nonneg.add (spec : Format) {x y : UnpackedFloat} (hx : Nonneg x) (hy : Nonneg y) :
    Nonneg (x.add spec y) := by
  cases hx with
  | zero sign =>
    cases hy with
    | zero sign' => cases sign <;> cases sign' <;> exact .zero _
    | finite m e hpos => exact .finite m e hpos
    | infinity => exact .infinity
  | finite m e hpos =>
    cases hy with
    | zero sign => exact .finite m e hpos
    | infinity => exact .infinity
    | finite m' e' hpos' =>
      simp only [UnpackedFloat.add, Sign.apply, UnpackedFloat.normalize]
      split
      · rename_i hlt
        have hneg := Int.compare_eq_lt.mp hlt
        omega
      · exact .zero .positive
      · exact nonneg_round _ _ _
  | infinity =>
    cases hy with
    | zero | finite | infinity => exact .infinity

/-! ### Packed floats -/

/-- Bits with a positive sign are at least zero, unless their exponent is that of NaN. -/
theorem nonneg_unpack {spec : Format} {exponent : BitVec spec.exponentBits}
    {mantissa : BitVec spec.mantissaBitsWithoutImplicit} (h : exponent = -1#_ → mantissa = 0#_) :
    Nonneg (UnpackedFloat.unpack spec (packComponents spec .positive exponent mantissa)) := by
  simp only [UnpackedFloat.unpack, unpackMantissa_packComponents, unpackExponent_packComponents,
    unpackSign_packComponents]
  split
  · rename_i hexponent
    rw [if_pos (h hexponent)]
    exact .infinity
  · split
    · split
      · exact .zero _
      · exact .finite _ _ _
    · exact .finite _ _ _

theorem Nonneg.unpack_pack {x : UnpackedFloat} (h : Nonneg x) :
    Nonneg (Float.Model.pack x).unpack := by
  cases h with
  | zero sign =>
    have hzero : (Float.Model.pack (.zero sign)).unpack = .zero sign := unpack_packedZero
    rw [hzero]
    exact .zero sign
  | infinity => exact nonneg_unpack fun _ => rfl
  | finite m e hpos =>
    simp only [Float.Model.unpack, Float.Model.pack, UnpackedFloat.pack]
    split
    · exact nonneg_unpack fun _ => rfl
    · rename_i hfits
      split
      · refine nonneg_unpack fun hexponent => ?_
        have hlast : _ % 2 ^ 11 = 2 ^ 11 - 1 := congrArg BitVec.toNat hexponent
        omega
      · exact nonneg_unpack fun hexponent => by cases hexponent

/-! ### Doubles -/

theorem zero_le_iff {x : Float} : 0.0 ≤ x ↔ Nonneg x.toModel.unpack := by
  have hzero : (0.0 : Float).toModel.unpack = .zero .positive := rfl
  rw [nonneg_iff, ← hzero]
  exact decide_eq_true_iff

theorem zero_le_add {x y : Float} (hx : 0.0 ≤ x) (hy : 0.0 ≤ y) : 0.0 ≤ x + y := by
  have hsum := (zero_le_iff.mp hx).add .binary64 (zero_le_iff.mp hy)
  exact zero_le_iff.mpr hsum.unpack_pack

/-- A finite double that is not below zero is at least zero. -/
theorem zero_le_of_finite {x : Float} (hfinite : x.isFinite = true) (hx : ¬ x < 0.0) : 0.0 ≤ x := by
  rw [zero_le_iff]
  have hsign : ¬ x.toModel.unpack.lt (.zero .positive) = true := fun h =>
    hx (decide_eq_true_iff.mpr h)
  have hnumber : x.toModel.unpack.isFinite = true := hfinite
  cases h : x.toModel.unpack with
  | notANumber => simp [h, UnpackedFloat.isFinite] at hnumber
  | infinity sign => simp [h, UnpackedFloat.isFinite] at hnumber
  | zero sign => exact .zero sign
  | finite sign m e hpos =>
    cases sign with
    | negative => exact absurd (h ▸ rfl) hsign
    | positive => exact .finite m e hpos

end TimedMutation.Decimal
