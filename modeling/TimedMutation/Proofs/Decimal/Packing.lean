import TimedMutation.Proofs.Decimal.Rounding

/-!
The bits of a double above zero. They are the fields of its mantissa and its exponent, and both are read
off the bits again.
-/

namespace TimedMutation.Decimal

open Float.Model Float.Model.UnpackedFloat

/-- The exponent field of a double: none but the least exponent leaves the mantissa short. -/
def Dyadic.field (d : Dyadic) : ℕ := if d.mantissa < 2 ^ 52 then 0 else (d.exponent + 1075).toNat

/-- The double with this mantissa and this exponent. -/
def Dyadic.packed (d : Dyadic) (h : 0 < d.mantissa) : Float :=
  .ofModel (.pack (.finite .positive d.mantissa d.exponent h))

variable {d : Dyadic} {x : Float}

theorem Dyadic.Canonical.field_lt (hd : d.Canonical) : d.field < 2047 := by
  have := hd.greatest
  unfold field
  split <;> omega

theorem Dyadic.Canonical.pack (hd : d.Canonical) :
    UnpackedFloat.pack .binary64 (.finite .positive d.mantissa d.exponent hd.pos) =
      packComponents .binary64 .positive (BitVec.ofNat 11 d.field) (BitVec.ofNat 52 d.mantissa) := by
  have hexponent := hd.greatest
  have hbias : (d.exponent + (Format.binary64.exponentBias : ℕ) + (52 : ℕ)).toNat =
      (d.exponent + 1075).toNat := by
    have hvalue : Format.binary64.exponentBias = 1023 := rfl
    rw [hvalue]
    congr 1
    omega
  have hfits : ¬ 2 ^ 11 ≤ (d.exponent + 1075).toNat + 1 := by omega
  simp only [UnpackedFloat.pack, hbias, if_neg hfits, Format.mantissaBits, Dyadic.field]
  by_cases hshort : d.mantissa < 2 ^ 52
  · have hlog : ¬ d.mantissa.log2 + 1 = 1 + 52 := by
      have := (Nat.log2_lt hd.pos.ne').mpr hshort
      omega
    rw [if_neg hlog, if_pos hshort]
  · have hlog : d.mantissa.log2 + 1 = 1 + 52 := by
      have := (Nat.log2_lt hd.pos.ne').mpr hd.lt
      have := (Nat.le_log2 hd.pos.ne').mpr (not_lt.mp hshort)
      omega
    rw [if_pos hlog, if_neg hshort]

/-! ### From the bits to the number -/

theorem toNat_implicit (m : BitVec 52) : (1#1 ++ m).toNat = 2 ^ 52 + m.toNat := by
  rw [BitVec.toNat_append, ← Nat.shiftLeft_add_eq_or_of_lt m.isLt]
  rfl

theorem Dyadic.Canonical.unpack_packed (hd : d.Canonical) :
    (d.packed hd.pos).toModel.unpack = .finite .positive d.mantissa d.exponent hd.pos := by
  have hlt := hd.lt
  have hleast := hd.least
  have hbias : Format.binary64.exponentBias = 1023 := rfl
  have hfield : (BitVec.ofNat 11 d.field).toNat = d.field := by
    have := hd.field_lt
    simp only [BitVec.toNat_ofNat]
    omega
  have hnumber : BitVec.ofNat 11 d.field ≠ -1#_ := by
    intro hall
    have hmax : d.field = 2047 := hfield.symm.trans (congrArg BitVec.toNat hall)
    exact absurd hmax hd.field_lt.ne
  change UnpackedFloat.unpack .binary64 (UnpackedFloat.pack .binary64 _) = _
  rw [hd.pack]
  simp only [UnpackedFloat.unpack, unpackMantissa_packComponents, unpackExponent_packComponents,
    unpackSign_packComponents, if_neg hnumber, hfield, hbias]
  by_cases hshort : d.mantissa < 2 ^ 52
  · have hmantissa : (BitVec.ofNat 52 d.mantissa).toNat = d.mantissa := by
      simp only [BitVec.toNat_ofNat]
      omega
    have hnonzero : BitVec.ofNat 52 d.mantissa ≠ 0#_ := by
      intro hzero
      have hvalue : d.mantissa = 0 := hmantissa.symm.trans (congrArg BitVec.toNat hzero)
      exact absurd hvalue hd.pos.ne'
    have hzero : d.field = 0 := if_pos hshort
    have hexponent := hd.full hshort
    simp only [hzero, if_true, dif_neg hnonzero, hmantissa]
    congr 1
    omega
  · have hmantissa : (1#1 ++ BitVec.ofNat 52 d.mantissa).toNat = d.mantissa := by
      rw [toNat_implicit, BitVec.toNat_ofNat]
      omega
    have hvalue : d.field = (d.exponent + 1075).toNat := if_neg hshort
    have hnonzero : BitVec.ofNat 11 d.field ≠ 0#_ := by
      intro hzero
      have : d.field = 0 := hfield.symm.trans (congrArg BitVec.toNat hzero)
      omega
    simp only [if_neg hnonzero, hmantissa]
    congr 1
    omega

/-! ### From the number to the bits -/

/-- A double has three fields, which are read off its bits. -/
theorem exists_fields (x : Float) : ∃ (s : Sign) (e : BitVec 11) (m : BitVec 52),
    x.toModel.toBits.toBitVec = packComponents .binary64 s e m ∧
      m.toNat = x.toBits.toNat % 2 ^ 52 ∧ e.toNat = x.toBits.toNat / 2 ^ 52 % 2 ^ 11 ∧
      isNegative x = (s == .negative) := by
  have hpacked := @packComponents_unpackSign_unpackExponent_unpackMantissa .binary64
    x.toBits.toBitVec
  refine ⟨_, _, _, hpacked.symm, ?_, ?_, ?_⟩
  · simp [unpackMantissa_def, BitVec.extractLsb'_toNat]
  · simp [unpackExponent_def, BitVec.extractLsb'_toNat, Nat.shiftRight_eq_div_pow]
  · have hlt := x.toBits.toNat_lt
    have hsign : (@unpackSign .binary64 x.toBits.toBitVec).toNat = x.toBits.toNat / 2 ^ 63 := by
      simp only [unpackSign_def, BitVec.extractLsb'_toNat, Nat.shiftRight_eq_div_pow,
        UInt64.toNat_toBitVec, Nat.reduceAdd]
      omega
    have hbit : isNegative x = ((@unpackSign .binary64 x.toBits.toBitVec).toNat == 1) := by
      rw [hsign]
      rfl
    rw [hbit]
    generalize @unpackSign .binary64 x.toBits.toBitVec = b
    decide +revert

/-- What the bits of a double say is what the double is unpacked to. -/
theorem magnitude_spec (x : Float) :
    match x.toModel.unpack with
    | .notANumber => magnitude x = .nan
    | .infinity s => magnitude x = .infinite ∧ isNegative x = (s == .negative)
    | .zero s => magnitude x = .finite ⟨0, -1074⟩ ∧ isNegative x = (s == .negative)
    | .finite s m e _ =>
      magnitude x = .finite ⟨m, e⟩ ∧ isNegative x = (s == .negative) ∧ Dyadic.Canonical ⟨m, e⟩ := by
  obtain ⟨s, E, M, hbits, hmantissa, hexponent, hnegative⟩ := exists_fields x
  have hbias : Format.binary64.exponentBias = 1023 := rfl
  have hM := M.isLt
  have hE := E.isLt
  simp only [magnitude, Nat.pow_eq, ← hmantissa, ← hexponent, hnegative, Float.Model.unpack,
    UnpackedFloat.unpack, hbits, unpackMantissa_packComponents, unpackExponent_packComponents,
    unpackSign_packComponents, Sign.ofBitVec_toBitVec, hbias]
  by_cases hall : E = -1#11
  · subst hall
    by_cases hzero : M = 0#52
    · subst hzero
      exact ⟨rfl, rfl⟩
    · have hne : M.toNat ≠ 0 := fun h => hzero (BitVec.eq_of_toNat_eq h)
      simp [hzero, hne]
  · have hnumber : E.toNat ≠ 2047 := fun h => hall (BitVec.eq_of_toNat_eq h)
    simp only [if_neg hall, if_neg hnumber]
    by_cases hleast : E = 0#11
    · subst hleast
      by_cases hzero : M = 0#52
      · subst hzero
        exact ⟨rfl, rfl⟩
      · have hne : M.toNat ≠ 0 := fun h => hzero (BitVec.eq_of_toNat_eq h)
        simp only [if_true, dif_neg hzero]
        refine ⟨rfl, trivial, ⟨Nat.pos_of_ne_zero hne, ?_, ?_, ?_, fun _ => ?_⟩⟩
        all_goals simp only [BitVec.toNat_zero]
        all_goals omega
    · have hne : E.toNat ≠ 0 := fun h => hleast (BitVec.eq_of_toNat_eq h)
      simp only [if_neg hleast, if_neg hne, toNat_implicit]
      refine ⟨?_, trivial, ⟨?_, ?_, ?_, ?_, ?_⟩⟩
      · congr 2
        omega
      all_goals simp only
      all_goals omega

/-- A double is packed again from what it is unpacked to. -/
theorem ofModel_pack_unpack (x : Float) : Float.ofModel (.pack x.toModel.unpack) = x :=
  Float.ofBits_toBits x

/-- A finite double without a sign is zero, or it is packed from its magnitude. -/
theorem eq_zero_or_packed (hfinite : x.isFinite = true) (hsign : isNegative x = false) :
    (x = 0.0 ∧ magnitude x = .finite ⟨0, -1074⟩) ∨
      ∃ (d : Dyadic) (hd : d.Canonical), x = d.packed hd.pos ∧ magnitude x = .finite d := by
  have hspec := magnitude_spec x
  have hpack := ofModel_pack_unpack x
  have hnumber : x.toModel.unpack.isFinite = true := hfinite
  generalize x.toModel.unpack = u at *
  cases u with
  | notANumber => cases hnumber
  | infinity s => cases hnumber
  | zero s =>
    obtain ⟨hmagnitude, hnegative⟩ := hspec
    cases s with
    | negative => simp [hsign] at hnegative
    | positive => exact .inl ⟨hpack.symm, hmagnitude⟩
  | finite s m e h =>
    obtain ⟨hmagnitude, hnegative, hd⟩ := hspec
    cases s with
    | negative => simp [hsign] at hnegative
    | positive => exact .inr ⟨_, hd, hpack.symm, hmagnitude⟩

theorem pack_finite_positive (m : ℕ) (e : ℤ) (h : 0 < m) :
    ∃ E M, UnpackedFloat.pack .binary64 (.finite .positive m e h) =
      packComponents .binary64 .positive E M := by
  simp only [UnpackedFloat.pack]
  split
  · exact ⟨_, _, rfl⟩
  · split <;> exact ⟨_, _, rfl⟩

/-- Rounding a number above zero gives a double without a sign. -/
theorem isNegative_round (m : ℕ) (e : ℤ) (acc : Accuracy) :
    isNegative (.ofModel (.pack (roundWithAccuracy .binary64 .positive m e acc))) = false := by
  obtain ⟨E, M, hpack⟩ : ∃ E M,
      UnpackedFloat.pack .binary64 (roundWithAccuracy .binary64 .positive m e acc) =
        packComponents .binary64 .positive E M := by
    simp only [roundWithAccuracy]
    split
    · exact ⟨_, _, rfl⟩
    · exact pack_finite_positive _ _ _
  obtain ⟨s, E', M', hbits, -, -, hnegative⟩ :=
    exists_fields (.ofModel (.pack (roundWithAccuracy .binary64 .positive m e acc)))
  have hsign := congrArg unpackSign (hbits.symm.trans hpack)
  simp only [unpackSign_packComponents] at hsign
  rw [hnegative]
  cases s with
  | negative => cases hsign
  | positive => rfl

end TimedMutation.Decimal
