import TimedMutation.Proofs.Decimal.Packing
import TimedMutation.Proofs.Text.Numeral

/-!
What a numeral is read as: the double that its value is near to. Products and quotients of doubles are
rounded once, and a numeral is read by one of them.
-/

namespace TimedMutation.Decimal

open Float.Model Float.Model.UnpackedFloat

/-- The number that a numeral writes. -/
def Numeral.value (n : Numeral) : ℚ := n.coefficient * 10 ^ n.exponent

/-- A double is what rounding makes of a number. -/
inductive Rounded : ℚ → Float → Prop
  | intro {m : ℕ} {e : ℤ} {acc : Accuracy} {f : ℚ} : Describes acc f → e ≤ lastPlace m e →
      Rounded ((m + f) * 2 ^ e) (.ofModel (.pack (roundWithAccuracy .binary64 .positive m e acc)))

variable {x : Float} {q : ℚ} {m m₁ m₂ c k : ℕ} {e e₁ e₂ : ℤ} {d d₁ d₂ : Dyadic} {n : Numeral}

theorem Rounded.isNegative (h : Rounded q x) : isNegative x = false := by
  cases h
  exact isNegative_round _ _ _

/-- The double that a number is near to is the one that it is rounded to. -/
theorem Rounded.eq_packed (h : Rounded q x) (hd : d.Canonical)
    (hnear : Near d.mantissa (q / 2 ^ d.exponent)) : x = d.packed hd.pos := by
  cases h with
  | intro hacc hplace =>
    rw [roundWithAccuracy_of_near hacc hplace hd hnear]
    rfl

theorem near_self (m : ℕ) : Near m m := by
  refine ⟨?_, ?_, fun _ => ⟨?_, ?_⟩, fun _ => ?_⟩ <;> linarith

/-! ### Products and quotients -/

/-- A mantissa of 53 bits or more has no place after the last one. -/
theorem le_lastPlace (h : 2 ^ 52 ≤ m) : e ≤ lastPlace m e := by
  have hlog := (Nat.le_log2 (by omega)).mpr h
  simp only [Format.targetExponent, totalExponent, Format.mantissaBits]
  omega

theorem rounded_mul (h₁ : 0 < m₁) (h₂ : 0 < m₂) (hlong : 2 ^ 52 ≤ m₁ * m₂) :
    Rounded (m₁ * 2 ^ e₁ * (m₂ * 2 ^ e₂)) (.ofModel (.pack (UnpackedFloat.mul .binary64
      (.finite .positive m₁ e₁ h₁) (.finite .positive m₂ e₂ h₂)))) := by
  have hexact : Describes .exact 0 := rfl
  have hproduct := Rounded.intro hexact (@le_lastPlace _ (e₁ + e₂) hlong)
  have hvalue : (m₁ : ℚ) * 2 ^ e₁ * (m₂ * 2 ^ e₂) = ((m₁ * m₂ : ℕ) + 0) * 2 ^ (e₁ + e₂) := by
    rw [zpow_add₀ two_ne_zero]
    push_cast
    ring
  rw [hvalue]
  exact hproduct

theorem describes_accuracyOfFraction {a b : ℕ} (h : a < b) :
    Describes (accuracyOfFraction a b) (a / b) := by
  have hb : (0 : ℚ) < b := by exact_mod_cast (by omega : 0 < b)
  unfold accuracyOfFraction
  split
  · rename_i hzero
    simp [Describes, hzero]
  · rename_i hne
    have ha : (0 : ℚ) < a := by exact_mod_cast Nat.pos_of_ne_zero hne
    have hpos : (0 : ℚ) < a / b := div_pos ha hb
    have hone : (a / b : ℚ) < 1 := (div_lt_one hb).mpr (by exact_mod_cast h)
    rcases hcompare : compare (2 * a) b with _ | _ | _
    · have hlt : (2 * a : ℚ) < b := by exact_mod_cast Nat.compare_eq_lt.mp hcompare
      exact ⟨hpos, by rw [div_lt_div_iff₀ hb two_pos]; linarith⟩
    · have heq : (2 * a : ℚ) = b := by exact_mod_cast Nat.compare_eq_eq.mp hcompare
      exact (div_eq_div_iff hb.ne' two_ne_zero).mpr (by linarith)
    · have hgt : (b : ℚ) < 2 * a := by exact_mod_cast Nat.compare_eq_gt.mp hcompare
      exact ⟨by rw [div_lt_div_iff₀ two_pos hb]; linarith, hone⟩

/-- The quotient is computed to at least as many places as it keeps. -/
theorem le_lastPlace_quotient (h₁ : 0 < m₁) (h₂ : 0 < m₂) {t : ℤ} (hte : t ≤ e₁ - e₂)
    (hplace : t ≤ Format.binary64.targetExponent (totalExponent m₁ e₁ - totalExponent m₂ e₂)) :
    t ≤ lastPlace ((m₁ <<< (e₁ - e₂ - t).toNat) / m₂) t := by
  rcases le_or_gt t (-1074) with hleast | hleast
  · exact hleast.trans (le_max_right _ _)
  · refine le_lastPlace ?_
    have hminimum : Format.binary64.minExponent = -1074 := rfl
    simp only [Format.targetExponent, totalExponent, Format.mantissaBits, hminimum] at hplace
    have hlog : m₂.log2 + 53 ≤ m₁.log2 + (e₁ - e₂ - t).toNat := by omega
    rw [Nat.le_div_iff_mul_le h₂, Nat.shiftLeft_eq]
    calc 2 ^ 52 * m₂ ≤ 2 ^ 52 * 2 ^ (m₂.log2 + 1) :=
          Nat.mul_le_mul_left _ Nat.lt_log2_self.le
      _ = 2 ^ (m₂.log2 + 53) := by rw [← Nat.pow_add]; congr 1; omega
      _ ≤ 2 ^ (m₁.log2 + (e₁ - e₂ - t).toNat) := Nat.pow_le_pow_right (by decide) hlog
      _ = 2 ^ m₁.log2 * 2 ^ (e₁ - e₂ - t).toNat := Nat.pow_add _ _ _
      _ ≤ m₁ * 2 ^ (e₁ - e₂ - t).toNat := Nat.mul_le_mul_right _ (Nat.log2_self_le h₁.ne')

theorem div_add_mod_div (a : ℕ) {b : ℕ} (hb : 0 < b) :
    ((a / b : ℕ) : ℚ) + ((a % b : ℕ) : ℚ) / b = a / b := by
  have hne : (b : ℚ) ≠ 0 := by exact_mod_cast hb.ne'
  rw [eq_div_iff hne, add_mul, div_mul_cancel₀ _ hne]
  exact_mod_cast Nat.div_add_mod' a b

theorem rounded_div (h₁ : 0 < m₁) (h₂ : 0 < m₂) :
    Rounded (m₁ * 2 ^ e₁ / (m₂ * 2 ^ e₂)) (.ofModel (.pack (UnpackedFloat.div .binary64
      (.finite .positive m₁ e₁ h₁) (.finite .positive m₂ e₂ h₂)))) := by
  simp only [UnpackedFloat.div, divCore]
  generalize hplace : min (e₁ - e₂) (Format.binary64.targetExponent
    (totalExponent m₁ e₁ - totalExponent m₂ e₂)) = t
  have hte : t ≤ e₁ - e₂ := hplace ▸ min_le_left _ _
  have hkeeps := le_lastPlace_quotient h₁ h₂ hte (hplace ▸ min_le_right _ _)
  have hrounded := Rounded.intro (describes_accuracyOfFraction
    (Nat.mod_lt (m₁ <<< (e₁ - e₂ - t).toNat) h₂)) hkeeps
  have hscale : (2 : ℚ) ^ (e₁ - e₂ - t).toNat * 2 ^ t = 2 ^ e₁ / 2 ^ e₂ := by
    rw [← zpow_natCast, ← zpow_add₀ two_ne_zero, ← zpow_sub₀ two_ne_zero]
    congr 1
    omega
  have hvalue : (m₁ * 2 ^ e₁ / (m₂ * 2 ^ e₂) : ℚ) = (m₁ <<< (e₁ - e₂ - t).toNat : ℕ) / m₂ * 2 ^ t := by
    rw [Nat.shiftLeft_eq, div_mul_eq_mul_div]
    push_cast
    rw [mul_assoc, hscale, ← mul_div_assoc, div_div, mul_comm (_ : ℚ) (m₂ : ℚ)]
  rw [hvalue, ← div_add_mod_div _ h₂]
  exact hrounded

/-! ### Doubles that hold a number exactly -/

/-- The double `c * 2 ^ k` of a number `c` that has at most 53 bits. -/
def Dyadic.exact (c k : ℕ) : Dyadic := ⟨c <<< (52 - c.log2), k + c.log2 - 52⟩

theorem Dyadic.le_mantissa_exact (hc : 0 < c) : 2 ^ 52 ≤ (Dyadic.exact c k).mantissa := by
  simp only [exact, Nat.shiftLeft_eq]
  calc 2 ^ 52 ≤ 2 ^ (c.log2 + (52 - c.log2)) := Nat.pow_le_pow_right (by decide) (by omega)
    _ = 2 ^ c.log2 * 2 ^ (52 - c.log2) := Nat.pow_add _ _ _
    _ ≤ c * 2 ^ (52 - c.log2) := Nat.mul_le_mul_right _ (Nat.log2_self_le hc.ne')

theorem Dyadic.canonical_exact (hc : 0 < c) (hbits : c < 2 ^ 53) (hk : k ≤ 22) :
    (Dyadic.exact c k).Canonical := by
  have hlog : c.log2 < 53 := (Nat.log2_lt hc.ne').mpr hbits
  have hle := Dyadic.le_mantissa_exact (k := k) hc
  refine ⟨by omega, ?_, ?_, ?_, by omega⟩
  · simp only [exact, Nat.shiftLeft_eq]
    calc c * 2 ^ (52 - c.log2) < 2 ^ (c.log2 + 1) * 2 ^ (52 - c.log2) :=
          Nat.mul_lt_mul_of_pos_right Nat.lt_log2_self (Nat.two_pow_pos _)
      _ = 2 ^ 53 := by rw [← Nat.pow_add]; congr 1; omega
  all_goals simp only [exact]
  all_goals omega

theorem Dyadic.value_exact (hc : 0 < c) (hbits : c < 2 ^ 53) :
    ((Dyadic.exact c k).mantissa : ℚ) * 2 ^ (Dyadic.exact c k).exponent = c * 2 ^ k := by
  have hlog : c.log2 < 53 := (Nat.log2_lt hc.ne').mpr hbits
  simp only [exact, Nat.shiftLeft_eq]
  push_cast
  rw [mul_assoc, ← zpow_natCast, ← zpow_natCast, ← zpow_add₀ two_ne_zero]
  congr 2
  omega

theorem Dyadic.Canonical.rounded (hd : d.Canonical) (h : d.exponent ≤ lastPlace d.mantissa d.exponent) :
    roundWithAccuracy .binary64 .positive d.mantissa d.exponent .exact =
      .finite .positive d.mantissa d.exponent hd.pos := by
  have hexact : Describes .exact 0 := rfl
  refine roundWithAccuracy_of_near hexact h hd ?_
  rw [add_zero, mul_div_cancel_right₀ _ (by positivity)]
  exact near_self _

theorem toFloat_eq_packed (hc : 0 < c) (hbits : c < 2 ^ 53) :
    c.toUInt64.toFloat =
      (Dyadic.exact c 0).packed (Dyadic.canonical_exact hc hbits (Nat.zero_le 22)).pos := by
  have hd := Dyadic.canonical_exact hc hbits (Nat.zero_le 22)
  have hlog : c.log2 < 53 := (Nat.log2_lt hc.ne').mpr hbits
  have hplace : lastPlace c 0 = (c.log2 : ℤ) - 52 := by
    simp only [Format.targetExponent, totalExponent, Format.mantissaBits, Format.minExponent]
    omega
  have hshift : (0 - ((c.log2 : ℤ) - 52)).toNat = 52 - c.log2 := by omega
  have hexponent : (0 : ℤ) - (52 - c.log2 : ℕ) = (Dyadic.exact c 0).exponent := by
    simp only [Dyadic.exact]
    omega
  have hword : c.toUInt64.toNat = c := Nat.mod_eq_of_lt (by omega)
  have hround : UnpackedFloat.round .binary64 .positive c 0 =
      .finite .positive (Dyadic.exact c 0).mantissa (Dyadic.exact c 0).exponent hd.pos := by
    rw [← hd.rounded (le_lastPlace (Dyadic.le_mantissa_exact hc))]
    simp only [UnpackedFloat.round, hplace, decreaseExponent, hshift, hexponent]
    rfl
  have hnormal : UnpackedFloat.ofUInt64 .binary64 c.toUInt64 =
      .finite .positive (Dyadic.exact c 0).mantissa (Dyadic.exact c 0).exponent hd.pos := by
    have hpositive : compare ((c : ℕ) : ℤ) 0 = .gt := Int.compare_eq_gt.mpr (by omega)
    rw [← hround]
    simp only [UnpackedFloat.ofUInt64, UnpackedFloat.ofNat, UnpackedFloat.ofInt,
      UnpackedFloat.normalize, hword, hpositive, Int.toNat_natCast]
  exact congrArg (fun u => Float.ofModel (.pack u)) hnormal

theorem size_powersOfTen : Float.exactlyRepresentablePowersOfTen.size = 23 := rfl

/-- A power of ten in the table has at most 53 bits besides its twos. -/
theorem powersOfTen_eq_packed (hk : k ≤ 22) (hbits : 5 ^ k < 2 ^ 53)
    (hsize : k < Float.exactlyRepresentablePowersOfTen.size) :
    Float.exactlyRepresentablePowersOfTen[k] =
      (Dyadic.exact (5 ^ k) k).packed (Dyadic.canonical_exact (by positivity) hbits hk).pos := by
  interval_cases k <;> rfl

/-! ### Numerals -/

theorem Rounded.mul_packed (h₁ : d₁.Canonical) (h₂ : d₂.Canonical) (hlong : 2 ^ 52 ≤ d₁.mantissa) :
    Rounded (d₁.mantissa * 2 ^ d₁.exponent * (d₂.mantissa * 2 ^ d₂.exponent))
      (d₁.packed h₁.pos * d₂.packed h₂.pos) := by
  have hproduct : d₁.packed h₁.pos * d₂.packed h₂.pos = .ofModel (.pack (UnpackedFloat.mul .binary64
      (d₁.packed h₁.pos).toModel.unpack (d₂.packed h₂.pos).toModel.unpack)) := rfl
  rw [hproduct, h₁.unpack_packed, h₂.unpack_packed]
  exact rounded_mul h₁.pos h₂.pos (hlong.trans (Nat.le_mul_of_pos_right _ h₂.pos))

theorem Rounded.div_packed (h₁ : d₁.Canonical) (h₂ : d₂.Canonical) :
    Rounded (d₁.mantissa * 2 ^ d₁.exponent / (d₂.mantissa * 2 ^ d₂.exponent))
      (d₁.packed h₁.pos / d₂.packed h₂.pos) := by
  have hquotient : d₁.packed h₁.pos / d₂.packed h₂.pos = .ofModel (.pack (UnpackedFloat.div .binary64
      (d₁.packed h₁.pos).toModel.unpack (d₂.packed h₂.pos).toModel.unpack)) := rfl
  rw [hquotient, h₁.unpack_packed, h₂.unpack_packed]
  exact rounded_div h₁.pos h₂.pos

theorem five_pow_lt (hk : k ≤ 22) : 5 ^ k < 2 ^ 53 :=
  (Nat.pow_le_pow_right (by decide) hk).trans_lt (by decide)

theorem value_exact_five_pow (hk : k ≤ 22) :
    ((Dyadic.exact (5 ^ k) k).mantissa : ℚ) * 2 ^ (Dyadic.exact (5 ^ k) k).exponent = 10 ^ k := by
  rw [Dyadic.value_exact (by positivity) (five_pow_lt hk)]
  push_cast
  rw [← mul_pow]
  norm_num

/-- A short numeral is a product or a quotient of two exact doubles. -/
theorem rounded_short (hc : 0 < c) (hbits : c < 2 ^ 53) (hk : k ≤ 22) :
    Rounded (c * 10 ^ k) (.ofScientific c false k) ∧ Rounded (c / 10 ^ k) (.ofScientific c true k) := by
  have hd := Dyadic.canonical_exact hc hbits (Nat.zero_le 22)
  have hpower := Dyadic.canonical_exact (by positivity) (five_pow_lt hk) hk
  have hvalue : ((Dyadic.exact c 0).mantissa : ℚ) * 2 ^ (Dyadic.exact c 0).exponent = c := by
    rw [Dyadic.value_exact hc hbits, pow_zero, mul_one]
  have hsize : k < Float.exactlyRepresentablePowersOfTen.size := size_powersOfTen ▸ Nat.lt_succ_of_le hk
  have hproduct := Rounded.mul_packed hd hpower (Dyadic.le_mantissa_exact hc)
  have hquotient := Rounded.div_packed hd hpower
  rw [hvalue, value_exact_five_pow hk, ← toFloat_eq_packed hc hbits,
    ← powersOfTen_eq_packed hk (five_pow_lt hk) hsize] at hproduct hquotient
  simp only [Float.ofScientific, dif_pos (And.intro hbits hk)]
  exact ⟨hproduct, hquotient⟩

/-- A long numeral is a product or a quotient with more places than a double has. -/
theorem rounded_long (hc : 0 < c) (hhigh : e ≤ 2048) (hlow : -2048 ≤ e + c.log2) :
    Rounded (c * 10 ^ e) (.ofModel (.ofScientific c e)) := by
  have hhigh' : ¬ e > 2 ^ 11 := by omega
  have hlow' : ¬ e < -((2 ^ 11 : ℤ) + c.log2) := by omega
  have hbits : Format.binary64.mantissaBits = 53 := rfl
  simp only [Float.Model.ofScientific, UnpackedFloat.ofScientific, dif_neg hc.ne', if_neg hhigh',
    if_neg hlow', hbits]
  split
  · rename_i hnonneg
    obtain ⟨k, rfl⟩ := Int.eq_ofNat_of_zero_le hnonneg
    have hlong : 2 ^ 52 ≤ (c <<< 53) * 10 ^ k := by
      rw [Nat.shiftLeft_eq]
      calc 2 ^ 52 ≤ c * 2 ^ 53 * 1 := by omega
        _ ≤ c * 2 ^ 53 * 10 ^ k := Nat.mul_le_mul_left _ (Nat.one_le_pow _ _ (by decide))
    have hvalue : (c * 10 ^ (k : ℤ) : ℚ) =
        (c <<< 53 : ℕ) * 2 ^ (-53 : ℤ) * ((10 ^ k : ℕ) * 2 ^ (0 : ℤ)) := by
      rw [Nat.shiftLeft_eq]
      push_cast
      norm_num
      ring
    rw [hvalue]
    exact rounded_mul (Nat.shiftLeft_pos_iff.mpr hc) (by positivity) hlong
  · obtain ⟨k, hk⟩ := Int.eq_ofNat_of_zero_le (by omega : 0 ≤ -e)
    obtain rfl : e = -k := by omega
    have hvalue : (c * 10 ^ (-(k : ℤ)) : ℚ) = c * 2 ^ (0 : ℤ) / ((10 ^ k : ℕ) * 2 ^ (0 : ℤ)) := by
      push_cast
      rw [zpow_neg, zpow_natCast, div_eq_mul_inv]
      norm_num
    rw [hvalue]
    simp only [neg_neg, Int.toNat_natCast]
    exact rounded_div hc (by positivity)

/-- A numeral that starts not too far from its decimal point is rounded once. -/
theorem rounded_ofScientific (hc : 0 < c) (hk : k ≤ c.log2 + 2048) :
    (k ≤ 2048 → Rounded (c * 10 ^ k) (.ofScientific c false k)) ∧
      Rounded (c / 10 ^ k) (.ofScientific c true k) := by
  by_cases hshort : c < 2 ^ 53 ∧ k ≤ 22
  · obtain ⟨hproduct, hquotient⟩ := rounded_short hc hshort.1 hshort.2
    exact ⟨fun _ => hproduct, hquotient⟩
  · simp only [Float.ofScientific, dif_neg hshort]
    refine ⟨fun hk' => ?_, ?_⟩
    · have hlong := @rounded_long c k hc (by omega) (by omega)
      rwa [zpow_natCast] at hlong
    · have hlong := @rounded_long c (-k) hc (by omega) (by omega)
      rwa [zpow_neg, zpow_natCast, ← div_eq_mul_inv] at hlong

theorem digits_bounds (hc : 0 < c) :
    10 ^ ((Text.ofNat c).length - 1) ≤ c ∧ c < 10 ^ (Text.ofNat c).length := by
  have hpos : 0 < (Text.ofNat c).length := Nat.length_repr_pos
  have hdigits : ∀ {k : ℕ}, 0 < k → ((Text.ofNat c).length ≤ k ↔ c < 10 ^ k) := Nat.length_repr_le_iff
  refine ⟨?_, (hdigits hpos).mp le_rfl⟩
  by_contra hlt
  rcases Nat.eq_zero_or_pos ((Text.ofNat c).length - 1) with hone | hmore
  · rw [hone] at hlt
    omega
  · have hshorter := (hdigits hmore).mpr (not_le.mp hlt)
    omega

theorem Numeral.rounded_toFloat (hc : 0 < n.coefficient)
    (hlow : -400 ≤ n.exponent + (Text.ofNat n.coefficient).length)
    (hhigh : n.exponent + (Text.ofNat n.coefficient).length ≤ 400) : Rounded n.value n.toFloat := by
  obtain ⟨c, e⟩ := n
  simp only at hc hlow hhigh
  have hlog : (Text.ofNat c).length - 1 ≤ c.log2 := by
    rw [Nat.le_log2 hc.ne']
    exact (Nat.pow_le_pow_left (by decide) _).trans (digits_bounds hc).1
  simp only [Numeral.toFloat, Numeral.value, if_neg hc.ne', if_neg (not_lt.mpr hhigh),
    if_neg (not_lt.mpr hlow)]
  split
  · obtain ⟨k, rfl⟩ := Int.eq_ofNat_of_zero_le ‹_›
    rw [zpow_natCast, Int.toNat_natCast]
    exact (rounded_ofScientific hc (by omega)).1 (by omega)
  · obtain ⟨k, hk⟩ := Int.eq_ofNat_of_zero_le (by omega : 0 ≤ -e)
    obtain rfl : e = -k := by omega
    rw [neg_neg, Int.toNat_natCast, zpow_neg, zpow_natCast, ← div_eq_mul_inv]
    exact (rounded_ofScientific hc (by omega)).2

/-- A numeral is read as a double without a sign. -/
theorem Numeral.isNegative_toFloat (n : Numeral) : Decimal.isNegative n.toFloat = false := by
  have hzero : Decimal.isNegative 0.0 = false := rfl
  have hinfinite : Decimal.isNegative (1.0 / 0.0) = false := rfl
  by_cases hc : n.coefficient = 0
  · simp only [Numeral.toFloat, if_pos hc, hzero]
  · by_cases hhigh : 400 < n.exponent + (Text.ofNat n.coefficient).length
    · simp only [Numeral.toFloat, if_neg hc, if_pos hhigh, hinfinite]
    · by_cases hlow : n.exponent + (Text.ofNat n.coefficient).length < -400
      · simp only [Numeral.toFloat, if_neg hc, if_neg hhigh, if_pos hlow, hzero]
      · exact (n.rounded_toFloat (Nat.pos_of_ne_zero hc) (not_lt.mp hlow) (not_lt.mp hhigh)).isNegative

theorem two_pow_le_ten_pow : (2 : ℚ) ^ 1100 ≤ 10 ^ 400 := by
  calc (2 : ℚ) ^ 1100 = (2 ^ 11) ^ 100 := pow_mul 2 11 100
    _ ≤ (10 ^ 4) ^ 100 := pow_le_pow_left₀ (by norm_num) (by norm_num) 100
    _ = 10 ^ 400 := (pow_mul 10 4 100).symm

/-- What is near to a double lies between `10 ^ -400` and `10 ^ 400`. -/
theorem Dyadic.Canonical.near_bounds (hd : d.Canonical) (hnear : Near d.mantissa (q / 2 ^ d.exponent)) :
    (10 : ℚ) ^ (-400 : ℤ) ≤ q ∧ q < 10 ^ (400 : ℤ) := by
  have hleast := hd.least
  have hgreatest := hd.greatest
  have hpos : (0 : ℚ) < 2 ^ d.exponent := by positivity
  have hone : (1 : ℚ) ≤ d.mantissa := by exact_mod_cast hd.pos
  have hmax : (d.mantissa + 1 : ℚ) ≤ 2 ^ 53 := by exact_mod_cast hd.lt
  constructor
  · calc (10 : ℚ) ^ (-400 : ℤ) ≤ 2 ^ (-1100 : ℤ) := by
          rw [zpow_neg, zpow_neg]
          exact inv_anti₀ (by positivity) two_pow_le_ten_pow
      _ ≤ 2 ^ (d.exponent - 1) := zpow_le_zpow_right₀ one_le_two (by omega)
      _ = 1 / 2 * 2 ^ d.exponent := by rw [zpow_sub_one₀ two_ne_zero, mul_comm, one_div]
      _ ≤ (d.mantissa - 1 / 2) * 2 ^ d.exponent := mul_le_mul_of_nonneg_right (by linarith) hpos.le
      _ ≤ q := (le_div_iff₀ hpos).mp hnear.low
  · calc q ≤ (d.mantissa + 1 / 2) * 2 ^ d.exponent := (div_le_iff₀ hpos).mp hnear.high
      _ < 2 ^ 53 * 2 ^ d.exponent := mul_lt_mul_of_pos_right (by linarith) hpos
      _ = 2 ^ (53 + d.exponent) := (zpow_add₀ two_ne_zero 53 d.exponent).symm
      _ ≤ 2 ^ (1100 : ℤ) := zpow_le_zpow_right₀ one_le_two (by omega)
      _ ≤ 10 ^ (400 : ℤ) := two_pow_le_ten_pow

/-- A numeral is read as the double that it is near to. -/
theorem Numeral.toFloat_eq_packed (hd : d.Canonical)
    (hnear : Near d.mantissa (n.value / 2 ^ d.exponent)) : n.toFloat = d.packed hd.pos := by
  obtain ⟨hlow, hhigh⟩ := hd.near_bounds hnear
  have hpower : (0 : ℚ) < 10 ^ n.exponent := by positivity
  have hc : 0 < n.coefficient := by
    rcases Nat.eq_zero_or_pos n.coefficient with hzero | hpos
    · have hvalue : n.value = 0 := by simp [Numeral.value, hzero]
      have hpositive : (0 : ℚ) < 10 ^ (-400 : ℤ) := by positivity
      linarith
    · exact hpos
  obtain ⟨hfirst, hlast⟩ := digits_bounds hc
  generalize hl : (Text.ofNat n.coefficient).length = l at hfirst hlast
  have hl' : 0 < l := by
    by_contra hnone
    obtain rfl : l = 0 := by omega
    omega
  -- The first digit stands for a power of ten that is not above the value.
  have hfirst' : (10 : ℚ) ^ (n.exponent + l - 1) ≤ n.value := by
    calc (10 : ℚ) ^ (n.exponent + l - 1) = 10 ^ (l - 1) * 10 ^ n.exponent := by
          rw [← zpow_natCast, ← zpow_add₀ (by norm_num)]
          congr 1
          omega
      _ ≤ n.value := mul_le_mul_of_nonneg_right (by exact_mod_cast hfirst) hpower.le
  have hlast' : n.value < 10 ^ (n.exponent + l) := by
    calc n.value < 10 ^ l * 10 ^ n.exponent :=
          mul_lt_mul_of_pos_right (by exact_mod_cast hlast) hpower
      _ = 10 ^ (n.exponent + l) := by
          rw [← zpow_natCast, ← zpow_add₀ (by norm_num), add_comm]
  have hafter : -400 < n.exponent + l :=
    (zpow_lt_zpow_iff_right₀ (by norm_num : (1 : ℚ) < 10)).mp (hlow.trans_lt hlast')
  have hbefore : n.exponent + l - 1 < 400 :=
    (zpow_lt_zpow_iff_right₀ (by norm_num : (1 : ℚ) < 10)).mp (hfirst'.trans_lt hhigh)
  exact (n.rounded_toFloat hc (by omega) (by omega)).eq_packed hd hnear

end TimedMutation.Decimal
