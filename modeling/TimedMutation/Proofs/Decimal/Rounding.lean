import Mathlib
import TimedMutation.Decimal.Shortest

/-!
The double nearest to a positive number. It is determined by the interval of numbers around the double
that are read as it, however the number was given to the rounding.
-/

namespace TimedMutation.Decimal

open Float.Model Float.Model.UnpackedFloat

/-- The exponent of the last place that a double keeps of `m * 2 ^ e`. -/
abbrev lastPlace (m : ℕ) (e : ℤ) : ℤ := Format.binary64.targetExponent (totalExponent m e)

/-- The form of a double above zero: it has 53 bits, or fewer and the least exponent. -/
structure Dyadic.Canonical (d : Dyadic) : Prop where
  pos : 0 < d.mantissa
  lt : d.mantissa < 2 ^ 53
  least : -1074 ≤ d.exponent
  greatest : d.exponent ≤ 971
  full : d.mantissa < 2 ^ 52 → d.exponent = -1074

/-- A number, counted in units of the last place of a double, is read as the double. An odd mantissa
leaves the ends to its neighbours. Below the least mantissa of 53 bits doubles are twice as dense. -/
structure Near (m : ℕ) (x : ℚ) : Prop where
  low : m - 1 / 2 ≤ x
  high : x ≤ m + 1 / 2
  odd : m % 2 = 1 → m - 1 / 2 < x ∧ x < m + 1 / 2
  dense : m = 2 ^ 52 → m - 1 / 4 ≤ x

/-! ### Residual bits -/

/-- What an accuracy says of the part of a unit that lies above a mantissa. -/
def Describes : Accuracy → ℚ → Prop
  | .exact, f => f = 0
  | .inexact .lt, f => 0 < f ∧ f < 1 / 2
  | .inexact .eq, f => f = 1 / 2
  | .inexact .gt, f => 1 / 2 < f ∧ f < 1

/-- A mantissa and its residual bits describe a number. -/
def Represents (em : ExtendedMantissa) (x : ℚ) : Prop := Describes em.accuracy (x - em.mantissa)

variable {acc : Accuracy} {em : ExtendedMantissa} {f x : ℚ} {m : ℕ} {e t : ℤ}

theorem Describes.nonneg (h : Describes acc f) : 0 ≤ f := by
  rcases acc with _ | _ | _ | _ <;> simp only [Describes] at h <;> linarith

theorem Describes.lt_one (h : Describes acc f) : f < 1 := by
  rcases acc with _ | _ | _ | _ <;> simp only [Describes] at h <;> linarith

theorem Represents.of_describes (h : Describes acc f) (m : ℕ) :
    Represents (.ofMantissaAndAccuracy m acc) (m + f) := by
  rcases acc with _ | _ | _ | _ <;>
    simpa [Represents, Describes, ExtendedMantissa.ofMantissaAndAccuracy,
      ExtendedMantissa.accuracy] using h

theorem Represents.shiftRightOne (h : Represents em x) : Represents em.shiftRightOne (x / 2) := by
  rcases em with ⟨m, round, sticky⟩
  have hbit : (m : ℚ) = 2 * (m / 2 : ℕ) + (m % 2 : ℕ) := by
    exact_mod_cast (Nat.div_add_mod m 2).symm
  have hone : (1 != 0) = true := rfl
  rcases Nat.mod_two_eq_zero_or_one m with hm | hm <;> rw [hm] at hbit <;>
    cases round <;> cases sticky <;>
    simp only [Represents, Describes, ExtendedMantissa.shiftRightOne, ExtendedMantissa.accuracy, hm,
      hone, bne_self_eq_false, Bool.or_false, Bool.or_true, Nat.cast_zero, Nat.cast_one]
      at h hbit ⊢ <;>
    first
    | linarith
    | constructor <;> linarith

theorem Represents.shiftRight (h : Represents em x) (n : ℕ) : Represents (em >>> n) (x / 2 ^ n) := by
  change Represents (n.repeat ExtendedMantissa.shiftRightOne em) _
  induction n with
  | zero => simpa [Nat.repeat] using h
  | succ n ih => simpa only [Nat.repeat, pow_succ, div_mul_eq_div_div] using ih.shiftRightOne

/-- Rounding takes the mantissa that the number is near to. -/
theorem Represents.roundedMantissa (h : Represents em x) (hlow : m - 1 / 2 ≤ x)
    (hhigh : x ≤ m + 1 / 2) (hodd : m % 2 = 1 → m - 1 / 2 < x ∧ x < m + 1 / 2) :
    em.roundedMantissa = m := by
  rcases em with ⟨k, round, sticky⟩
  have hle : (m : ℚ) < k + 1 → m ≤ k := fun hlt => by
    have : m < k + 1 := by exact_mod_cast hlt
    omega
  have hge : (k : ℚ) < m + 1 → k ≤ m := fun hlt => by
    have : k < m + 1 := by exact_mod_cast hlt
    omega
  cases round <;> cases sticky <;>
    simp only [Represents, Describes, ExtendedMantissa.accuracy] at h <;>
    simp only [ExtendedMantissa.roundedMantissa, ExtendedMantissa.accuracy,
      Accuracy.roundToNearestEven]
  case false.false => exact Nat.le_antisymm (hge (by linarith)) (hle (by linarith))
  case false.true => exact Nat.le_antisymm (hge (by linarith)) (hle (by linarith))
  case true.false =>
    -- Halfway between two mantissas the even one has it.
    have hkm := hge (by linarith)
    have hmk : m < k + 2 := by exact_mod_cast (by linarith : (m : ℚ) < k + 2)
    rcases Nat.mod_two_eq_zero_or_one m with heven | hm
    · rcases Nat.eq_or_lt_of_le hkm with rfl | hlt <;> omega
    · obtain ⟨hlow', hhigh'⟩ := hodd hm
      have hlt : k < m := by exact_mod_cast (by linarith : (k : ℚ) < m)
      have hmk' : m < k + 1 := by exact_mod_cast (by linarith : (m : ℚ) < k + 1)
      omega
  case true.true =>
    have hlt : k < m := by exact_mod_cast (by linarith : (k : ℚ) < m)
    have hmk : m < k + 2 := by exact_mod_cast (by linarith : (m : ℚ) < k + 2)
    omega

/-! ### The last place -/

theorem shiftToExponent_exponent (h : e ≤ t) : (shiftToExponent m e acc t).2 = t := by
  simp only [shiftToExponent]
  omega

theorem represents_shiftToExponent (hacc : Describes acc f) (h : e ≤ t) :
    Represents (shiftToExponent m e acc t).1 ((m + f) * 2 ^ e / 2 ^ t) := by
  have hplaces : (2 : ℚ) ^ t = 2 ^ e * 2 ^ (t - e).toNat := by
    rw [← zpow_natCast, ← zpow_add₀ two_ne_zero]
    congr 1
    omega
  have hpos : (0 : ℚ) < 2 ^ e := by positivity
  have hshift := (Represents.of_describes hacc m).shiftRight (t - e).toNat
  rw [hplaces, mul_comm, mul_div_mul_left _ _ hpos.ne']
  exact hshift

/-- The last place leaves no more than 53 bits, and as many unless it is the least one. -/
theorem lastPlace_bounds (hf : 0 ≤ f) (hf' : f < 1) (h : e ≤ lastPlace m e) :
    (m + f) * 2 ^ e < 2 ^ 53 * 2 ^ lastPlace m e ∧
      (lastPlace m e = -1074 ∨ 2 ^ 52 * 2 ^ lastPlace m e ≤ (m + f) * 2 ^ e) := by
  have hplace : lastPlace m e = max ((m.log2 : ℤ) + e - 52) (-1074) := by
    simp only [Format.targetExponent, totalExponent, Format.minExponent, Format.mantissaBits]
    omega
  have hpos : (0 : ℚ) < 2 ^ e := by positivity
  constructor
  · have hlt : (m : ℚ) + 1 ≤ 2 ^ (m.log2 + 1) := by exact_mod_cast Nat.lt_log2_self
    calc (m + f) * 2 ^ e < 2 ^ (m.log2 + 1) * 2 ^ e := by
          exact mul_lt_mul_of_pos_right (by linarith) hpos
      _ = 2 ^ ((m.log2 : ℤ) + 1 + e) := by
          rw [← zpow_natCast, ← zpow_add₀ two_ne_zero]
          push_cast
          rfl
      _ ≤ 2 ^ (53 + lastPlace m e) := zpow_le_zpow_right₀ one_le_two (by omega)
      _ = 2 ^ 53 * 2 ^ lastPlace m e := by
          rw [zpow_add₀ two_ne_zero]
          rfl
  · by_cases hleast : lastPlace m e = -1074
    · exact .inl hleast
    · refine .inr ?_
      have hm : m ≠ 0 := by
        rintro rfl
        have hzero : Nat.log2 0 = 0 := rfl
        omega
      have hle : (2 : ℚ) ^ m.log2 ≤ m := by exact_mod_cast Nat.log2_self_le hm
      calc (2 : ℚ) ^ 52 * 2 ^ lastPlace m e = 2 ^ (52 + lastPlace m e) := by
            rw [zpow_add₀ two_ne_zero]
            rfl
        _ = 2 ^ m.log2 * 2 ^ e := by
            rw [← zpow_natCast, ← zpow_add₀ two_ne_zero]
            congr 1
            omega
        _ ≤ (m + f) * 2 ^ e := mul_le_mul_of_nonneg_right (by linarith) hpos.le

/-- A mantissa of at most 53 bits stays where it is. -/
theorem shiftToTargetExponent_of_lt (hm : m < 2 ^ 53) (he : -1074 ≤ e) :
    shiftToTargetExponent .binary64 m e .exact = (⟨m, false, false⟩, e) := by
  have hlog : m.log2 < 53 := by
    rcases Nat.eq_zero_or_pos m with rfl | hpos
    · decide
    · exact (Nat.log2_lt hpos.ne').mpr hm
  have hshift : (lastPlace m e - e).toNat = 0 := by
    simp only [Format.targetExponent, totalExponent, Format.minExponent, Format.mantissaBits]
    omega
  simp only [shiftToTargetExponent, shiftToExponent, hshift]
  simp [HShiftRight.hShiftRight, Nat.repeat, ExtendedMantissa.ofMantissaAndAccuracy]

/-- A mantissa that rounding has made too long loses a zero. -/
theorem shiftToTargetExponent_of_carry (he : -1074 ≤ e) :
    shiftToTargetExponent .binary64 (2 ^ 53) e .exact = (⟨2 ^ 52, false, false⟩, e + 1) := by
  have hshift : (lastPlace (2 ^ 53) e - e).toNat = 1 := by
    simp only [Format.targetExponent, totalExponent, Format.minExponent, Format.mantissaBits,
      Nat.log2_two_pow]
    omega
  simp only [shiftToTargetExponent, shiftToExponent, hshift]
  rfl

/-! ### Rounding -/

/-- Rounding stops at the last place unless it makes the mantissa too long. -/
theorem roundWithAccuracy_eq {em : ExtendedMantissa}
    (hfirst : shiftToTargetExponent .binary64 m e acc = (em, t)) (ht : -1074 ≤ t)
    (hround : em.roundedMantissa < 2 ^ 53) (hpos : 0 < em.roundedMantissa) :
    roundWithAccuracy .binary64 .positive m e acc =
      .finite .positive em.roundedMantissa t hpos := by
  simp only [roundWithAccuracy, hfirst, shiftToTargetExponent_of_lt hround ht]
  rw [dif_neg hpos.ne']

theorem roundWithAccuracy_of_carry {em : ExtendedMantissa}
    (hfirst : shiftToTargetExponent .binary64 m e acc = (em, t)) (ht : -1074 ≤ t)
    (hround : em.roundedMantissa = 2 ^ 53) :
    roundWithAccuracy .binary64 .positive m e acc =
      .finite .positive (2 ^ 52) (t + 1) (by decide) := by
  simp only [roundWithAccuracy, hfirst, hround, shiftToTargetExponent_of_carry ht]
  rfl

variable {d : Dyadic}

/-- Only the least mantissa of 53 bits is near to a number with a smaller last place, whose mantissa
rounding makes too long. -/
theorem Near.carry {q : ℚ} (hnear : Near m (q / 2 ^ e)) (hm : 2 ^ 52 ≤ m) (hlt : q < 2 ^ 53 * 2 ^ t)
    (hte : t < e) : m = 2 ^ 52 ∧ e = t + 1 ∧ 2 ^ 53 - 1 / 2 ≤ q / 2 ^ t := by
  have hpos : (0 : ℚ) < 2 ^ t := by positivity
  have hpos' : (0 : ℚ) < 2 ^ e := by positivity
  have htwice : (2 : ℚ) ^ t * 2 ≤ 2 ^ e := by
    rw [← zpow_add_one₀ two_ne_zero]
    exact zpow_le_zpow_right₀ one_le_two (by omega)
  have hlow := (le_div_iff₀ hpos').mp hnear.low
  have hmant : m = 2 ^ 52 := by
    by_contra hne
    have hm' : (2 ^ 52 + 1 : ℚ) ≤ m := by exact_mod_cast (by omega : 2 ^ 52 + 1 ≤ m)
    have hscaled : (2 ^ 52 + 1 / 2 : ℚ) * 2 ^ e ≤ (m - 1 / 2) * 2 ^ e :=
      mul_le_mul_of_nonneg_right (by linarith) hpos'.le
    linarith
  have hdense := (le_div_iff₀ hpos').mp (hnear.dense hmant)
  rw [hmant] at hdense
  push_cast at hdense
  have hexponent : e = t + 1 := by
    by_contra hne
    have hfour : (2 : ℚ) ^ t * 4 ≤ 2 ^ e := by
      calc (2 : ℚ) ^ t * 4 = 2 ^ (t + 2) := by rw [zpow_add₀ two_ne_zero]; norm_num
        _ ≤ 2 ^ e := zpow_le_zpow_right₀ one_le_two (by omega)
    linarith
  refine ⟨hmant, hexponent, (le_div_iff₀ hpos).mpr ?_⟩
  rw [hexponent, zpow_add_one₀ two_ne_zero] at hdense
  linarith

/-- No double is near to a number that has more than 53 bits before the last place of the double. -/
theorem Near.le_place {q : ℚ} (hnear : Near m (q / 2 ^ e)) (hm : m < 2 ^ 53)
    (hge : 2 ^ 52 * 2 ^ t ≤ q) : t ≤ e := by
  by_contra hlt
  have hpos : (0 : ℚ) < 2 ^ e := by positivity
  have htwice : (2 : ℚ) ^ e * 2 ≤ 2 ^ t := by
    rw [← zpow_add_one₀ two_ne_zero]
    exact zpow_le_zpow_right₀ one_le_two (by omega)
  have hhigh := (div_le_iff₀ hpos).mp hnear.high
  have hm' : (m + 1 : ℚ) ≤ 2 ^ 53 := by exact_mod_cast hm
  have hscaled : (m + 1 / 2 : ℚ) * 2 ^ e ≤ (2 ^ 53 - 1 / 2) * 2 ^ e :=
    mul_le_mul_of_nonneg_right (by linarith) hpos.le
  linarith

/-- A number is rounded to the double that it is near to. -/
theorem roundWithAccuracy_of_near (hacc : Describes acc f) (hplace : e ≤ lastPlace m e)
    (hd : d.Canonical) (hnear : Near d.mantissa ((m + f) * 2 ^ e / 2 ^ d.exponent)) :
    roundWithAccuracy .binary64 .positive m e acc =
      .finite .positive d.mantissa d.exponent hd.pos := by
  obtain ⟨hlt, hge⟩ := lastPlace_bounds hacc.nonneg hacc.lt_one hplace
  have hrepresents := represents_shiftToExponent (m := m) hacc hplace
  have hfirst : shiftToTargetExponent .binary64 m e acc =
      ((shiftToExponent m e acc (lastPlace m e)).1, lastPlace m e) :=
    Prod.ext rfl (shiftToExponent_exponent hplace)
  have hleast : -1074 ≤ lastPlace m e := le_max_right _ _
  generalize lastPlace m e = t at *
  generalize (shiftToExponent m e acc t).1 = em at *
  generalize ((m : ℚ) + f) * 2 ^ e = q at *
  obtain ⟨k, i⟩ := d
  rcases lt_or_ge t i with hti | hit
  · -- The last place of the number is smaller than that of the double.
    have hk : 2 ^ 52 ≤ k := by
      by_contra hsmall
      have hi : i = -1074 := hd.full (by simpa using hsmall)
      omega
    obtain ⟨rfl, rfl, hlow⟩ := hnear.carry hk hlt hti
    have hhigh : q / 2 ^ t < 2 ^ 53 := (div_lt_iff₀ (by positivity)).mpr hlt
    have hround : em.roundedMantissa = 2 ^ 53 :=
      hrepresents.roundedMantissa (by push_cast; linarith) (by push_cast; linarith) (by simp)
    exact roundWithAccuracy_of_carry hfirst hleast hround
  · have hsame : t = i := by
      refine le_antisymm ?_ hit
      rcases hge with hmin | hge
      · exact hmin ▸ hd.least
      · exact hnear.le_place hd.lt hge
    subst hsame
    have hround : em.roundedMantissa = k :=
      hrepresents.roundedMantissa hnear.low hnear.high hnear.odd
    subst hround
    exact roundWithAccuracy_eq hfirst hleast hd.lt hd.pos

end TimedMutation.Decimal
