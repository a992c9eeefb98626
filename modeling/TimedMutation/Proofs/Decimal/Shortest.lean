import TimedMutation.Proofs.Decimal.Reading

/-!
The shortest numeral of a double is near to it, so it is read as the double again. Seventeen digits
always lie near enough.
-/

namespace TimedMutation.Decimal

variable {d : Dyadic} {r : Rounding} {q : ℚ} {tie : Tie} {place : ℤ} {n : ℕ}

/-! ### The numbers that are read as a double -/

/-- A number lies between the ends of a rounding. -/
def Rounding.Contains (r : Rounding) (q : ℚ) : Prop :=
  if r.closed then r.low ≤ q * r.denominator ∧ q * r.denominator ≤ r.high
  else r.low < q * r.denominator ∧ q * r.denominator < r.high

theorem Rounding.denominator_pos (d : Dyadic) : 0 < (Rounding.ofDyadic d).denominator := by
  simp only [Rounding.ofDyadic, Nat.pow_eq]
  split <;> positivity

/-- A quarter of the last place of a double, over the denominator of its rounding. -/
theorem quarter_eq (d : Dyadic) :
    ((if 0 ≤ d.exponent - 2 then Nat.pow 2 (d.exponent - 2).toNat else 1 : ℕ) : ℚ) =
      2 ^ d.exponent / 4 * (Rounding.ofDyadic d).denominator := by
  have hquarter : (2 : ℚ) ^ d.exponent / 4 = 2 ^ (d.exponent - 2) := by
    rw [zpow_sub₀ two_ne_zero]
    norm_num
  simp only [Rounding.ofDyadic, Nat.pow_eq, hquarter]
  generalize d.exponent - 2 = e
  split
  · obtain ⟨k, rfl⟩ := Int.eq_ofNat_of_zero_le ‹_›
    simp
  · obtain ⟨k, hk⟩ := Int.eq_ofNat_of_zero_le (by omega : 0 ≤ -e)
    obtain rfl : e = -k := by omega
    simp

theorem Rounding.value_ofDyadic (d : Dyadic) :
    ((Rounding.ofDyadic d).value : ℚ) =
      d.mantissa * 2 ^ d.exponent * (Rounding.ofDyadic d).denominator := by
  have hquarter := quarter_eq d
  simp only [Rounding.ofDyadic] at hquarter ⊢
  push_cast at hquarter ⊢
  rw [hquarter]
  ring

theorem Rounding.high_ofDyadic (d : Dyadic) :
    ((Rounding.ofDyadic d).high : ℚ) =
      (d.mantissa + 1 / 2) * 2 ^ d.exponent * (Rounding.ofDyadic d).denominator := by
  have hquarter := quarter_eq d
  simp only [Rounding.ofDyadic] at hquarter ⊢
  push_cast at hquarter ⊢
  rw [hquarter]
  ring

theorem Rounding.low_ofDyadic (hd : 0 < d.mantissa) :
    ((Rounding.ofDyadic d).low : ℚ) =
      (d.mantissa - if d.mantissa = 2 ^ 52 then 1 / 4 else 1 / 2) * 2 ^ d.exponent *
        (Rounding.ofDyadic d).denominator := by
  have hquarter := quarter_eq d
  have hlow : (Rounding.ofDyadic d).low =
      (4 * d.mantissa - if d.mantissa = 2 ^ 52 then 1 else 2) *
        if 0 ≤ d.exponent - 2 then Nat.pow 2 (d.exponent - 2).toNat else 1 := rfl
  rw [hlow, Nat.cast_mul, hquarter, Nat.cast_sub (by split <;> omega)]
  split <;> push_cast <;> ring

theorem near_of_contains (hd : 0 < d.mantissa) (h : (Rounding.ofDyadic d).Contains q) :
    Near d.mantissa (q / 2 ^ d.exponent) := by
  have hden : (0 : ℚ) < (Rounding.ofDyadic d).denominator := by
    exact_mod_cast Rounding.denominator_pos d
  have hpos : (0 : ℚ) < 2 ^ d.exponent := by positivity
  have hclosed : (Rounding.ofDyadic d).closed = (d.mantissa % 2 == 0) := rfl
  simp only [Rounding.Contains, Rounding.low_ofDyadic hd, Rounding.high_ofDyadic, hclosed,
    mul_le_mul_iff_left₀ hden, mul_lt_mul_iff_left₀ hden, ← le_div_iff₀ hpos, ← div_le_iff₀ hpos,
    ← lt_div_iff₀ hpos, ← div_lt_iff₀ hpos, beq_iff_eq] at h
  have hgap : (if d.mantissa = 2 ^ 52 then 1 / 4 else 1 / 2 : ℚ) ≤ 1 / 2 := by split <;> norm_num
  split at h
  · obtain ⟨hlow, hhigh⟩ := h
    refine ⟨by linarith, hhigh, fun hodd => by omega, fun hdense => ?_⟩
    rwa [if_pos hdense] at hlow
  · obtain ⟨hlow, hhigh⟩ := h
    refine ⟨by linarith, hhigh.le, fun _ => ⟨by linarith, hhigh⟩, fun hdense => ?_⟩
    omega

/-! ### Grids of powers of ten -/

theorem grid_unit (denominator : ℕ) (place : ℤ) :
    ((if 0 ≤ place then denominator * Nat.pow 10 place.toNat else denominator : ℕ) : ℚ) =
      denominator * 10 ^ place * (if 0 ≤ place then 1 else Nat.pow 10 (-place).toNat : ℕ) := by
  simp only [Nat.pow_eq]
  split
  · obtain ⟨k, rfl⟩ := Int.eq_ofNat_of_zero_le ‹_›
    simp
  · obtain ⟨k, hk⟩ := Int.eq_ofNat_of_zero_le (by omega : 0 ≤ -place)
    obtain rfl : place = -k := by omega
    simp

theorem grid_up_pos (place : ℤ) : 0 < if 0 ≤ place then 1 else Nat.pow 10 (-place).toNat := by
  simp only [Nat.pow_eq]
  split <;> positivity

/-- Whether a rounding contains a multiple of a power of ten is seen without fractions. -/
theorem Rounding.contains_iff {up unit : ℕ} (hup : 0 < up)
    (hunit : (unit : ℚ) = r.denominator * 10 ^ place * up) :
    r.Contains (n * 10 ^ place) ↔
      (if r.closed then decide (r.low * up ≤ n * unit) && decide (n * unit ≤ r.high * up)
        else decide (r.low * up < n * unit) && decide (n * unit < r.high * up)) = true := by
  have hup' : (0 : ℚ) < up := by exact_mod_cast hup
  have hvalue : ((n * unit : ℕ) : ℚ) = n * 10 ^ place * r.denominator * up := by
    push_cast
    rw [hunit]
    ring
  have hle : ∀ k : ℕ, k * up ≤ n * unit ↔ (k : ℚ) ≤ n * 10 ^ place * r.denominator := fun k => by
    rw [← mul_le_mul_iff_left₀ hup', ← hvalue]
    exact_mod_cast Iff.rfl
  have hge : ∀ k : ℕ, n * unit ≤ k * up ↔ n * 10 ^ place * r.denominator ≤ (k : ℚ) := fun k => by
    rw [← mul_le_mul_iff_left₀ hup', ← hvalue]
    exact_mod_cast Iff.rfl
  have hlt : ∀ k : ℕ, k * up < n * unit ↔ (k : ℚ) < n * 10 ^ place * r.denominator := fun k => by
    rw [← not_le, hge, not_le]
  have hgt : ∀ k : ℕ, n * unit < k * up ↔ n * 10 ^ place * r.denominator < (k : ℚ) := fun k => by
    rw [← not_le, hle, not_le]
  simp only [Rounding.Contains]
  split <;> simp only [Bool.and_eq_true, decide_eq_true_eq, hle, hge, hlt, hgt]

/-- A numeral that a grid offers lies between the ends of the rounding. -/
theorem Rounding.contains_of_onGrid? (h : r.onGrid? tie place = some n) :
    r.Contains (n * 10 ^ place) := by
  unfold Rounding.onGrid? at h
  extract_lets up unit below rest within goUp at h
  have hwithin : ∀ k, within k = true → r.Contains (k * 10 ^ place) := fun k hk =>
    (Rounding.contains_iff (grid_up_pos place) (grid_unit r.denominator place)).mpr hk
  clear_value up unit below rest within goUp
  split at h
  · rename_i hbelow habove
    cases goUp <;> cases h
    · exact hwithin _ hbelow
    · exact hwithin _ habove
  · rename_i hbelow _
    cases h
    exact hwithin _ hbelow
  · rename_i _ habove
    cases h
    exact hwithin _ habove
  · cases h

/-- A grid that is finer than the way from the value to both ends offers a numeral. -/
theorem Rounding.onGrid?_isSome (hr : 0 < r.denominator)
    (hlow : 2 * r.low + r.denominator * 10 ^ place < (2 * r.value : ℚ))
    (hhigh : 2 * r.value + r.denominator * 10 ^ place < (2 * r.high : ℚ)) :
    (r.onGrid? tie place).isSome = true := by
  unfold Rounding.onGrid?
  extract_lets up unit below rest within goUp
  have hup : (0 : ℚ) < up := by exact_mod_cast grid_up_pos place
  have hunit : (unit : ℚ) = r.denominator * 10 ^ place * up := grid_unit r.denominator place
  have hstep : 0 < unit := by
    have hpos : (0 : ℚ) < unit := by
      rw [hunit]
      positivity
    exact_mod_cast hpos
  have hlow' : 2 * (r.low * up) + unit < 2 * (r.value * up) := by
    have hscaled := mul_lt_mul_of_pos_right hlow hup
    have hcast : (2 * (r.low * up) + unit : ℚ) < 2 * (r.value * up) := by
      rw [hunit]
      linarith
    exact_mod_cast hcast
  have hhigh' : 2 * (r.value * up) + unit < 2 * (r.high * up) := by
    have hscaled := mul_lt_mul_of_pos_right hhigh hup
    have hcast : (2 * (r.value * up) + unit : ℚ) < 2 * (r.high * up) := by
      rw [hunit]
      linarith
    exact_mod_cast hcast
  have hsplit : below * unit + rest = r.value * up := Nat.div_add_mod' _ _
  have hrest : rest < unit := Nat.mod_lt _ hstep
  have hwithin : ∀ k, r.low * up < k * unit → k * unit < r.high * up → within k = true := by
    intro k hk hk'
    simp only [within]
    split <;> simp only [Bool.and_eq_true, decide_eq_true_eq]
    · exact ⟨hk.le, hk'.le⟩
    · exact ⟨hk, hk'⟩
  -- The nearer one of the two numerals around the value is near enough.
  rcases le_or_gt (2 * rest) unit with hhalf | hhalf
  · have hbelow := hwithin below (by omega) (by omega)
    rw [hbelow]
    cases within (below + 1) <;> rfl
  · have hmul : (below + 1) * unit = below * unit + unit := by ring
    have habove := hwithin (below + 1) (by omega) (by omega)
    rw [habove]
    cases within below <;> rfl

/-! ### Seventeen digits -/

theorem ten_zpow_le_of_estimate {k l : ℤ} (hk : 100000 * (k + 1) ≤ 30103 * l) (hl : -10000 ≤ l)
    (hl' : l ≤ 10000) : (10 : ℚ) ^ k ≤ 2 ^ (l - 1) := by
  by_contra hlt
  rw [not_le] at hlt
  have hbase : (0 : ℚ) ≤ 2 ^ (l - 1) := by positivity
  rcases le_or_gt 0 k with hnonneg | hneg
  · -- `59 / 196` is below the logarithm of two, and near enough to it.
    have hpower : ((2 : ℚ) ^ (l - 1)) ^ 59 < (10 ^ k) ^ 59 := pow_lt_pow_left₀ hlt hbase (by decide)
    obtain ⟨j, rfl⟩ := Int.eq_ofNat_of_zero_le hnonneg
    have hten : ((10 : ℚ) ^ (j : ℤ)) ^ 59 ≤ 2 ^ (196 * (j : ℤ)) := by
      rw [zpow_natCast, ← pow_mul, mul_comm, pow_mul, zpow_mul, zpow_natCast]
      exact pow_le_pow_left₀ (by positivity) (by norm_num) j
    rw [← zpow_natCast, ← zpow_mul] at hpower
    have hexponent := (zpow_lt_zpow_iff_right₀ (one_lt_two : (1 : ℚ) < 2)).mp (hpower.trans_le hten)
    push_cast at hexponent
    omega
  · have hpower : ((2 : ℚ) ^ (l - 1)) ^ 28 < (10 ^ k) ^ 28 := pow_lt_pow_left₀ hlt hbase (by decide)
    obtain ⟨j, hj⟩ := Int.eq_ofNat_of_zero_le (by omega : 0 ≤ -k)
    obtain rfl : k = -j := by omega
    have hten : ((10 : ℚ) ^ (-(j : ℤ))) ^ 28 ≤ 2 ^ (93 * -(j : ℤ)) := by
      rw [mul_neg, zpow_neg, zpow_neg, inv_pow, zpow_natCast, ← pow_mul, mul_comm j, pow_mul, zpow_mul,
        zpow_natCast]
      exact inv_anti₀ (by positivity) (pow_le_pow_left₀ (by positivity) (by norm_num) j)
    rw [← zpow_natCast, ← zpow_mul] at hpower
    have hexponent := (zpow_lt_zpow_iff_right₀ (one_lt_two : (1 : ℚ) < 2)).mp (hpower.trans_le hten)
    push_cast at hexponent
    omega

/-- The estimate is at most one too high. -/
theorem Ratio.floorLog10_le {r : Ratio} (hnum : 0 < r.numerator) (hden : 0 < r.denominator)
    (hlog : r.numerator.log2 ≤ r.denominator.log2 + 10000)
    (hlog' : r.denominator.log2 ≤ r.numerator.log2 + 10000) :
    (10 : ℚ) ^ r.floorLog10 * r.denominator ≤ r.numerator := by
  unfold Ratio.floorLog10
  extract_lets reaches estimate
  have hreaches : ∀ e, reaches e = true → (10 : ℚ) ^ e * r.denominator ≤ r.numerator := by
    intro e he
    simp only [reaches, Nat.pow_eq] at he
    split at he
    · obtain ⟨k, rfl⟩ := Int.eq_ofNat_of_zero_le ‹_›
      rw [zpow_natCast, mul_comm]
      exact_mod_cast of_decide_eq_true he
    · obtain ⟨k, hk⟩ := Int.eq_ofNat_of_zero_le (by omega : 0 ≤ -e)
      obtain rfl : e = -k := by omega
      rw [neg_neg, Int.toNat_natCast] at he
      rw [zpow_neg, zpow_natCast, inv_mul_le_iff₀ (by positivity), mul_comm]
      exact_mod_cast of_decide_eq_true he
  split
  · exact hreaches _ ‹_›
  · split
    · exact hreaches _ ‹_›
    · have hestimate : 100000 * (estimate - 1 + 1) ≤
          30103 * ((r.numerator.log2 : ℤ) - r.denominator.log2) := by omega
      have hden' : (r.denominator : ℚ) ≤ 2 ^ (r.denominator.log2 + 1) := by
        exact_mod_cast Nat.lt_log2_self.le
      have hnum' : (2 : ℚ) ^ r.numerator.log2 ≤ r.numerator := by
        exact_mod_cast Nat.log2_self_le hnum.ne'
      calc (10 : ℚ) ^ (estimate - 1) * r.denominator
          ≤ 2 ^ ((r.numerator.log2 : ℤ) - r.denominator.log2 - 1) * 2 ^ (r.denominator.log2 + 1) :=
            mul_le_mul (ten_zpow_le_of_estimate hestimate (by omega) (by omega)) hden' (by positivity)
              (by positivity)
        _ = 2 ^ r.numerator.log2 := by
            rw [← zpow_natCast, ← zpow_natCast, ← zpow_add₀ two_ne_zero]
            congr 1
            omega
        _ ≤ r.numerator := hnum'

/-- The numbers of a rounding have fewer than 1100 bits. -/
theorem Dyadic.Canonical.log2_le (hd : d.Canonical) :
    (Rounding.ofDyadic d).value.log2 < 1100 ∧ (Rounding.ofDyadic d).denominator.log2 < 1100 := by
  have hleast := hd.least
  have hgreatest := hd.greatest
  have hmantissa := hd.pos
  have hlt := hd.lt
  obtain ⟨k, hk, hscale⟩ : ∃ k ≤ 969,
      (if 0 ≤ d.exponent - 2 then 2 ^ (d.exponent - 2).toNat else 1 : ℕ) = 2 ^ k := by
    split
    · exact ⟨_, by omega, rfl⟩
    · exact ⟨0, by omega, rfl⟩
  simp only [Rounding.ofDyadic, Nat.pow_eq, hscale]
  constructor
  · have hvalue : 4 * d.mantissa * 2 ^ k < 2 ^ (55 + k) := by
      rw [Nat.pow_add]
      exact Nat.mul_lt_mul_of_pos_right (by omega) (Nat.two_pow_pos k)
    have hlog := (Nat.log2_lt (by positivity)).mpr hvalue
    omega
  · split
    · decide
    · rw [Nat.log2_two_pow]
      omega

theorem seventeen_digits (hd : d.Canonical) :
    ((Rounding.ofDyadic d).onGrid? tie
      (Ratio.floorLog10 ⟨(Rounding.ofDyadic d).value, (Rounding.ofDyadic d).denominator⟩ - 16)).isSome =
        true := by
  have hden := Rounding.denominator_pos d
  have hden' : (0 : ℚ) < (Rounding.ofDyadic d).denominator := by exact_mod_cast hden
  have hpos : (0 : ℚ) < 2 ^ d.exponent := by positivity
  have hvalue := Rounding.value_ofDyadic d
  have hmantissa : (0 : ℚ) < d.mantissa := by exact_mod_cast hd.pos
  have hvaluepos : 0 < (Rounding.ofDyadic d).value := by
    have hcast : (0 : ℚ) < (Rounding.ofDyadic d).value := by
      rw [hvalue]
      positivity
    exact_mod_cast hcast
  obtain ⟨hlog, hlog'⟩ := hd.log2_le
  have hfirst := Ratio.floorLog10_le (r := ⟨(Rounding.ofDyadic d).value,
    (Rounding.ofDyadic d).denominator⟩) hvaluepos hden (by simp only; omega) (by simp only; omega)
  simp only at hfirst
  generalize Ratio.floorLog10 ⟨(Rounding.ofDyadic d).value, (Rounding.ofDyadic d).denominator⟩ = t at *
  rw [hvalue, mul_le_mul_iff_left₀ hden'] at hfirst
  have hstep : (10 : ℚ) ^ (t - 16) * 10 ^ 16 = 10 ^ t := by
    rw [zpow_sub₀ (by norm_num)]
    exact div_mul_cancel₀ _ (by norm_num)
  have hlt : (d.mantissa : ℚ) + 1 ≤ 2 ^ 53 := by exact_mod_cast hd.lt
  have hbound : (d.mantissa : ℚ) * 2 ^ d.exponent ≤ (2 ^ 53 - 1) * 2 ^ d.exponent :=
    mul_le_mul_of_nonneg_right (by linarith) hpos.le
  have hwhole : (10 : ℚ) ^ (t - 16) < 2 ^ d.exponent := by linarith
  refine Rounding.onGrid?_isSome hden ?_ ?_
  · rw [Rounding.low_ofDyadic hd.pos, hvalue]
    have hgap : (10 : ℚ) ^ (t - 16) <
        2 * (if d.mantissa = 2 ^ 52 then 1 / 4 else 1 / 2) * 2 ^ d.exponent := by
      split
      · rename_i hdense
        rw [hdense] at hfirst
        push_cast at hfirst
        linarith
      · linarith
    have hscaled := mul_lt_mul_of_pos_right hgap hden'
    linarith
  · rw [Rounding.high_ofDyadic, hvalue]
    have hscaled := mul_lt_mul_of_pos_right hwhole hden'
    linarith

/-! ### The shortest numeral -/

theorem Numeral.value_dropZeros (n : Numeral) : n.dropZeros.value = n.value := by
  fun_induction Numeral.dropZeros n with
  | case1 n h ih =>
    obtain ⟨-, hzero⟩ := h
    have hsplit : n.coefficient = 10 * (n.coefficient / 10) := by omega
    rw [ih, Numeral.value, Numeral.value, zpow_add_one₀ (by norm_num)]
    conv_rhs => rw [hsplit]
    push_cast
    ring
  | case2 n h => rfl

theorem contains_shortest (hd : d.Canonical) (tie : Tie) :
    (Rounding.ofDyadic d).Contains (shortest tie d).value := by
  simp only [shortest, Numeral.value_dropZeros]
  generalize hfound : (List.range 17).findSome? _ = found
  have hsome : found.isSome = true := by
    rw [← hfound, List.findSome?_isSome_iff]
    have hplace : ∀ t : ℤ, t + 1 - (16 + 1 : ℕ) = t - 16 := fun t => by omega
    refine ⟨16, by simp, ?_⟩
    rw [Option.isSome_map, hplace]
    exact seventeen_digits hd
  obtain ⟨n, rfl⟩ := Option.isSome_iff_exists.mp hsome
  obtain ⟨k, -, hk⟩ := List.exists_of_findSome?_eq_some hfound
  obtain ⟨c, hc, rfl⟩ := Option.map_eq_some_iff.mp hk
  exact Rounding.contains_of_onGrid? hc

/-- The shortest numeral of a double is read as the double. -/
theorem toFloat_shortest (hd : d.Canonical) {n : Numeral} (hvalue : n.value = (shortest tie d).value) :
    n.toFloat = d.packed hd.pos := by
  refine n.toFloat_eq_packed hd ?_
  rw [hvalue]
  exact near_of_contains hd.pos (contains_shortest hd tie)

end TimedMutation.Decimal
