import TimedMutation.Decimal.Layout
import TimedMutation.Proofs.Decimal.Shortest
import TimedMutation.Proofs.Expr.Lexeme

/-!
The text that is written for a number is a token of the number: what a numeral is written as is read as
the numeral.
-/

namespace TimedMutation.Token

open Decimal

variable {cs w : List Char} {x : Float}

/-! ### Digits -/

theorem digitsValue_eq (h : ∀ c ∈ cs, isDigit c = true) : digitsValue cs = Nat.ofDigitChars 10 cs 0 := by
  have hdigits : ∀ c ∈ cs, c.isDigit = true := fun c hc => isDigit_eq c ▸ h c hc
  rw [digitsValue, Text.natFrom?_of_digits hdigits]
  rfl

theorem isDigit_of_mem_ofNat {k : ℕ} {c : Char} (h : c ∈ (Text.ofNat k).toList) : isDigit c = true := by
  rw [isDigit_eq]
  exact Text.isDigit_of_mem_ofNat h

theorem isDigit_of_mem_zeros {k : ℕ} {c : Char} (h : c ∈ List.replicate k '0') : isDigit c = true := by
  rw [List.eq_of_mem_replicate h]
  rfl

theorem digitsValue_zeros_append (k : ℕ) (h : ∀ c ∈ cs, isDigit c = true) :
    digitsValue (List.replicate k '0' ++ cs) = digitsValue cs := by
  have hall : ∀ c ∈ List.replicate k '0' ++ cs, isDigit c = true := fun c hc =>
    (List.mem_append.mp hc).elim isDigit_of_mem_zeros (h c)
  rw [digitsValue_eq hall, digitsValue_eq h, Nat.ofDigitChars_append, Nat.ofDigitChars_replicate_zero,
    Nat.mul_zero]

theorem digitsValue_append_zeros (k : ℕ) (h : ∀ c ∈ cs, isDigit c = true) :
    digitsValue (cs ++ List.replicate k '0') = digitsValue cs * 10 ^ k := by
  have hall : ∀ c ∈ cs ++ List.replicate k '0', isDigit c = true := fun c hc =>
    (List.mem_append.mp hc).elim (h c) isDigit_of_mem_zeros
  rw [digitsValue_eq hall, digitsValue_eq h, Nat.ofDigitChars_append, Nat.ofDigitChars_replicate_zero,
    Nat.mul_comm]

/-! ### Numerals -/

/-- The number of a token has no sign. -/
theorem Spells.isNegative (h : Spells (number x) w) : isNegative x = false := by
  cases h with
  | whole | fraction => exact Numeral.isNegative_toFloat _
  | symbol ht => cases ht

theorem positionalText_eq (digits : List Char) (point : ℤ) :
    positionalText false digits point =
      if point ≤ 0 then ['0'] ++ '.' :: (List.replicate (-point).toNat '0' ++ digits)
      else if digits.length ≤ point.toNat then
        digits ++ List.replicate (point.toNat - digits.length) '0' ++ []
      else digits.take point.toNat ++ '.' :: digits.drop point.toNat := rfl

/-- Digits around a decimal point write the numeral that has them as its coefficient. -/
theorem spells_positionalText {digits : List Char} (hne : digits ≠ [])
    (hdigits : ∀ c ∈ digits, isDigit c = true) (e : ℤ) :
    ∃ n : Numeral, n.value = digitsValue digits * 10 ^ e ∧
      Spells (number n.toFloat) (positionalText false digits (e + digits.length)) := by
  have hlength : 0 < digits.length := List.length_pos_of_ne_nil hne
  rw [positionalText_eq]
  split
  · -- The number is below one.
    have hpart : ∀ c ∈ List.replicate (-(e + digits.length)).toNat '0' ++ digits, isDigit c = true :=
      fun c hc => (List.mem_append.mp hc).elim isDigit_of_mem_zeros (hdigits c)
    have hzero : ∀ c ∈ ['0'], isDigit c = true := by simp; rfl
    refine ⟨_, ?_, .fraction (by simp) hzero (by simp [hne]) hpart⟩
    have hvalue : digitsValue (['0'] ++ (List.replicate (-(e + digits.length)).toNat '0' ++ digits)) =
        digitsValue digits :=
      (digitsValue_zeros_append 1 hpart).trans (digitsValue_zeros_append _ hdigits)
    have hexponent : -((List.replicate (-(e + digits.length)).toNat '0' ++ digits).length : ℤ) = e := by
      simp only [List.length_append, List.length_replicate]
      omega
    rw [Numeral.value, hexponent, hvalue]
  · split
    · -- The number is whole.
      have hwhole : ∀ c ∈ digits ++ List.replicate ((e + digits.length).toNat - digits.length) '0',
          isDigit c = true :=
        fun c hc => (List.mem_append.mp hc).elim (hdigits c) isDigit_of_mem_zeros
      rw [List.append_nil]
      refine ⟨_, ?_, .whole (by simp [hne]) hwhole⟩
      have hexponent : (((e + digits.length).toNat - digits.length : ℕ) : ℤ) = e := by omega
      rw [Numeral.value, digitsValue_append_zeros _ hdigits, zpow_zero, mul_one]
      push_cast
      rw [← zpow_natCast, hexponent]
    · -- The decimal point stands among the digits.
      have htake : digits.take (e + digits.length).toNat ≠ [] := by
        rw [ne_eq, List.take_eq_nil_iff]
        rintro (hzero | hnil)
        · omega
        · exact hne hnil
      have hdrop : digits.drop (e + digits.length).toNat ≠ [] := by
        rw [ne_eq, List.drop_eq_nil_iff]
        omega
      refine ⟨_, ?_, .fraction htake (fun c hc => hdigits c (List.mem_of_mem_take hc)) hdrop
        fun c hc => hdigits c (List.mem_of_mem_drop hc)⟩
      have hexponent : -((digits.drop (e + digits.length).toNat).length : ℤ) = e := by
        rw [List.length_drop]
        omega
      rw [Numeral.value, hexponent, List.take_append_drop]

/-- What is written for a double is a token of the double. -/
theorem spells_plain (hfinite : x.isFinite = true) (hsign : isNegative x = false) :
    Spells (number x) (plain x).toList := by
  rcases eq_zero_or_packed hfinite hsign with ⟨rfl, hmagnitude⟩ | ⟨d, hd, rfl, hmagnitude⟩
  · have hzero : ∀ c ∈ ['0'], isDigit c = true := by simp; rfl
    have htext : plain 0.0 = "0" := by
      simp only [plain, Layout.text, hsign, hmagnitude]
      rfl
    rw [htext]
    exact .whole (by simp) hzero
  · have htext : (plain (d.packed hd.pos)).toList = Layout.plain.numeral (shortest .up d) := by
      simp only [plain, Layout.text, hsign, hmagnitude, if_neg hd.pos.ne']
      simp [Layout.plain]
    obtain ⟨n, hvalue, hspells⟩ := spells_positionalText (Text.ofNat_ne_nil (shortest .up d).coefficient)
      (fun c => isDigit_of_mem_ofNat) (shortest .up d).exponent
    rw [Text.digitsValue_ofNat] at hvalue
    rw [htext, ← toFloat_shortest hd hvalue]
    exact hspells

end TimedMutation.Token
