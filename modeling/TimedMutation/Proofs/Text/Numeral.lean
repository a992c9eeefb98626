import TimedMutation.Decimal.Read
import TimedMutation.Proofs.Text.Blank

/-! Numbers are read back from the digits that are written for them. -/

namespace TimedMutation.Text

theorem code_of_isDigit {c : Char} (h : c.isDigit = true) : 0x30 ≤ c.toNat ∧ c.toNat ≤ 0x39 := by
  simpa [Char.isDigit, UInt32.le_iff_toNat_le] using h

theorem digitValue?_of_isDigit {c : Char} (h : c.isDigit = true) :
    digitValue? 10 c = some (c.toNat - '0'.toNat) := by
  have hbounds := code_of_isDigit h
  have hzero : '0'.toNat = 0x30 := rfl
  simp only [digitValue?, hbounds, and_self, if_true, hzero]
  rw [if_pos (by omega)]

theorem natFrom?_of_digits {cs : List Char} (h : ∀ c ∈ cs, c.isDigit = true) (acc : ℕ) :
    natFrom? 10 acc cs = some (Nat.ofDigitChars 10 cs acc) := by
  induction cs generalizing acc with
  | nil => simp [natFrom?]
  | cons c cs ih =>
    simp only [natFrom?, digitValue?_of_isDigit (h c (by simp)), Nat.ofDigitChars_cons]
    rw [ih (fun x hx => h x (by simp [hx])), Nat.mul_comm acc]

theorem isDigit_of_mem_ofNat {n : ℕ} {c : Char} (h : c ∈ (ofNat n).toList) : c.isDigit = true := by
  rw [ofNat, Nat.toList_repr] at h
  exact Nat.isDigit_of_mem_toDigits (by decide) (by decide) h

theorem ofNat_ne_nil (n : ℕ) : (ofNat n).toList ≠ [] := by
  rw [ofNat, Nat.toList_repr]
  exact Nat.toDigits_ne_nil

theorem digitsValue_ofNat (n : ℕ) : Decimal.digitsValue (ofNat n).toList = n := by
  rw [Decimal.digitsValue, natFrom?_of_digits fun c => isDigit_of_mem_ofNat]
  simp [ofNat]

/-- A number that starts with zero is zero. -/
theorem eq_zero_of_head?_ofNat {n : ℕ} (h : (ofNat n).toList.head? = some '0') : n = 0 := by
  rw [ofNat, Nat.toList_repr] at h
  induction n using Nat.strong_induction_on with
  | _ n ih =>
    by_cases hn : n < 10
    · rw [Nat.toDigits_of_lt_base hn] at h
      have hchar : ∀ m < 10, m.digitChar = '0' → m = 0 := by decide
      exact hchar n hn (Option.some.inj h)
    · rw [Nat.toDigits_of_base_le (by decide) (by omega), List.head?_append,
        Option.or_of_isSome (by simp)] at h
      have hquotient := ih (n / 10) (by omega) h
      omega

theorem ofInt_ne_nil (n : Int) : (ofInt n).toList ≠ [] := by
  cases n with
  | ofNat n => exact ofNat_ne_nil n
  | negSucc n => simp [ofInt]

/-- An integer starts with a digit or with its sign. -/
theorem exists_ofInt (n : Int) :
    ∃ c cs, (ofInt n).toList = c :: cs ∧ (c = '-' ∨ c.isDigit = true) := by
  cases n with
  | ofNat n =>
    obtain ⟨c, cs, hcs⟩ := List.exists_cons_of_ne_nil (ofNat_ne_nil n)
    exact ⟨c, cs, hcs, .inr (isDigit_of_mem_ofNat (n := n) (by simp [hcs]))⟩
  | negSucc n => exact ⟨'-', (ofNat (n + 1)).toList, by simp [ofInt, ofNat], .inl rfl⟩

theorem isBlank_of_isDigit {c : Char} (h : c.isDigit = true) : isBlank c = false := by
  have hbounds := code_of_isDigit h
  exact isBlank_of_between (by omega) (by omega)

theorem isBlank_of_mem_ofInt {n : Int} {c : Char} (h : c ∈ (ofInt n).toList) :
    isBlank c = false := by
  cases n with
  | ofNat n => exact isBlank_of_isDigit (isDigit_of_mem_ofNat h)
  | negSucc n =>
    rw [ofInt, String.toList_append, List.mem_append] at h
    rcases h with hminus | hdigit
    · cases List.mem_singleton.mp hminus
      decide
    · exact isBlank_of_isDigit (isDigit_of_mem_ofNat hdigit)

end TimedMutation.Text
