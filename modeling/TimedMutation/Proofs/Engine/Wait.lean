import Mathlib.Algebra.Order.Ring.Nat
import Mathlib.Tactic.GCongr
import TimedMutation.Engine.Retry

/-! The waits of a retry policy are exact exponentials up to the longest wait: the doubling stops, and a
product is held, only where the longest wait is reached anyway. Words of 64 bits give the same waits. -/

namespace TimedMutation

/-! ### Words -/

namespace Word

variable {w : ℕ} {x : BitVec w} {k : ℕ}

/-- A word shifted to the left, if it loses no bit. -/
def shiftLeft? (x : BitVec w) (k : ℕ) : Option (BitVec w) :=
  if x.toNat * 2 ^ k < 2 ^ w then some (x <<< k) else none

/-- The product of two words, or the greatest word where that is too large. -/
def heldProduct (x y : BitVec w) : BitVec w :=
  if x.umulOverflow y then BitVec.allOnes w else x * y

theorem exists_shiftLeft? (h : x.toNat * 2 ^ k < 2 ^ w) :
    ∃ y, shiftLeft? x k = some y ∧ y.toNat = x.toNat * 2 ^ k := by
  refine ⟨x <<< k, if_pos h, ?_⟩
  rw [BitVec.toNat_shiftLeft, Nat.shiftLeft_eq, Nat.mod_eq_of_lt h]

theorem exists_shiftLeft?_one (h : k < w) : ∃ y, shiftLeft? 1#w k = some y ∧ y.toNat = 2 ^ k := by
  have hone : (1#w).toNat * 2 ^ k = 2 ^ k := by rw [BitVec.toNat_one (by omega), one_mul]
  have hfits : (1#w).toNat * 2 ^ k < 2 ^ w := by
    rw [hone]
    exact Nat.pow_lt_pow_right one_lt_two h
  rw [← hone]
  exact exists_shiftLeft? hfits

theorem toNat_heldProduct (x y : BitVec w) :
    (heldProduct x y).toNat = min (x.toNat * y.toNat) (2 ^ w - 1) := by
  rw [heldProduct]
  split
  case isTrue h =>
    have hlarge : 2 ^ w ≤ x.toNat * y.toNat := by simpa [BitVec.umulOverflow] using h
    rw [BitVec.toNat_allOnes, min_eq_right (by omega)]
  case isFalse h =>
    have hfits : x.toNat * y.toNat < 2 ^ w := by simpa [BitVec.umulOverflow] using h
    rw [BitVec.toNat_mul_of_not_umulOverflow h, min_eq_left (by omega)]

end Word

namespace RetryPolicy

/-- The wait before a retry in words of 64 bits, if the factor loses no bit. -/
def wordWait? (backoff : BitVec 64) (retry : ℕ) : Option (BitVec 64) := do
  let factor ← Word.shiftLeft? 1#64 (min retry 16)
  let product := Word.heldProduct backoff factor
  let longest := BitVec.ofNat 64 longestWait
  return if product ≤ longest then product else longest

theorem toNat_wordWait? (p : RetryPolicy) (h : p.backoff < Text.countLimit) (retry : ℕ) :
    (wordWait? (BitVec.ofNat 64 p.backoff) retry).map BitVec.toNat = some (p.wait retry) := by
  have hshift : min retry 16 < 64 := by omega
  obtain ⟨factor, hfactor, hvalue⟩ := Word.exists_shiftLeft?_one hshift
  have hbackoff : (BitVec.ofNat 64 p.backoff).toNat = p.backoff := Nat.mod_eq_of_lt h
  have hproduct : (Word.heldProduct (BitVec.ofNat 64 p.backoff) factor).toNat =
      min (p.backoff * Nat.pow 2 (min retry 16)) (Text.countLimit - 1) := by
    rw [Word.toNat_heldProduct, hbackoff, hvalue]
    rfl
  rw [wordWait?, hfactor, wait, ← hproduct]
  simp only [Option.bind_eq_bind, Option.bind_some, BitVec.le_def, Option.pure_def, Option.map_some]
  rw [apply_ite BitVec.toNat]
  rfl

/-! ### The exact exponential -/

/-- Below a bound, a doubling that stops where the bound is reached gives what all of it gives. -/
theorem min_mul_two_pow_min {bound stop : ℕ} (h : bound ≤ 2 ^ stop) (backoff retry : ℕ) :
    min bound (backoff * 2 ^ min retry stop) = min bound (backoff * 2 ^ retry) := by
  rcases Nat.le_total retry stop with hle | hle
  · rw [min_eq_left hle]
  -- Past the stop both products have reached the bound, but for those of zero, which stay at zero.
  rcases Nat.eq_zero_or_pos backoff with rfl | hpos
  · simp only [zero_mul]
  have hreached : bound ≤ backoff * 2 ^ stop := h.trans (Nat.le_mul_of_pos_left _ hpos)
  have hpassed : backoff * 2 ^ stop ≤ backoff * 2 ^ retry :=
    Nat.mul_le_mul_left _ (Nat.pow_le_pow_right two_pos hle)
  rw [min_eq_right hle, min_eq_left hreached, min_eq_left (hreached.trans hpassed)]

theorem wait_eq_min (p : RetryPolicy) (retry : ℕ) :
    p.wait retry = min longestWait (p.backoff * 2 ^ retry) := by
  have hheld : longestWait ≤ Text.countLimit - 1 := by decide
  have hstop : longestWait ≤ 2 ^ 16 := by decide
  calc p.wait retry
      = min (min (p.backoff * 2 ^ min retry 16) (Text.countLimit - 1)) longestWait := rfl
    _ = min longestWait (p.backoff * 2 ^ min retry 16) := by
      rw [min_assoc, min_eq_right hheld, min_comm]
    _ = min longestWait (p.backoff * 2 ^ retry) := min_mul_two_pow_min hstop p.backoff retry

theorem wait_monotone (p : RetryPolicy) : Monotone p.wait := by
  intro earlier later h
  rw [wait_eq_min, wait_eq_min]
  gcongr
  decide

/-- A wait is the exact exponential up to five seconds, and no other limit is seen. A policy whose first
wait is a word of 64 bits has the same waits in words. No wait is shorter than one before it. -/
theorem wait_exact (p : RetryPolicy) :
    (∀ retry, p.wait retry = min 5000 (p.backoff * 2 ^ retry)) ∧
    (p.backoff < Text.countLimit → ∀ retry,
      (wordWait? (BitVec.ofNat 64 p.backoff) retry).map BitVec.toNat = some (p.wait retry)) ∧
    Monotone p.wait :=
  ⟨p.wait_eq_min, p.toNat_wordWait?, p.wait_monotone⟩

/-- The greatest first wait of 64 bits, whose doubles are all too large for a word. -/
theorem wait_exact_greatest :
    18446744073709551615 < Text.countLimit ∧
      (wordWait? (BitVec.ofNat 64 18446744073709551615) 3).map BitVec.toNat = some 5000 := by
  have hword : 18446744073709551615 < Text.countLimit := by decide
  exact ⟨hword, (wait_exact ⟨2, 18446744073709551615⟩).2.1 hword 3⟩

end RetryPolicy
end TimedMutation
