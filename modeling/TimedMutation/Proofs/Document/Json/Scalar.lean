import TimedMutation.Document.Json
import TimedMutation.Proofs.Text.Numeral

/-! Single values in JSON: strings, integers of 64 bits, truth values and null are read back from what
is written for them. -/

namespace TimedMutation.Json

/-! ### Strings -/

/-- The number of a control character is read from its two digits. -/
theorem nat?_hexDigits :
    ∀ n < 0x20, Text.nat? 16 ['0', '0', hexDigit (n / 16), hexDigit (n % 16)] = some n := by
  decide

/-- How a character of a string may be read: as itself, or by its number if it is a control
character. -/
inductive Piece.StandsFor (c : Char) : Piece → Prop
  | char : StandsFor c (.char c)
  | unit (h : c.toNat < 0x20) : StandsFor c (.unit c.toNat)

theorem pieces?_escape (c : Char) (cs : List Char) :
    ∃ p : Piece, p.StandsFor c ∧
      pieces? (escape c ++ cs) = (pieces? cs).map fun (ps, rest) => (p :: ps, rest) := by
  unfold escape
  split
  case h_8 hquote hbackslash _ _ _ _ _ =>
    split
    · rename_i hcontrol
      refine ⟨.unit c.toNat, .unit hcontrol, ?_⟩
      cases hcs : pieces? cs <;> simp [pieces?, nat?_hexDigits _ hcontrol, hcs]
    · rename_i hcontrol
      refine ⟨.char c, .char, ?_⟩
      have hc : (c == '\\') = false := by simpa using hbackslash
      rw [List.singleton_append, pieces?]
      · cases hcs : pieces? cs <;> simp [hcontrol, hc]
      all_goals simp_all
  all_goals
    refine ⟨_, .char, ?_⟩
    cases hcs : pieces? cs <;> simp [pieces?, hcs]

/-- A control character is no half of a surrogate pair. -/
theorem join?_cons {c : Char} {p : Piece} {ps : List Piece} {cs : List Char} (hp : p.StandsFor c)
    (h : join? ps = some cs) : join? (p :: ps) = some (c :: cs) := by
  cases hp with
  | char => simp [join?, h]
  | unit hcontrol =>
    have hleading : isLeading c.toNat = false := by
      simp only [isLeading, Bool.and_eq_false_iff, decide_eq_false_iff_not]
      omega
    have htrailing : isTrailing c.toNat = false := by
      simp only [isTrailing, Bool.and_eq_false_iff, decide_eq_false_iff_not]
      omega
    cases ps with
    | nil => simp_all [join?]
    | cons q ps => cases q <;> simp_all [join?]

theorem pieces?_written (cs rest : List Char) :
    ∃ ps, pieces? (cs.flatMap escape ++ '"' :: rest) = some (ps, rest) ∧ join? ps = some cs := by
  induction cs with
  | nil => exact ⟨[], by simp [pieces?], rfl⟩
  | cons c cs ih =>
    obtain ⟨ps, hpieces, hjoin⟩ := ih
    obtain ⟨p, hp, hescape⟩ := pieces?_escape c (cs.flatMap escape ++ '"' :: rest)
    refine ⟨p :: ps, ?_, join?_cons hp hjoin⟩
    rw [List.flatMap_cons, List.append_assoc, hescape, hpieces]
    rfl

theorem toList_quoted (s : String) :
    (quoted s).toList = '"' :: (s.toList.flatMap escape ++ ['"']) := by
  rw [quoted, String.toList_ofList]

/-- What follows the opening quote of a string is its pieces and its closing quote. -/
theorem pieces?_quoted (s : String) (rest : List Char) :
    ∃ ps, pieces? (s.toList.flatMap escape ++ '"' :: rest) = some (ps, rest) ∧
      stringScalar ps = .text s := by
  obtain ⟨ps, hpieces, hjoin⟩ := pieces?_written s.toList rest
  refine ⟨ps, hpieces, ?_⟩
  simp [stringScalar, hjoin]

/-! ### Integers -/

/-- What may stand after a value. -/
def Closes (rest : List Char) : Prop :=
  ∀ c ∈ rest.head?, isSpace c = true ∨ c = ',' ∨ c = ']' ∨ c = '\x7d'

theorem Closes.head_ne {c : Char} {rest : List Char} (h : Closes (c :: rest)) :
    Decimal.isDigit c = false ∧ c ≠ '.' ∧ c ≠ 'e' ∧ c ≠ 'E' := by
  rcases h c rfl with hspace | rfl | rfl | rfl
  · simp only [isSpace, Bool.or_eq_true, beq_iff_eq] at hspace
    rcases hspace with ((rfl | rfl) | rfl) | rfl <;> decide
  all_goals decide

variable {rest : List Char}

theorem someDigits?_ofNat (n : ℕ) (h : Closes rest) :
    someDigits? ((Text.ofNat n).toList ++ rest) = some ((Text.ofNat n).toList, rest) := by
  have hdigits : ∀ c ∈ (Text.ofNat n).toList, Decimal.isDigit c = true :=
    fun c hc => Text.isDigit_of_mem_ofNat hc
  have hrest : rest.takeWhile Decimal.isDigit = [] ∧ rest.dropWhile Decimal.isDigit = rest := by
    cases rest with
    | nil => exact ⟨rfl, rfl⟩
    | cons c rest => simp [h.head_ne.1]
  rw [someDigits?, List.takeWhile_append_of_pos hdigits, List.dropWhile_append_of_pos hdigits,
    hrest.1, hrest.2, List.append_nil]
  exact if_neg (by simpa using Text.ofNat_ne_nil n)

theorem wholeDigits?_ofNat (n : ℕ) (h : Closes rest) :
    wholeDigits? ((Text.ofNat n).toList ++ rest) = some ((Text.ofNat n).toList, rest) := by
  rw [wholeDigits?, someDigits?_ofNat n h, Option.bind_eq_bind, Option.bind_some]
  by_cases hzero : (Text.ofNat n).toList.head? = some '0'
  · cases Text.eq_zero_of_head?_ofNat hzero
    rfl
  · simp [hzero]

theorem fractionDigits?_of_closes (h : Closes rest) : fractionDigits? rest = some ([], rest) := by
  cases rest with
  | nil => rfl
  | cons c rest =>
    rw [fractionDigits?]
    intro cs hcs
    exact h.head_ne.2.1 (List.cons.inj hcs).1

theorem exponent?_of_closes (h : Closes rest) : exponent? rest = some (none, rest) := by
  cases rest with
  | nil => rfl
  | cons c rest => simp [exponent?, h.head_ne.2.2]

/-- An integer that 64 bits hold, with a sign or without one. -/
def Held (n : Int) : Prop := (Text.isWord64 n || Text.isCount64 n) = true

theorem number?_ofNat (n : ℕ) (negative : Bool) {value : Int} (h : Closes rest)
    (hvalue : (if negative then -(n : Int) else n) = value) (hzero : negative = true → n ≠ 0)
    (hheld : Held value) :
    number? negative ((Text.ofNat n).toList ++ rest) = some (.integer value, rest) := by
  have hplain : (negative && value == 0) = false := by
    cases negative with
    | false => rfl
    | true =>
      have hn := hzero rfl
      rw [if_pos rfl] at hvalue
      simp only [Bool.true_and, beq_eq_false_iff_ne]
      omega
  have hheld : (Text.isWord64 value || Text.isCount64 value) = true := hheld
  simp only [number?, wholeDigits?_ofNat n h, fractionDigits?_of_closes h, exponent?_of_closes h,
    Option.bind_eq_bind, Option.bind_some, Text.digitsValue_ofNat, hvalue, hplain, hheld]
  rfl

theorem scalar?_of_isDigit {c : Char} {cs : List Char} (h : c.isDigit = true) :
    scalar? (c :: cs) = number? false (c :: cs) := by
  rw [scalar?]
  all_goals
    intros
    rename_i heq
    rw [(List.cons.inj heq).1] at h
    exact absurd h (by decide)

theorem scalar?_ofInt {n : Int} (h : Closes rest) (hheld : Held n) :
    scalar? ((Text.ofInt n).toList ++ rest) = some (.integer n, rest) := by
  cases n with
  | ofNat n =>
    have hnumber := number?_ofNat n false h rfl (by simp) hheld
    obtain ⟨c, cs, hcs⟩ := List.exists_cons_of_ne_nil (Text.ofNat_ne_nil n)
    have hdigit : c.isDigit = true := Text.isDigit_of_mem_ofNat (n := n) (by simp [hcs])
    change scalar? ((Text.ofNat n).toList ++ rest) = _
    rw [hcs] at hnumber ⊢
    rw [List.cons_append, scalar?_of_isDigit hdigit]
    exact hnumber
  | negSucc n =>
    have hnumber := number?_ofNat (n + 1) true h rfl (by simp) hheld
    have htext : (Text.ofInt (.negSucc n)).toList = '-' :: (Text.ofNat (n + 1)).toList := by
      simp [Text.ofInt, Text.ofNat]
    rw [htext, List.cons_append, scalar?]
    exact hnumber

/-! ### Single values -/

/-- The values that JSON writes without loss. -/
def Keeps : Scalar → Prop
  | .null | .bool _ | .text _ => True
  | .integer n => Held n
  | .real _ | .plain _ | .tagged _ _ _ | .unreadable => False

/-- A character that is no space and no mark of a list or a map. -/
def Plain (c : Char) : Prop :=
  isSpace c = false ∧ c ≠ '[' ∧ c ≠ ']' ∧ c ≠ '\x7b' ∧ c ≠ '\x7d'

instance (c : Char) : Decidable (Plain c) := inferInstanceAs (Decidable (_ ∧ _))

theorem plain_of_isDigit {c : Char} (h : c.isDigit = true) : Plain c := by
  have hne : ∀ d, d.isDigit = false → c ≠ d := by
    rintro d hd rfl
    rw [hd] at h
    cases h
  refine ⟨?_, hne _ rfl, hne _ rfl, hne _ rfl, hne _ rfl⟩
  simp [isSpace, hne ' ' rfl, hne '\t' rfl, hne '\n' rfl, hne '\r' rfl]

theorem exists_scalarText {s : Scalar} (h : Keeps s) :
    ∃ c cs, (scalarText s).toList = c :: cs ∧ Plain c := by
  cases s with
  | null => exact ⟨_, _, rfl, by decide⟩
  | bool b => cases b <;> exact ⟨_, _, rfl, by decide⟩
  | text s => exact ⟨_, _, toList_quoted s, by decide⟩
  | integer n =>
    obtain ⟨c, cs, hcs, rfl | hdigit⟩ := Text.exists_ofInt n
    · exact ⟨_, _, hcs, by decide⟩
    · exact ⟨_, _, hcs, plain_of_isDigit hdigit⟩
  | real | plain | tagged | unreadable => exact h.elim

theorem scalar?_scalarText {s : Scalar} (hs : Keeps s) (h : Closes rest) :
    scalar? ((scalarText s).toList ++ rest) = some (s, rest) := by
  cases s with
  | null => rfl
  | bool b => cases b <;> rfl
  | text s =>
    obtain ⟨ps, hpieces, hscalar⟩ := pieces?_quoted s rest
    simp [scalarText, toList_quoted, scalar?, hpieces, hscalar]
  | integer n => exact scalar?_ofInt h hs
  | real | plain | tagged | unreadable => exact hs.elim

end TimedMutation.Json
