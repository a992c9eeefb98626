import TimedMutation.Expr.Token
import TimedMutation.Proofs.Outcome
import TimedMutation.Proofs.Update

/-!
The texts of tokens. What the scanner takes off the front of a text is the longest token there, and it
takes the same token off whatever follows, unless what follows may go on with it.
-/

namespace TimedMutation.Token

/-- Whether a token is a number or a name, which have texts of any length. -/
def isWord : Token → Bool
  | number _ | name _ => true
  | _ => false

/-- The text of an operator or a parenthesis. -/
def mark : Token → List Char
  | number _ | name _ => []
  | openParen => ['(']
  | closeParen => [')']
  | plus => ['+']
  | minus => ['-']
  | star => ['*']
  | slash => ['/']
  | percent => ['%']
  | bang => ['!']
  | both => ['&', '&']
  | either => ['|', '|']
  | compare c => c.symbol.toList

/-- Whether a character right after a token may be taken for a part of it. -/
def joins : Token → Char → Bool
  | number _, c => Decimal.isDigit c || c == '.'
  | name _, c => isNameChar c || c == '.'
  | bang, c | compare .lt, c | compare .gt, c => c == '='
  | _, _ => false

/-- A token and a text that is written for it. -/
inductive Spells : Token → List Char → Prop
  | whole {digits : List Char} : digits ≠ [] → (∀ c ∈ digits, Decimal.isDigit c = true) →
      Spells (number (Decimal.Numeral.toFloat ⟨Decimal.digitsValue digits, 0⟩)) digits
  | fraction {digits part : List Char} : digits ≠ [] → (∀ c ∈ digits, Decimal.isDigit c = true) →
      part ≠ [] → (∀ c ∈ part, Decimal.isDigit c = true) →
      Spells (number (Decimal.Numeral.toFloat ⟨Decimal.digitsValue (digits ++ part), -(part.length : Int)⟩))
        (digits ++ '.' :: part)
  | name {c : Char} {cs : List Char} : isNameStart c = true → qualifiedName cs = (cs, []) →
      Spells (name (String.ofList (c :: cs))) (c :: cs)
  | symbol {t : Token} : t.isWord = false → Spells t t.mark

variable {t : Token} {w cs rest : List Char} {c : Char}

/-! ### Characters of tokens -/

theorem isDigit_eq (c : Char) : Decimal.isDigit c = c.isDigit := by
  simp [Decimal.isDigit, Char.isDigit, Char.le_def, UInt32.le_iff_toNat_le]

theorem isNameChar_of_isDigit (h : Decimal.isDigit c = true) : isNameChar c = true := by
  rw [isDigit_eq] at h
  simp [isNameChar, Char.isAlphanum, h]

theorem isNameChar_of_isNameStart (h : isNameStart c = true) : isNameChar c = true := by
  simp only [isNameStart, Bool.or_eq_true] at h
  simp only [isNameChar, Char.isAlphanum, Bool.or_eq_true]
  exact h.imp .inl id

theorem mem_qualifiedName (hc : c ∈ (qualifiedName cs).1) : isNameChar c = true ∨ c = '.' := by
  induction cs with
  | nil => simp [qualifiedName] at hc
  | cons d cs ih =>
    simp only [qualifiedName] at hc
    split at hc
    · rename_i hd
      rcases List.mem_cons.mp hc with rfl | hc
      · simp only [Bool.or_eq_true, Bool.and_eq_true, beq_iff_eq] at hd
        exact hd.imp_right And.left
      · exact ih hc
    · simp at hc

/-- A word has the characters of names and dots. -/
theorem Spells.word_or_mark (h : Spells t w) :
    (t.isWord = true ∧ ∀ c ∈ w, isNameChar c = true ∨ c = '.') ∨ t.isWord = false ∧ w = t.mark := by
  cases h with
  | whole _ hdigits => exact .inl ⟨rfl, fun c hc => .inl (isNameChar_of_isDigit (hdigits c hc))⟩
  | fraction _ hdigits _ hpart =>
    refine .inl ⟨rfl, fun c hc => ?_⟩
    rcases List.mem_append.mp hc with hc | hc
    · exact .inl (isNameChar_of_isDigit (hdigits c hc))
    · rcases List.mem_cons.mp hc with rfl | hc
      · exact .inr rfl
      · exact .inl (isNameChar_of_isDigit (hpart c hc))
  | @name d cs hstart hcs =>
    refine .inl ⟨rfl, fun c hc => ?_⟩
    rcases List.mem_cons.mp hc with rfl | hc
    · exact .inl (isNameChar_of_isNameStart hstart)
    · have hmem : c ∈ (qualifiedName cs).1 := by rwa [hcs]
      exact mem_qualifiedName hmem
  | symbol ht => exact .inr ⟨ht, rfl⟩

/-- What is neither in words nor in the mark of a token is not in its text. -/
theorem Spells.not_mem (h : Spells t w) (hname : isNameChar c = false) (hdot : c ≠ '.')
    (hmark : c ∉ t.mark) : c ∉ w := by
  rcases h.word_or_mark with ⟨-, hchars⟩ | ⟨-, rfl⟩
  · intro hmem
    rcases hchars c hmem with hc | hc
    · simp [hname] at hc
    · exact hdot hc
  · exact hmark

theorem Spells.ne_nil (h : Spells t w) : w ≠ [] := by
  cases h with
  | whole hne _ => exact hne
  | fraction => simp
  | name => simp
  | symbol ht =>
    cases t with
    | number | name => cases ht
    | compare op => cases op <;> decide
    | _ => decide

theorem Spells.isBlank (h : Spells t w) (hc : c ∈ w) : Text.isBlank c = false := by
  rcases h.word_or_mark with ⟨-, hchars⟩ | ⟨ht, rfl⟩
  · rcases hchars c hc with hname | rfl
    · exact isBlank_of_isNameChar hname
    · decide
  · have hmark : t.mark.all (fun c => !Text.isBlank c) = true := by
      cases t with
      | number | name => cases ht
      | compare op => cases op <;> rfl
      | _ => rfl
    simpa using List.all_eq_true.mp hmark c hc

/-- A name is written as it is. -/
theorem Spells.toList_eq {s : String} (h : Spells (Token.name s) w) : s.toList = w := by
  cases h with
  | name => exact String.toList_ofList
  | symbol ht => cases ht

/-! ### Numbers -/

/-- A run of characters of a kind ends where none of the kind follows. -/
theorem span_run {p : Char → Bool} {run : List Char} (hrun : ∀ c ∈ run, p c = true)
    (hrest : ∀ c ∈ rest.head?, p c = false) :
    (run ++ rest).takeWhile p = run ∧ (run ++ rest).dropWhile p = rest := by
  rw [List.takeWhile_append_of_pos hrun, List.dropWhile_append_of_pos hrun]
  cases rest with
  | nil => simp
  | cons c rest => simp [hrest c rfl]

theorem head?_dropWhile_digits (cs : List Char) :
    ∀ c ∈ (cs.dropWhile Decimal.isDigit).head?, Decimal.isDigit c = false := by
  have hhead := List.head?_dropWhile_not Decimal.isDigit cs
  intro c hc
  rw [Option.mem_def.mp hc] at hhead
  exact hhead

theorem numberAt_sound (hstart : ∀ c ∈ cs.head?, Decimal.isDigit c = true) (hne : cs ≠ []) :
    ∃ w, Spells (number (numberAt cs).1) w ∧ cs = w ++ (numberAt cs).2 ∧
      ∀ c ∈ (numberAt cs).2.head?, c ≠ '.' → Decimal.isDigit c = false := by
  have hsplit := List.takeWhile_append_dropWhile (p := Decimal.isDigit) (l := cs)
  have hdigits : ∀ c ∈ cs.takeWhile Decimal.isDigit, Decimal.isDigit c = true :=
    fun c hc => List.mem_takeWhile_imp hc
  have hwhole : cs.takeWhile Decimal.isDigit ≠ [] := by
    obtain ⟨c, rest, rfl⟩ := List.exists_cons_of_ne_nil hne
    simp [hstart c rfl]
  have hnext := head?_dropWhile_digits cs
  simp only [numberAt]
  generalize cs.takeWhile Decimal.isDigit = digits at hsplit hdigits hwhole ⊢
  generalize cs.dropWhile Decimal.isDigit = after at hsplit hnext ⊢
  subst hsplit
  have hplain : ∃ w, Spells (number (Decimal.Numeral.toFloat ⟨Decimal.digitsValue (digits ++ []), 0⟩)) w ∧
      digits ++ after = w ++ after ∧ ∀ c ∈ after.head?, c ≠ '.' → Decimal.isDigit c = false := by
    rw [List.append_nil]
    exact ⟨digits, .whole hwhole hdigits, rfl, fun c hc _ => hnext c hc⟩
  unfold fractionDigits
  split
  · rename_i after
    dsimp only
    split
    · exact hplain
    · rename_i hpart
      refine ⟨digits ++ '.' :: after.takeWhile Decimal.isDigit, ?_, ?_, ?_⟩
      · exact .fraction hwhole hdigits (by simpa using hpart) fun c hc => List.mem_takeWhile_imp hc
      · simp
      · exact fun c hc _ => head?_dropWhile_digits after c hc
  · exact hplain

theorem numberAt_whole {digits : List Char} (hdigits : ∀ c ∈ digits, Decimal.isDigit c = true)
    (hrest : ∀ c ∈ rest.head?, (Decimal.isDigit c || c == '.') = false) :
    numberAt (digits ++ rest) = (Decimal.Numeral.toFloat ⟨Decimal.digitsValue digits, 0⟩, rest) := by
  obtain ⟨htake, hdrop⟩ := span_run hdigits fun c hc => (Bool.or_eq_false_iff.mp (hrest c hc)).1
  have hnone : fractionDigits rest = ([], rest) := by
    unfold fractionDigits
    split
    · cases hrest '.' rfl
    · rfl
  simp [numberAt, htake, hdrop, hnone]

theorem numberAt_fraction {digits part : List Char}
    (hdigits : ∀ c ∈ digits, Decimal.isDigit c = true) (hne : part ≠ [])
    (hpart : ∀ c ∈ part, Decimal.isDigit c = true)
    (hrest : ∀ c ∈ rest.head?, Decimal.isDigit c = false) :
    numberAt (digits ++ '.' :: part ++ rest) =
      (Decimal.Numeral.toFloat ⟨Decimal.digitsValue (digits ++ part), -(part.length : Int)⟩, rest) := by
  have hdot : ∀ c ∈ ('.' :: (part ++ rest)).head?, Decimal.isDigit c = false := by
    intro c hc
    cases hc
    decide
  obtain ⟨htake, hdrop⟩ := span_run hdigits hdot
  obtain ⟨htake', hdrop'⟩ := span_run hpart hrest
  rw [List.append_assoc, List.cons_append]
  simp [numberAt, htake, hdrop, fractionDigits, htake', hdrop', hne]

/-! ### Names -/

theorem head?_qualifiedName (h : (cs.head?.map isNameChar).getD false = true) :
    ((qualifiedName cs).1.head?.map isNameChar).getD false = true := by
  cases cs with
  | nil => simp at h
  | cons c cs =>
    have hc : isNameChar c = true := by simpa using h
    simp [qualifiedName, hc]

theorem qualifiedName_sound (cs : List Char) :
    qualifiedName (qualifiedName cs).1 = ((qualifiedName cs).1, []) ∧
      ∀ c ∈ (qualifiedName cs).2.head?, c ≠ '.' → isNameChar c = false := by
  induction cs with
  | nil => simp [qualifiedName]
  | cons c cs ih =>
    by_cases hc : (isNameChar c || (c == '.' && (cs.head?.map isNameChar).getD false)) = true
    · -- A dot that counts stands before a name character, which is in the name as well.
      have hagain : (isNameChar c ||
          (c == '.' && ((qualifiedName cs).1.head?.map isNameChar).getD false)) = true := by
        simp only [Bool.or_eq_true, Bool.and_eq_true] at hc ⊢
        exact hc.imp_right fun hdot => ⟨hdot.1, head?_qualifiedName hdot.2⟩
      simp only [qualifiedName, hc, hagain, if_true, ih.1]
      exact ⟨trivial, ih.2⟩
    · simp only [qualifiedName, if_neg hc]
      refine ⟨trivial, fun d hd _ => ?_⟩
      cases hd
      simp only [Bool.or_eq_true, not_or, Bool.not_eq_true] at hc
      exact hc.1

theorem qualifiedName_complete (h : qualifiedName cs = (cs, []))
    (hrest : ∀ c ∈ rest.head?, (isNameChar c || c == '.') = false) :
    qualifiedName (cs ++ rest) = (cs, rest) := by
  induction cs with
  | nil =>
    cases rest with
    | nil => rfl
    | cons c rest =>
      have hc := hrest c rfl
      simp only [Bool.or_eq_false_iff] at hc
      simp [qualifiedName, hc]
  | cons c cs ih =>
    by_cases hc : (isNameChar c || (c == '.' && (cs.head?.map isNameChar).getD false)) = true
    · have hagain : (isNameChar c ||
          (c == '.' && ((cs ++ rest).head?.map isNameChar).getD false)) = true := by
        simp only [Bool.or_eq_true, Bool.and_eq_true] at hc ⊢
        refine hc.imp_right fun hdot => ⟨hdot.1, ?_⟩
        cases cs with
        | nil => simp at hdot
        | cons d cs => simpa using hdot.2
      have hcs : qualifiedName cs = (cs, []) := by
        simp only [qualifiedName, hc, if_true, Prod.mk.injEq, List.cons.injEq, true_and] at h
        exact Prod.ext h.1 h.2
      simp only [List.cons_append, qualifiedName, hagain, if_true, ih hcs]
    · simp [qualifiedName, hc] at h

/-! ### Operators and parentheses -/

/-- Only of a mark that an equals sign makes longer there are two. -/
theorem head?_ne_equals (h : ∀ after, rest = '=' :: after → False) :
    ∀ c ∈ rest.head?, (c == '=') = false := by
  intro c hc
  obtain ⟨after, rfl⟩ := List.head?_eq_some_iff.mp hc
  simp only [beq_eq_false_iff_ne]
  rintro rfl
  exact h after rfl

theorem symbolAt?_sound (h : symbolAt? cs = some (t, rest)) :
    t.isWord = false ∧ cs = t.mark ++ rest ∧ ∀ c ∈ rest.head?, t.joins c = false := by
  unfold symbolAt? at h
  split at h
  all_goals cases h
  all_goals refine ⟨rfl, rfl, ?_⟩
  all_goals first
    | exact fun c _ => rfl
    | (rename_i hlonger; exact head?_ne_equals fun after hafter => hlonger after (by rw [hafter]))

theorem symbolAt?_complete (ht : t.isWord = false) (hrest : ∀ c ∈ rest.head?, t.joins c = false) :
    symbolAt? (t.mark ++ rest) = some (t, rest) := by
  have hlonger : t.joins '=' = true → ∀ after, rest = '=' :: after → False := by
    rintro hequals after rfl
    simp [hrest '=' rfl] at hequals
  cases t with
  | number | name => cases ht
  | bang =>
    change symbolAt? ('!' :: rest) = _
    rw [symbolAt?]
    exact hlonger rfl
  | compare op =>
    cases op with
    | lt =>
      change symbolAt? ('<' :: rest) = _
      rw [symbolAt?]
      exact hlonger rfl
    | gt =>
      change symbolAt? ('>' :: rest) = _
      rw [symbolAt?]
      exact hlonger rfl
    | _ => rfl
  | _ => rfl

/-! ### The token that starts a text -/

/-- What is taken off the front of a text is a token, which does not go on. Only a dot after a word may
remain, and none starts a token. -/
theorem at?_sound (h : at? cs = some (t, rest)) :
    ∃ w, Spells t w ∧ cs = w ++ rest ∧ ∀ c ∈ rest.head?, c ≠ '.' → t.joins c = false := by
  cases cs with
  | nil => cases h
  | cons c cs =>
    simp only [at?] at h
    split at h
    · rename_i hdigit
      cases h
      have hdigits : ∀ d ∈ (c :: cs).head?, Decimal.isDigit d = true := by simp [hdigit]
      obtain ⟨w, hw, hsplit, hends⟩ := numberAt_sound hdigits (by simp)
      refine ⟨w, hw, hsplit, fun d hd hdot => ?_⟩
      simp [joins, hends d hd hdot, hdot]
    · split at h
      · rename_i hstart
        cases h
        obtain ⟨hname, hends⟩ := qualifiedName_sound cs
        refine ⟨c :: (qualifiedName cs).1, .name hstart hname, ?_, fun d hd hdot => ?_⟩
        · rw [List.cons_append, qualifiedName_append]
        · simp [joins, hends d hd hdot, hdot]
      · obtain ⟨ht, hsplit, hends⟩ := symbolAt?_sound h
        exact ⟨t.mark, .symbol ht, hsplit, fun d hd _ => hends d hd⟩

theorem at?_of_isDigit (hc : Decimal.isDigit c = true) (cs : List Char) :
    at? (c :: cs) = some (number (numberAt (c :: cs)).1, (numberAt (c :: cs)).2) := by
  simp [at?, hc]

theorem isDigit_of_isNameStart (h : isNameStart c = true) : Decimal.isDigit c = false := by
  unfold isNameStart Char.isAlpha Char.isUpper Char.isLower at h
  rw [Bool.eq_false_iff]
  intro hdigit
  simp only [Decimal.isDigit, Bool.or_eq_true, Bool.and_eq_true, decide_eq_true_eq, beq_iff_eq,
    ge_iff_le, Char.le_def, UInt32.le_iff_toNat_le] at h hdigit
  have hnine : c.val.toNat ≤ 0x39 := hdigit.2
  rcases h with (⟨hl, -⟩ | ⟨hl, -⟩) | rfl
  · exact absurd (Nat.le_trans hl hnine) (by decide)
  · exact absurd (Nat.le_trans hl hnine) (by decide)
  · exact absurd hnine (by decide)

theorem at?_of_symbolAt? (h : symbolAt? cs = some (t, rest)) : at? cs = some (t, rest) := by
  have hfirst : ∃ c tail, cs = c :: tail ∧ Decimal.isDigit c = false ∧ isNameStart c = false := by
    obtain ⟨ht, rfl, -⟩ := symbolAt?_sound h
    cases t with
    | number | name => cases ht
    | compare op => cases op <;> exact ⟨_, _, rfl, by decide, by decide⟩
    | _ => exact ⟨_, _, rfl, by decide, by decide⟩
  obtain ⟨c, tail, rfl, hdigit, hstart⟩ := hfirst
  simp [at?, hdigit, hstart, h]

/-- A token is taken off a text that starts with it, unless the rest of the text joins it. -/
theorem Spells.at?_append (h : Spells t w) (hrest : ∀ c ∈ rest.head?, t.joins c = false) :
    at? (w ++ rest) = some (t, rest) := by
  cases h with
  | whole hne hdigits =>
    obtain ⟨c, cs, rfl⟩ := List.exists_cons_of_ne_nil hne
    have hnumber := numberAt_whole hdigits hrest
    rw [List.cons_append] at hnumber ⊢
    rw [at?_of_isDigit (hdigits c (by simp)), hnumber]
  | @fraction digits part hne hdigits hpart hpartDigits =>
    have hends : ∀ c ∈ rest.head?, Decimal.isDigit c = false :=
      fun c hc => (Bool.or_eq_false_iff.mp (hrest c hc)).1
    obtain ⟨c, cs, rfl⟩ := List.exists_cons_of_ne_nil hne
    have hnumber := numberAt_fraction hdigits hpart hpartDigits hends
    rw [List.cons_append, List.cons_append] at hnumber ⊢
    rw [at?_of_isDigit (hdigits c (by simp)), hnumber]
  | @name c cs hstart hcs =>
    have hname := qualifiedName_complete hcs hrest
    simp [at?, isDigit_of_isNameStart hstart, hstart, hname]
  | symbol ht => exact at?_of_symbolAt? (symbolAt?_complete ht hrest)

end TimedMutation.Token
