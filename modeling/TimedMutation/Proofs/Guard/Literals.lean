import TimedMutation.Proofs.Expr.Place
import TimedMutation.Proofs.Expr.Spacing
import TimedMutation.Proofs.Guard.Parts
import TimedMutation.Proofs.Guard.Tokens

/-! The whole numbers that are found in a guard are the number tokens without a point, and another
number may be written in the place of each. -/

namespace TimedMutation

/-- A whole number is one token of a text, with tokens in front of it and behind it. -/
structure IntegerLiteral.StandsIn (l : IntegerLiteral) (text : List Char) (front back : List Token) :
    Prop where
  split : text = l.before ++ l.digits ++ l.after
  some : l.digits ≠ []
  digits : ∀ c ∈ l.digits, Decimal.isDigit c = true
  value : l.value = Decimal.digitsValue l.digits
  before : Token.Written front l.before
  after : Token.Written back l.after
  whole : Token.Written
    (front ++ .number (Decimal.Numeral.toFloat ⟨Decimal.digitsValue l.digits, 0⟩) :: back) text

/-! ### Characters of words -/

section

variable {t : Token} {ts : List Token} {w cs : List Char} {c : Char}

theorem glues_of_isDigit (h : Decimal.isDigit c = true) : gluesBefore c = true := by
  simp [gluesBefore, Token.isNameChar_of_isDigit h]

theorem isDigit_of_not_glues (h : gluesBefore c = false) : Decimal.isDigit c = false := by
  rw [Bool.eq_false_iff]
  intro hdigit
  simp [glues_of_isDigit hdigit] at h

theorem isNameChar_of_not_glues (h : gluesBefore c = false) : isNameChar c = false :=
  (Bool.or_eq_false_iff.mp h).1

theorem gluesAfter_of_not_glues (h : gluesBefore c = false) : gluesAfter c = false := by
  rw [gluesAfter, (Bool.or_eq_false_iff.mp h).2, Bool.or_false, Bool.eq_false_iff]
  intro hstart
  simpa [Token.isNameChar_of_isNameStart hstart] using isNameChar_of_not_glues h

theorem not_glues_of_isBlank (h : Text.isBlank c = true) : gluesBefore c = false := by
  rw [gluesBefore, isNameChar_of_isBlank h, Bool.false_or, beq_eq_false_iff_ne]
  rintro rfl
  cases h

theorem Token.Spells.glues (h : Spells t w) (ht : t.isWord = true) : ∀ c ∈ w, gluesBefore c = true := by
  rcases h.word_or_mark with ⟨-, hchars⟩ | ⟨hmark, -⟩
  · intro c hc
    simpa [gluesBefore] using hchars c hc
  · simp [ht] at hmark

theorem Token.Spells.not_glues (h : Spells t w) (ht : t.isWord = false) :
    ∀ c ∈ w, gluesBefore c = false := by
  rcases h.word_or_mark with ⟨hword, -⟩ | ⟨-, rfl⟩
  · simp [ht] at hword
  · have hall : t.mark.all (fun c => !gluesBefore c) = true := by
      cases t with
      | number | name => cases ht
      | compare op => cases op <;> rfl
      | _ => rfl
    simpa using hall

/-- Tokens that do not start with a word are written without a word at the start. -/
theorem Token.Written.head?_not_glues (h : Written ts cs) (hts : ∀ t ∈ ts.head?, t.isWord = false) :
    ∀ c ∈ cs.head?, gluesBefore c = false := by
  cases h with
  | nil => simp
  | blank hc _ =>
    intro d hd
    cases hd
    exact not_glues_of_isBlank hc
  | token hw _ _ =>
    intro c hc
    rw [List.head?_append_of_ne_nil _ hw.ne_nil] at hc
    exact hw.not_glues (hts _ rfl) c (List.mem_of_mem_head? hc)

/-- Tokens that do not end with a word are written without a word at the end. -/
theorem Token.Written.getLast?_not_glues (h : Written ts cs)
    (hts : ∀ t ∈ ts.getLast?, t.isWord = false) : ∀ c ∈ cs.getLast?, gluesBefore c = false := by
  induction h with
  | nil => simp
  | @blank ts c cs hc _ ih =>
    cases cs with
    | nil =>
      intro d hd
      cases hd
      exact not_glues_of_isBlank hc
    | cons d cs => exact ih hts
  | @token t w ts cs hw _ hrest ih =>
    cases cs with
    | nil =>
      cases hrest.eq_nil
      intro c hc
      rw [List.append_nil] at hc
      exact hw.not_glues (hts t rfl) c (List.mem_of_mem_getLast? hc)
    | cons d cs =>
      rw [List.getLast?_append_cons]
      exact ih fun u hu => hts u (by simp [List.getLast?_cons, Option.mem_def.mp hu])

theorem Token.isWord_of_apart {u : Token} (h : t.Apart u) (hu : u.isWord = true) :
    t.isWord = false := by
  cases u with
  | number | name => simpa [Apart, fuses, isWord] using h
  | _ => cases hu

theorem Token.isWord_of_apart_left {u : Token} (h : t.Apart u) (ht : t.isWord = true) :
    u.isWord = false := by
  rw [Bool.eq_false_iff]
  intro hu
  simp [isWord_of_apart h hu] at ht

end

/-! ### Scanning for numbers -/

section

variable {read rest w : List Char} {c : Char}

theorem literalsFrom_other (hc : Decimal.isDigit c = false) (read rest : List Char) :
    literalsFrom read (c :: rest) = literalsFrom (c :: read) rest := by
  conv_lhs => unfold literalsFrom
  simp [hc]

theorem literalsFrom_others (hw : ∀ c ∈ w, Decimal.isDigit c = false) (read rest : List Char) :
    literalsFrom read (w ++ rest) = literalsFrom (w.reverse ++ read) rest := by
  induction w generalizing read with
  | nil => rfl
  | cons c w ih =>
    rw [List.cons_append, literalsFrom_other (hw c List.mem_cons_self),
      ih fun d hd => hw d (List.mem_cons_of_mem c hd)]
    simp

theorem takeWhile_append_of_stop {p : Char → Bool} (hrest : ∀ c ∈ rest.head?, p c = false)
    (w : List Char) :
    (w ++ rest).takeWhile p = w.takeWhile p ∧ (w ++ rest).dropWhile p = w.dropWhile p ++ rest := by
  induction w with
  | nil =>
    cases rest with
    | nil => simp
    | cons c rest => simp [hrest c rfl]
  | cons c w ih => by_cases hc : p c = true <;> simp [hc, ih]

/-- Digits that belong to a name or a fraction are passed with some of the word behind them. -/
theorem exists_literalsFrom_skip (hc : Decimal.isDigit c = true)
    (hrest : ∀ d ∈ rest.head?, gluesBefore d = false)
    (hglued : ((read.head?.map gluesBefore).getD false ||
      ((w.dropWhile Decimal.isDigit ++ rest).head?.map gluesAfter).getD false) = true) :
    ∃ front back, c :: w = front ++ back ∧ front ≠ [] ∧
      literalsFrom read (c :: w ++ rest) = literalsFrom (front.reverse ++ read) (back ++ rest) := by
  have hdigit : ∀ d ∈ rest.head?, Decimal.isDigit d = false :=
    fun d hd => isDigit_of_not_glues (hrest d hd)
  have hname : ∀ d ∈ rest.head?, (d.isAlphanum || d == '.') = false := by
    intro d hd
    have hnone := hrest d hd
    simp only [gluesBefore, isNameChar, Bool.or_eq_false_iff] at hnone ⊢
    exact ⟨hnone.1.1, hnone.2⟩
  obtain ⟨htake, hdrop⟩ := takeWhile_append_of_stop hdigit w
  obtain ⟨htake', hdrop'⟩ := takeWhile_append_of_stop hname (w.dropWhile Decimal.isDigit)
  refine ⟨c :: w.takeWhile Decimal.isDigit ++
    (w.dropWhile Decimal.isDigit).takeWhile fun d => d.isAlphanum || d == '.',
    (w.dropWhile Decimal.isDigit).dropWhile fun d => d.isAlphanum || d == '.', ?_, by simp, ?_⟩
  · rw [List.append_assoc, List.takeWhile_append_dropWhile, List.cons_append,
      List.takeWhile_append_dropWhile]
  · rw [List.cons_append]
    conv_lhs => unfold literalsFrom
    simp only [hc, if_true, htake, hdrop, hglued, htake', hdrop']
    simp

/-- No number is found in a word that starts with a letter, that goes on a word in front of it, or the
digits of which a fraction follows. -/
theorem literalsFrom_word (hw : ∀ c ∈ w, gluesBefore c = true)
    (hrest : ∀ c ∈ rest.head?, gluesBefore c = false)
    (hstart : ∀ c tail, w = c :: tail → Decimal.isDigit c = true →
      ((read.head?.map gluesBefore).getD false ||
        ((tail.dropWhile Decimal.isDigit ++ rest).head?.map gluesAfter).getD false) = true) :
    literalsFrom read (w ++ rest) = literalsFrom (w.reverse ++ read) rest := by
  induction hlength : w.length using Nat.strong_induction_on generalizing w read with
  | _ n ih =>
    subst hlength
    -- What is left of the word goes on what was read of it.
    have hlater : ∀ front back, w = front ++ back → front ≠ [] →
        literalsFrom (front.reverse ++ read) (back ++ rest) =
          literalsFrom (w.reverse ++ read) rest := by
      rintro front back rfl hne
      have hshorter : back.length < (front ++ back).length := by
        simpa using List.length_pos_iff.mpr hne
      have hback : literalsFrom (front.reverse ++ read) (back ++ rest) =
          literalsFrom (back.reverse ++ (front.reverse ++ read)) rest := by
        refine ih _ hshorter (fun c hc => hw c (List.mem_append_right front hc)) ?_ rfl
        intro c tail _ _
        rcases List.eq_nil_or_concat front with rfl | ⟨init, last, rfl⟩
        · exact absurd rfl hne
        · simp [hw last (by simp)]
      rw [hback]
      simp
    cases w with
    | nil => rfl
    | cons c w =>
      by_cases hc : Decimal.isDigit c = true
      · obtain ⟨front, back, hsplit, hne, hskip⟩ :=
          exists_literalsFrom_skip hc hrest (hstart c w rfl hc)
        rw [hskip, hlater front back hsplit hne]
      · rw [List.cons_append, literalsFrom_other (by simpa using hc)]
        exact hlater [c] w rfl (by simp)

/-- A run of digits that is no part of another word is found if 64 bits hold its value. -/
theorem literalsFrom_digits (hne : w ≠ []) (hw : ∀ c ∈ w, Decimal.isDigit c = true)
    (hread : ∀ c ∈ read.head?, gluesBefore c = false)
    (hrest : ∀ c ∈ rest.head?, gluesBefore c = false) :
    literalsFrom read (w ++ rest) =
      if Text.isWord64 (Decimal.digitsValue w) then
        ⟨read.reverse, w, rest, Decimal.digitsValue w⟩ :: literalsFrom (w.reverse ++ read) rest
      else literalsFrom (w.reverse ++ read) rest := by
  obtain ⟨c, w, rfl⟩ := List.exists_cons_of_ne_nil hne
  have hdigit : ∀ d ∈ rest.head?, Decimal.isDigit d = false :=
    fun d hd => isDigit_of_not_glues (hrest d hd)
  obtain ⟨htake, hdrop⟩ := Token.span_run (fun d hd => hw d (List.mem_cons_of_mem c hd)) hdigit
  have hbefore : (read.head?.map gluesBefore).getD false = false := by
    cases hhead : read.head? with
    | none => rfl
    | some d => exact hread d hhead
  have hafter : (rest.head?.map gluesAfter).getD false = false := by
    cases hhead : rest.head? with
    | none => rfl
    | some d => exact gluesAfter_of_not_glues (hrest d hhead)
  rw [List.cons_append]
  conv_lhs => unfold literalsFrom
  simp [hw c List.mem_cons_self, htake, hdrop, hbefore, hafter]

/-- At a token one number at most is found: the token itself, if it is written with digits only. -/
theorem literalsFrom_token {t : Token} (h : Token.Spells t w)
    (hread : t.isWord = true → ∀ c ∈ read.head?, gluesBefore c = false)
    (hrest : t.isWord = true → ∀ c ∈ rest.head?, gluesBefore c = false) :
    literalsFrom read (w ++ rest) = literalsFrom (w.reverse ++ read) rest ∨
      t = .number (Decimal.Numeral.toFloat ⟨Decimal.digitsValue w, 0⟩) ∧
        (∀ c ∈ w, Decimal.isDigit c = true) ∧ Text.isWord64 (Decimal.digitsValue w) = true ∧
        literalsFrom read (w ++ rest) =
          ⟨read.reverse, w, rest, Decimal.digitsValue w⟩ :: literalsFrom (w.reverse ++ read) rest := by
  have hglues := h.glues
  cases h with
  | whole hne hdigits =>
    rw [literalsFrom_digits hne hdigits (hread rfl) (hrest rfl)]
    split
    · rename_i hvalue
      exact .inr ⟨rfl, hdigits, hvalue, rfl⟩
    · exact .inl rfl
  | @fraction digits part hne hdigits =>
    refine .inl (literalsFrom_word (hglues rfl) (hrest rfl) ?_)
    obtain ⟨d, digits, rfl⟩ := List.exists_cons_of_ne_nil hne
    have hdrop : (digits ++ '.' :: part).dropWhile Decimal.isDigit = '.' :: part := by
      rw [List.dropWhile_append_of_pos fun c hc => hdigits c (List.mem_cons_of_mem _ hc)]
      rfl
    rintro c tail ⟨⟩ -
    simp [hdrop, gluesAfter]
  | @name c cs hstart =>
    refine .inl (literalsFrom_word (hglues rfl) (hrest rfl) ?_)
    rintro d tail ⟨⟩ hd
    simp [Token.isDigit_of_isNameStart hstart] at hd
  | symbol ht =>
    have hnone := (Token.Spells.symbol ht).not_glues ht
    exact .inl (literalsFrom_others (fun c hc => isDigit_of_not_glues (hnone c hc)) read rest)

end

/-! ### The numbers of a text -/

section

variable {t : Token} {ts us front back : List Token} {read cs w : List Char} {l : IntegerLiteral}

/-- The text that was read ends with no word, or the text that comes starts with none. -/
def Breaks (read cs : List Char) : Prop :=
  ∀ c ∈ read.head?, ∀ d ∈ cs.head?, gluesBefore c = true → gluesBefore d = false

theorem Breaks.head?_not_glues (h : Breaks read (w ++ cs)) (hw : Token.Spells t w)
    (ht : t.isWord = true) : ∀ c ∈ read.head?, gluesBefore c = false := by
  intro c hc
  rw [Bool.eq_false_iff]
  intro hglues
  obtain ⟨d, tail, rfl⟩ := List.exists_cons_of_ne_nil hw.ne_nil
  have hd := h c hc d rfl hglues
  simp [hw.glues ht d List.mem_cons_self] at hd

theorem breaks_of_isBlank {c : Char} (hc : Text.isBlank c = true) (read cs : List Char) :
    Breaks (c :: read) cs := by
  intro d hd _ _ hglues
  cases hd
  simp [not_glues_of_isBlank hc] at hglues

/-- Behind a token that stays apart from the next one, the text breaks. -/
theorem breaks_of_apart (hw : Token.Spells t w) (h : Token.Written ts cs)
    (hapart : ∀ u ∈ ts.head?, t.Apart u) (read : List Char) : Breaks (w.reverse ++ read) cs := by
  by_cases ht : t.isWord = true
  · intro _ _ d hd _
    exact h.head?_not_glues (fun u hu => Token.isWord_of_apart_left (hapart u hu) ht) d hd
  · intro c hc d _ hglues
    rw [List.head?_append_of_ne_nil _ (by simpa using hw.ne_nil), List.head?_reverse] at hc
    simp [hw.not_glues (by simpa using ht) c (List.mem_of_mem_getLast? hc)] at hglues

/-- Tokens that do not end with a word are passed, whatever follows. -/
theorem exists_literalsFrom_append (h : Token.Written ts cs) (hapart : ts.IsChain Token.Apart)
    (hlast : ∀ t ∈ ts.getLast?, t.isWord = false) (hread : Breaks read cs) (rest : List Char) :
    ∃ passed, literalsFrom read (cs ++ rest) = passed ++ literalsFrom (cs.reverse ++ read) rest := by
  induction h generalizing read with
  | nil => exact ⟨[], rfl⟩
  | @blank ts c cs hc _ ih =>
    obtain ⟨passed, hpassed⟩ := ih hapart hlast (breaks_of_isBlank hc read cs)
    refine ⟨passed, ?_⟩
    rw [List.cons_append, literalsFrom_other (isDigit_of_not_glues (not_glues_of_isBlank hc)),
      hpassed]
    simp
  | @token t w ts cs hw _ hrest ih =>
    obtain ⟨hnext, htail⟩ := List.isChain_cons.mp hapart
    have hlast' : ∀ u ∈ ts.getLast?, u.isWord = false :=
      fun u hu => hlast u (by simp [List.getLast?_cons, Option.mem_def.mp hu])
    obtain ⟨passed, hpassed⟩ := ih htail hlast' (breaks_of_apart hw hrest hnext read)
    have hends : t.isWord = true → ∀ c ∈ (cs ++ rest).head?, gluesBefore c = false := by
      intro ht
      cases cs with
      | nil =>
        cases hrest.eq_nil
        simp [hlast t rfl] at ht
      | cons d cs =>
        exact hrest.head?_not_glues fun u hu => Token.isWord_of_apart_left (hnext u hu) ht
    rw [List.append_assoc]
    rcases literalsFrom_token hw (hread.head?_not_glues hw) hends with hskip | ⟨-, -, -, hfound⟩
    · exact ⟨passed, by rw [hskip, hpassed]; simp⟩
    · exact ⟨⟨read.reverse, w, cs ++ rest, Decimal.digitsValue w⟩ :: passed, by
        rw [hfound, hpassed]
        simp⟩

theorem IntegerLiteral.StandsIn.behind (h : l.StandsIn cs front back) (hus : Token.Written us w)
    (hends : ∀ t ∈ us.getLast?, ∀ c ∈ cs.head?, t.joins c = false) :
    { l with before := w ++ l.before }.StandsIn (w ++ cs) (us ++ front) back where
  split := by simp [h.split]
  some := h.some
  digits := h.digits
  value := h.value
  before := hus.append h.before fun t ht c hc => hends t ht c (by
    rw [h.split, List.append_assoc, List.head?_append, Option.mem_def.mp hc]
    rfl)
  after := h.after
  whole := by
    have hwhole := hus.append h.whole hends
    simpa using hwhole

/-- What is found is a token of the text. -/
theorem standsIn_of_mem (h : Token.Written ts cs) (hapart : ts.IsChain Token.Apart)
    (hread : Breaks read cs) (hl : l ∈ literalsFrom read cs) :
    Text.isWord64 l.value = true ∧ ∃ before front back, l.before = read.reverse ++ before ∧
      { l with before }.StandsIn cs front back := by
  induction h generalizing read with
  | nil =>
    unfold literalsFrom at hl
    cases hl
  | @blank ts c cs hc _ ih =>
    rw [literalsFrom_other (isDigit_of_not_glues (not_glues_of_isBlank hc))] at hl
    obtain ⟨hvalue, before, front, back, hbefore, hstands⟩ :=
      ih hapart (breaks_of_isBlank hc read cs) hl
    have hblank : Token.Written [] [c] := .blank hc .nil
    exact ⟨hvalue, c :: before, front, back, by simp [hbefore], hstands.behind hblank (by simp)⟩
  | @token t w ts cs hw hends hrest ih =>
    obtain ⟨hnext, htail⟩ := List.isChain_cons.mp hapart
    have hlater : l ∈ literalsFrom (w.reverse ++ read) cs →
        Text.isWord64 l.value = true ∧ ∃ before front back, l.before = read.reverse ++ before ∧
          { l with before }.StandsIn (w ++ cs) front back := by
      intro hl
      obtain ⟨hvalue, before, front, back, hbefore, hstands⟩ :=
        ih htail (breaks_of_apart hw hrest hnext read) hl
      refine ⟨hvalue, w ++ before, t :: front, back, by simp [hbefore], ?_⟩
      refine hstands.behind (.of_spells hw) fun u hu c hc => ?_
      cases hu
      exact hends c hc
    have hapart' : t.isWord = true → ∀ c ∈ cs.head?, gluesBefore c = false := fun ht =>
      hrest.head?_not_glues fun u hu => Token.isWord_of_apart_left (hnext u hu) ht
    rcases literalsFrom_token hw (hread.head?_not_glues hw) hapart' with
      hskip | ⟨rfl, hdigits, hvalue, hfound⟩
    · exact hlater (hskip ▸ hl)
    · rw [hfound] at hl
      rcases List.mem_cons.mp hl with rfl | hl
      · exact ⟨hvalue, [], [], ts, by simp,
          ⟨rfl, hw.ne_nil, hdigits, rfl, .nil, hrest, .token hw hends hrest⟩⟩
      · exact hlater hl

/-- The neighbours of a number in a phrase are no words. -/
theorem not_words_of_apart {x : Float} (h : (front ++ .number x :: back).IsChain Token.Apart) :
    front.IsChain Token.Apart ∧ (∀ t ∈ front.getLast?, t.isWord = false) ∧
      ∀ t ∈ back.head?, t.isWord = false := by
  obtain ⟨hfront, hback, hborder⟩ := List.isChain_append.mp h
  refine ⟨hfront, fun t ht => ?_, fun t ht => ?_⟩
  · exact Token.isWord_of_apart (hborder t ht (.number x) rfl) rfl
  · exact Token.isWord_of_apart_left ((List.isChain_cons.mp hback).1 t ht) rfl

theorem apart_of_standsIn {text : String} {tree : Expr} (h : Expr.ofText text = .ok tree)
    (hl : l.StandsIn text.toList front back) :
    (front ++ .number (Decimal.Numeral.toFloat ⟨Decimal.digitsValue l.digits, 0⟩) :: back).IsChain
      Token.Apart := by
  obtain ⟨ts, hwritten, hphrase⟩ := Expr.ofText_eq_ok.mp h
  cases hwritten.unique hl.whole
  exact hphrase.apart

/-- The whole numbers of a text that is read as an expression are its tokens without a point, if 64 bits
hold them. -/
theorem mem_integerLiterals {text : String} {tree : Expr} (h : Expr.ofText text = .ok tree) :
    l ∈ integerLiterals text ↔
      Text.isWord64 l.value = true ∧ ∃ front back, l.StandsIn text.toList front back := by
  have hstart : Breaks [] text.toList := by simp [Breaks]
  constructor
  · intro hl
    obtain ⟨ts, hwritten, hphrase⟩ := Expr.ofText_eq_ok.mp h
    obtain ⟨hvalue, before, front, back, hbefore, hstands⟩ :=
      standsIn_of_mem hwritten hphrase.apart hstart hl
    obtain rfl : l.before = before := hbefore
    exact ⟨hvalue, front, back, hstands⟩
  · rintro ⟨hvalue, front, back, hl⟩
    obtain ⟨hfront, hlast, hnext⟩ := not_words_of_apart (apart_of_standsIn h hl)
    rw [hl.split, List.append_assoc] at hstart
    have hbefore : Breaks [] l.before := by simp [Breaks]
    obtain ⟨passed, hpassed⟩ :=
      exists_literalsFrom_append hl.before hfront hlast hbefore (l.digits ++ l.after)
    have hread : ∀ c ∈ (l.before.reverse ++ []).head?, gluesBefore c = false := by
      rw [List.append_nil, List.head?_reverse]
      exact hl.before.getLast?_not_glues hlast
    rw [literalsFrom_digits hl.some hl.digits hread (hl.after.head?_not_glues hnext), ← hl.value,
      if_pos hvalue] at hpassed
    rw [integerLiterals, hl.split, List.append_assoc, hpassed]
    simp

end

/-! ### Their order -/

theorem length_le_of_mem_literalsFrom {read cs : List Char} {l : IntegerLiteral}
    (h : l ∈ literalsFrom read cs) : read.length ≤ l.before.length := by
  fun_induction literalsFrom read cs with
  | case1 => simp at h
  | case2 read c rest hdigit digits after hglued skipped ih =>
    have hlength := ih h
    simp only [List.length_append] at hlength
    omega
  | case3 read c rest hdigit digits after hglued value others hword ih =>
    rcases List.mem_cons.mp h with rfl | h
    · simp
    · have hlength := ih h
      simp only [List.length_append] at hlength
      omega
  | case4 read c rest hdigit digits after hglued value others hword ih =>
    have hlength := ih h
    simp only [List.length_append] at hlength
    omega
  | case5 read c rest hdigit ih =>
    have hlength := ih h
    simp only [List.length_cons] at hlength
    omega

/-- Numbers are found from left to right. -/
theorem pairwise_literalsFrom (read cs : List Char) :
    (literalsFrom read cs).Pairwise fun l m => l.before.length < m.before.length := by
  fun_induction literalsFrom read cs with
  | case1 => exact .nil
  | case2 read c rest hdigit digits after hglued skipped ih => exact ih
  | case3 read c rest hdigit digits after hglued value others hword ih =>
    refine .cons (fun m hm => ?_) ih
    have hlength := length_le_of_mem_literalsFrom hm
    simp only [List.length_append, List.length_reverse, digits, List.length_cons] at hlength ⊢
    omega
  | case4 read c rest hdigit digits after hglued value others hword ih => exact ih
  | case5 read c rest hdigit ih => exact ih

/-! ### Other numbers in their places -/

/-- The tokens of an integer. -/
def Token.ofInt : Int → List Token
  | .ofNat n => [.number (Decimal.Numeral.toFloat ⟨n, 0⟩)]
  | .negSucc n => [.minus, .number (Decimal.Numeral.toFloat ⟨n + 1, 0⟩)]

theorem Token.spells_ofNat (n : ℕ) :
    Spells (.number (Decimal.Numeral.toFloat ⟨n, 0⟩)) (Text.ofNat n).toList := by
  have hdigits : ∀ c ∈ (Text.ofNat n).toList, Decimal.isDigit c = true :=
    fun c hc => (isDigit_eq c).trans (Text.isDigit_of_mem_ofNat hc)
  have hspells := Spells.whole (Text.ofNat_ne_nil n) hdigits
  rwa [Text.digitsValue_ofNat] at hspells

theorem Token.written_ofInt (m : Int) : Written (ofInt m) (Text.ofInt m).toList := by
  cases m with
  | ofNat n => exact .of_spells (spells_ofNat n)
  | negSucc n =>
    have hminus : Spells .minus ['-'] := .symbol rfl
    rw [Text.ofInt, String.toList_append]
    exact .token hminus (fun _ _ => rfl) (.of_spells (spells_ofNat (n + 1)))

theorem Expr.derives_ofInt (m : Int) : Derives .signed (Token.ofInt m) (ofInt m) := by
  cases m with
  | ofNat n => exact .unsigned (.number _)
  | negSucc n => exact .minus (.unsigned (.number _))

/-- In the place of a whole number of an expression, any other may be written. -/
theorem Expr.ofText_replacedBy {text : String} {tree : Expr} {l : IntegerLiteral}
    {front back : List Token} (h : ofText text = .ok tree) (hl : l.StandsIn text.toList front back) :
    ∃ place : Place, place.numbersBefore = front.countP Token.isNumber ∧
      tree = place.fill (.ofInt l.value) ∧
      ∀ m, ofText (l.replacedBy (Text.ofInt m)) = .ok (place.fill (.ofInt m)) := by
  obtain ⟨-, hlast, hnext⟩ := not_words_of_apart (apart_of_standsIn h hl)
  obtain ⟨ts, hwritten, hphrase⟩ := ofText_eq_ok.mp h
  cases hwritten.unique hl.whole
  obtain ⟨place, htree, hbefore, hrefill⟩ := hphrase.refill
  refine ⟨place, hbefore, by rw [htree, hl.value]; rfl, fun m => ?_⟩
  have hhead : (Token.ofInt m).head? ≠ some .bang := by cases m <;> simp [Token.ofInt]
  refine ofText_eq_ok.mpr ⟨_, ?_, hrefill _ _ (derives_ofInt m) hhead⟩
  rw [IntegerLiteral.replacedBy, String.toList_ofList]
  refine (hl.before.append (Token.written_ofInt m) ?_).append hl.after ?_
  · intro t ht c hc
    have hword := hlast t ht
    obtain ⟨d, cs, htext, hd⟩ := Text.exists_ofInt m
    rw [htext] at hc
    cases hc
    refine Token.joins_eq_false (fun hword' => by simp [hword] at hword') ?_
    rintro - rfl
    exact hd.elim (by decide) (by decide)
  · intro t ht c hc
    have hglues := hl.after.head?_not_glues hnext c hc
    have hdigit := isDigit_of_not_glues hglues
    have hnumber : ∃ x, t = .number x := by
      cases m <;> simp [Token.ofInt, List.getLast?_append] at ht <;> exact ⟨_, ht.symm⟩
    obtain ⟨x, rfl⟩ := hnumber
    simp only [gluesBefore, Bool.or_eq_false_iff] at hglues
    simp [Token.joins, hdigit, hglues.2]

end TimedMutation
