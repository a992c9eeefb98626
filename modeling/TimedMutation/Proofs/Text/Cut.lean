import TimedMutation.Proofs.Text.Pieces
import TimedMutation.Text.Word

/-! Texts that are put together from parts and taken apart again: at white space, at marks, and into
words. -/

namespace TimedMutation.Text

variable {as bs cs before after : List Char} {c m : Char} {ms : List Char}

/-! ### White space at the ends -/

theorem trimStart_append_of_allBlank (h : allBlank as = true) : trimStart (as ++ bs) = trimStart bs := by
  have hall : ∀ x ∈ as, isBlank x = true := by simpa [allBlank] using h
  rw [trimStart, List.dropWhile_append_of_pos hall]
  rfl

theorem trimEnd_append_of_allBlank (h : allBlank bs = true) : trimEnd (as ++ bs) = trimEnd as := by
  have hreverse : allBlank bs.reverse = true := allBlank_reverse.trans h
  rw [trimEnd_eq_reverse, List.reverse_append, trimStart_append_of_allBlank hreverse,
    ← trimEnd_eq_reverse]

theorem Bare.ne_nil (h : Bare cs) : cs ≠ [] := by
  obtain ⟨c, rest, hc, -⟩ := h.starts
  simp [hc]

theorem Bare.trimStart_append (h : Bare cs) (after : List Char) :
    trimStart (cs ++ after) = cs ++ after := by
  obtain ⟨c, rest, hc, hblank⟩ := h.starts
  simp [hc, trimStart, hblank]

theorem Bare.trimEnd_append (h : Bare cs) (before : List Char) :
    trimEnd (before ++ cs) = before ++ cs := by
  obtain ⟨c, rest, hc, hblank⟩ := h.ends
  have hstart : trimStart (before ++ cs).reverse = (before ++ cs).reverse := by
    simp [hc, trimStart, hblank]
  rw [trimEnd_eq_reverse, hstart, List.reverse_reverse]

theorem Bare.trimEnd_eq (h : Bare cs) : trimEnd cs = cs := h.trimEnd_append []

theorem bare_of_any (hne : cs ≠ []) (h : cs.any isBlank = false) : Bare cs :=
  bare_of_no_blank hne (by simpa using h)

/-- White space around a text that is blank at neither end is what trimming takes away. -/
theorem Bare.trim_between (h : Bare cs) (hbefore : allBlank before = true)
    (hafter : allBlank after = true) : trim (before ++ cs ++ after) = cs := by
  rw [trim, List.append_assoc, trimStart_append_of_allBlank hbefore, h.trimStart_append,
    trimEnd_append_of_allBlank hafter, h.trimEnd_eq]

/-- A text with no white space at its ends. -/
def Trimmed (cs : List Char) : Prop := trim cs = cs

instance (cs : List Char) : Decidable (Trimmed cs) := inferInstanceAs (Decidable (trim cs = cs))

theorem Trimmed.trim_between (h : Trimmed cs) (hbefore : allBlank before = true)
    (hafter : allBlank after = true) : trim (before ++ cs ++ after) = cs := by
  by_cases hnil : cs = []
  · subst hnil
    rw [trim, List.append_nil, trimStart_append_of_allBlank hbefore, trimStart_eq_nil.mpr hafter]
    rfl
  · have hbare : Bare (trim cs) := bare_trim (by rwa [h])
    rw [h] at hbare
    exact hbare.trim_between hbefore hafter

theorem Trimmed.trim_cons (h : Trimmed cs) (hc : isBlank c = true) : trim (c :: cs) = cs := by
  have hbetween : trim ([c] ++ cs ++ []) = cs := h.trim_between (by simp [allBlank, hc]) rfl
  simpa using hbetween

theorem Bare.trimmed (h : Bare cs) : Trimmed cs := by
  have hbetween : trim ([] ++ cs ++ []) = cs := h.trim_between rfl rfl
  rwa [List.nil_append, List.append_nil] at hbetween

theorem Bare.trim_concat (h : Bare cs) (hc : isBlank c = true) : trim (cs ++ [c]) = cs := by
  have hbetween : trim ([] ++ cs ++ [c]) = cs := h.trim_between rfl (by simp [allBlank, hc])
  simpa using hbetween

theorem trimmed_trim (cs : List Char) : Trimmed (trim cs) := by
  by_cases hnil : trim cs = []
  · rw [hnil]
    rfl
  · exact (bare_trim hnil).trimmed

/-- White space around a text makes no difference to what is left of it. -/
theorem trim_between (hbefore : allBlank before = true) (hafter : allBlank after = true)
    (cs : List Char) : trim (before ++ cs ++ after) = trim cs := by
  obtain ⟨left, right, hleft, hright, htext⟩ := exists_trim cs
  have hstart : allBlank (before ++ left) = true := by
    simpa [allBlank] using And.intro hbefore hleft
  have hend : allBlank (right ++ after) = true := by
    simpa [allBlank] using And.intro hright hafter
  have hwhole : before ++ cs ++ after = (before ++ left) ++ trim cs ++ (right ++ after) := by
    conv_lhs => rw [htext]
    simp
  rw [hwhole, (trimmed_trim cs).trim_between hstart hend]

theorem trimStart_append_cons (hc : isBlank c = false) (as bs : List Char) :
    trimStart (as ++ c :: bs) = trimStart as ++ c :: bs := by
  induction as with
  | nil => simp [trimStart, hc]
  | cons a as ih =>
    by_cases ha : isBlank a = true
    · simpa [trimStart, ha] using ih
    · simp [trimStart, ha]

/-- Of a text with a character that is no white space, only the sides are trimmed. -/
theorem trim_append_cons (hc : isBlank c = false) (as bs : List Char) :
    trim (as ++ c :: bs) = trimStart as ++ c :: trimEnd bs := by
  rw [trim, trimStart_append_cons hc, trimEnd_eq_reverse, List.reverse_append, List.reverse_cons,
    List.append_assoc, List.singleton_append, trimStart_append_cons hc, trimEnd_eq_reverse]
  simp

theorem trim_trimStart (cs : List Char) : trim (trimStart cs) = trim cs := by
  obtain ⟨before, hbefore, htext⟩ := exists_trimStart cs
  have hbetween : trim (before ++ trimStart cs ++ []) = trim (trimStart cs) :=
    trim_between hbefore rfl (trimStart cs)
  rwa [List.append_nil, ← htext, eq_comm] at hbetween

theorem trim_trimEnd (cs : List Char) : trim (trimEnd cs) = trim cs := by
  obtain ⟨after, hafter, htext⟩ := exists_trimEnd cs
  have hbetween : trim ([] ++ trimEnd cs ++ after) = trim (trimEnd cs) :=
    trim_between rfl hafter (trimEnd cs)
  rwa [List.nil_append, ← htext, eq_comm] at hbetween

/-! ### Marks -/

theorem not_mem_of_cutAt? (h : cutAt? [m] cs = some (before, after)) : m ∉ before := by
  induction cs generalizing before with
  | nil => cases h
  | cons c cs ih =>
    by_cases hc : m = c
    · simp only [cutAt?, afterStart?, hc, if_true] at h
      cases h
      simp
    · simp only [cutAt?, afterStart?, hc, if_false, Option.map_eq_some_iff] at h
      obtain ⟨⟨rest, after'⟩, hrest, hcut⟩ := h
      cases hcut
      simp [hc, ih hrest]

/-- A text is cut at the first mark in it, also at a mark of more characters if the first of them
does not stand in it again. -/
theorem cutAt?_append_mark (hm : m ∉ ms) (h : ¬ (m :: ms) <:+: before) (after : List Char) :
    cutAt? (m :: ms) (before ++ (m :: ms) ++ after) = some (before, after) := by
  induction before with
  | nil =>
    have hstart : afterStart? (m :: ms) (m :: (ms ++ after)) = some after :=
      afterStart?_eq_some.mpr rfl
    simp only [List.nil_append, List.cons_append, cutAt?, hstart]
  | cons x before ih =>
    have hrest : ¬ (m :: ms) <:+: before := fun hin => h (hin.trans (List.suffix_cons x before).isInfix)
    have hnone : afterStart? (m :: ms) (x :: (before ++ (m :: ms) ++ after)) = none := by
      rw [Option.eq_none_iff_forall_ne_some]
      intro rest hfound
      have heq : (x :: before) ++ ((m :: ms) ++ after) = (m :: ms) ++ rest := by
        simpa using afterStart?_eq_some.mp hfound
      rcases List.append_eq_append_iff.mp heq with ⟨left, hleft, hright⟩ | ⟨left, hleft, -⟩
      · -- The mark would begin in the text and end behind it, so that it had its first character twice.
        cases left with
        | nil =>
          rw [List.append_nil] at hleft
          exact h (hleft ▸ List.infix_rfl)
        | cons y left =>
          have hy : m = y := (List.cons.inj hright).1
          have hms : ms = before ++ y :: left := (List.cons.inj hleft).2
          exact hm (by simp [hms, hy])
      · exact h ⟨[], left, by simp [hleft]⟩
    simp only [List.cons_append, cutAt?, hnone, ih hrest, Option.map_some]

theorem cutAt?_append_of_not_mem (hm : m ∉ ms) (h : m ∉ before) (after : List Char) :
    cutAt? (m :: ms) (before ++ (m :: ms) ++ after) = some (before, after) :=
  cutAt?_append_mark hm (fun hin => h (hin.subset (by simp))) after

/-! ### Words -/

/-- The texts with a space in front of each. -/
def spaced (texts : List (List Char)) : List Char := texts.flatMap (' ' :: ·)

theorem Bare.append_spaced (h : Bare cs) {texts : List (List Char)} (htexts : ∀ text ∈ texts, Bare text) :
    Bare (cs ++ spaced texts) := by
  induction texts generalizing cs with
  | nil => simpa [spaced] using h
  | cons text texts ih =>
    have hnext : Bare (cs ++ [' '] ++ text) := h.append (htexts text (by simp)) [' ']
    have hrest := ih hnext fun text ht => htexts text (by simp [ht])
    simpa [spaced] using hrest

theorem trim_spaced {text : List Char} {texts : List (List Char)}
    (h : ∀ t ∈ text :: texts, Bare t) : trim (spaced (text :: texts)) = text ++ spaced texts := by
  have hwhole : Bare (text ++ spaced texts) :=
    (h text (by simp)).append_spaced fun t ht => h t (by simp [ht])
  exact hwhole.trimmed.trim_cons (by decide)

theorem splitOnP_spaced {p : Char → Bool} (hspace : p ' ' = true) {texts : List (List Char)}
    (h : ∀ text ∈ texts, ∀ x ∈ text, p x = false) {first : List Char} (hfirst : ∀ x ∈ first, p x = false) :
    (first ++ spaced texts).splitOnP p = first :: texts := by
  induction texts generalizing first with
  | nil => simpa [spaced] using List.splitOnP_eq_singleton hfirst
  | cons text texts ih =>
    have hrest := ih (fun text ht => h text (by simp [ht])) (h text (by simp))
    have hsplit := List.splitOnP_append_cons_of_forall_mem hfirst ' ' hspace (text ++ spaced texts)
    rw [hrest] at hsplit
    exact hsplit

/-- Two texts with a space before, between and after them. -/
def pair (as bs : List Char) : List Char := ' ' :: (as ++ spaced [bs, []])

theorem words_pair (has : as ≠ []) (hbs : bs ≠ []) (has' : ∀ x ∈ as, isBlank x = false)
    (hbs' : ∀ x ∈ bs, isBlank x = false) : words (pair as bs) = [as, bs] := by
  have hsplit : (as ++ spaced [bs, []]).splitOnP isBlank = [as, bs, []] :=
    splitOnP_spaced (by decide) (by simpa using hbs') has'
  rw [words, pair, List.splitOnP_cons_eq_if_modifyHead, if_pos (by decide), hsplit]
  simp [has, hbs]

/-! ### Lines -/

theorem withoutReturn_of_trimEnd (h : trimEnd cs = cs) : withoutReturn cs = cs := by
  have hnone : beforeEnd? ['\r'] cs = none := by
    rw [Option.eq_none_iff_forall_ne_some]
    intro before hbefore
    rw [beforeEnd?_eq_some.mp hbefore, trimEnd_append_of_allBlank (by decide)] at h
    have hlength := (List.dropWhile_suffix isBlank (l := before.reverse)).length_le
    have heq := congrArg List.length h
    simp only [trimEnd, List.length_reverse, List.length_append, List.length_singleton] at hlength heq
    omega
  rw [withoutReturn, hnone]
  rfl

/-- The lines of a text are those that it was put together from, if they hold no line feeds and do
not end in white space. -/
theorem lines_ended {texts : List (List Char)} (hfeed : ∀ text ∈ texts, '\n' ∉ text)
    (hend : ∀ text ∈ texts, trimEnd text = text) : lines (texts.flatMap (· ++ ['\n'])) = texts := by
  have hpieces : (texts.flatMap (· ++ ['\n'])).splitOn '\n' = texts ++ [[]] := by
    induction texts with
    | nil => rfl
    | cons text texts ih =>
      have hrest := ih (fun t ht => hfeed t (by simp [ht])) fun t ht => hend t (by simp [ht])
      have hsplit := List.splitOn_append_cons_self_of_not_mem (hfeed text (by simp))
        (texts.flatMap (· ++ ['\n']))
      rw [hrest] at hsplit
      simpa using hsplit
  have hended : texts.map withoutReturn = texts := by
    conv_rhs => rw [← List.map_id texts]
    exact List.map_congr_left fun text ht => withoutReturn_of_trimEnd (hend text ht)
  simp only [lines, hpieces, List.dropLast_concat, List.getLast?_concat, hended]

/-! ### Word characters -/

/-- The characters of white space as closed ranges of code points. -/
def blankRanges : List (ℕ × ℕ) :=
  [(0x09, 0x0D), (0x20, 0x20), (0x85, 0x85), (0xA0, 0xA0), (0x1680, 0x1680), (0x2000, 0x200A),
    (0x2028, 0x2029), (0x202F, 0x202F), (0x205F, 0x205F), (0x3000, 0x3000)]

theorem exists_blankRange (h : isBlank c = true) :
    ∃ range ∈ blankRanges, range.1 ≤ c.toNat ∧ c.toNat ≤ range.2 := by
  simp only [isBlank, Bool.or_eq_true, Bool.and_eq_true, decide_eq_true_eq, beq_iff_eq] at h
  simp only [blankRanges, List.mem_cons, List.not_mem_nil, or_false, exists_eq_or_imp,
    exists_eq_left]
  omega

/-- White space is not among letters and numbers. -/
theorem isBlank_of_isWordChar (h : isWordChar c = true) : isBlank c = false := by
  have hdisjoint : ∀ blank ∈ blankRanges, ∀ range ∈ letterOrNumberRanges,
      range.2 < blank.1 ∨ blank.2 < range.1 := by
    decide +kernel
  by_contra hblank
  obtain ⟨blank, hmem, hfirst, hlast⟩ := exists_blankRange (by simpa using hblank)
  rcases Bool.or_eq_true_iff.mp h with hletter | hunderscore
  · simp only [isLetterOrNumber, List.any_eq_true, Bool.and_eq_true, decide_eq_true_eq] at hletter
    obtain ⟨range, hrange, hfirst', hlast'⟩ := hletter
    have hapart := hdisjoint blank hmem range hrange
    omega
  · rw [beq_iff_eq] at hunderscore
    subst hunderscore
    exact hblank (by decide)

/-- The marks of a descriptor are no word characters. -/
theorem isWordChar_of_mark :
    isWordChar '.' = false ∧ isWordChar '-' = false ∧ isWordChar '\x7b' = false := by
  decide +kernel

theorem isWordChar_of_isWord (h : isWord cs = true) (hc : c ∈ cs) : isWordChar c = true := by
  simp only [isWord, Bool.and_eq_true, List.all_eq_true] at h
  exact h.2 c hc

theorem not_mem_of_isWord (h : isWord cs = true) (hc : isWordChar c = false) : c ∉ cs := by
  intro hmem
  have hword := isWordChar_of_isWord h hmem
  rw [hc] at hword
  cases hword

theorem bare_of_isWord (h : isWord cs = true) : Bare cs := by
  have hne : cs ≠ [] := by
    simp only [isWord, Bool.and_eq_true, Bool.not_eq_true', List.isEmpty_eq_false_iff] at h
    exact h.1
  exact bare_of_no_blank hne fun c hc => isBlank_of_isWordChar (isWordChar_of_isWord h hc)

end TimedMutation.Text
