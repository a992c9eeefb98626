import Mathlib.Data.List.Count
import Mathlib.Data.List.TakeWhile
import TimedMutation.Text.Blank

/-! What white space can hide. Trimming keeps every other character, and a stretch of text that is
blank at neither end is found again between two stretches of which the other characters are known. -/

namespace TimedMutation.Text

variable {as as' bs bs' ts ts' cs : List Char} {c c' : Char}

/-- Between the space and the next line mark, no character is white space. -/
theorem isBlank_of_between (h : 0x20 < c.toNat) (h' : c.toNat < 0x85) : isBlank c = false := by
  simp only [isBlank, Bool.or_eq_false_iff, Bool.and_eq_false_iff, decide_eq_false_iff_not,
    beq_eq_false_iff_ne]
  omega

theorem allBlank_reverse : allBlank cs.reverse = allBlank cs := by
  simp [allBlank]

theorem allBlank_eq_false : allBlank cs = false ↔ ∃ c ∈ cs, isBlank c = false := by
  simp [allBlank]

theorem exists_trimStart (cs : List Char) :
    ∃ before, allBlank before = true ∧ cs = before ++ trimStart cs := by
  refine ⟨cs.takeWhile isBlank, ?_, (List.takeWhile_append_dropWhile).symm⟩
  simp only [allBlank, List.all_eq_true]
  exact fun x hx => List.mem_takeWhile_imp hx

theorem trimEnd_eq_reverse (cs : List Char) : trimEnd cs = (trimStart cs.reverse).reverse := rfl

theorem exists_trimEnd (cs : List Char) :
    ∃ after, allBlank after = true ∧ cs = trimEnd cs ++ after := by
  obtain ⟨before, hblank, heq⟩ := exists_trimStart cs.reverse
  refine ⟨before.reverse, allBlank_reverse.trans hblank, ?_⟩
  rw [trimEnd_eq_reverse, ← List.reverse_append, ← heq, List.reverse_reverse]

/-- A text is its trimmed form between white space. -/
theorem exists_trim (cs : List Char) :
    ∃ before after, allBlank before = true ∧ allBlank after = true ∧
      cs = before ++ trim cs ++ after := by
  obtain ⟨before, hbefore, hstart⟩ := exists_trimStart cs
  obtain ⟨after, hafter, hend⟩ := exists_trimEnd (trimStart cs)
  refine ⟨before, after, hbefore, hafter, ?_⟩
  rw [trim, List.append_assoc, ← hend, ← hstart]

theorem mem_trim_or_blank (h : c ∈ cs) : c ∈ trim cs ∨ isBlank c = true := by
  obtain ⟨before, after, hbefore, hafter, htext⟩ := exists_trim cs
  simp only [allBlank, List.all_eq_true] at hbefore hafter
  rw [htext, List.mem_append, List.mem_append] at h
  rcases h with (h | h) | h
  · exact .inr (hbefore c h)
  · exact .inl h
  · exact .inr (hafter c h)

theorem trim_of_no_blank (h : ∀ x ∈ cs, isBlank x = false) : trim cs = cs := by
  have hstart : ∀ xs : List Char, (∀ x ∈ xs, isBlank x = false) → trimStart xs = xs := by
    intro xs hxs
    cases xs with
    | nil => rfl
    | cons x xs => simp [trimStart, hxs x]
  rw [trim, hstart cs h, trimEnd_eq_reverse, hstart cs.reverse (by simpa using h),
    List.reverse_reverse]

theorem trim_cons_of_blank (h : isBlank c = true) (cs : List Char) : trim (c :: cs) = trim cs := by
  simp [trim, trimStart, h]

theorem squeeze_append (as bs : List Char) : squeeze (as ++ bs) = squeeze as ++ squeeze bs := by
  simp [squeeze]

theorem squeeze_reverse (cs : List Char) : squeeze cs.reverse = (squeeze cs).reverse := by
  simp [squeeze]

theorem squeeze_of_allBlank (h : allBlank cs = true) : squeeze cs = [] := by
  simpa [squeeze, allBlank] using h

theorem squeeze_trim (cs : List Char) : squeeze (trim cs) = squeeze cs := by
  obtain ⟨before, after, hbefore, hafter, heq⟩ := exists_trim cs
  conv_rhs => rw [heq]
  simp [squeeze_append, squeeze_of_allBlank hbefore, squeeze_of_allBlank hafter]

theorem count_squeeze (hc : isBlank c = false) (cs : List Char) :
    (squeeze cs).count c = cs.count c := by
  rw [squeeze, List.count_filter (by simp [hc])]

theorem count_trim (hc : isBlank c = false) (cs : List Char) : (trim cs).count c = cs.count c := by
  rw [← count_squeeze hc, squeeze_trim, count_squeeze hc]

/-! ### Finding a stretch of text again -/

/-- The text has something in it and is blank at neither end. -/
structure Bare (cs : List Char) : Prop where
  starts : ∃ c rest, cs = c :: rest ∧ isBlank c = false
  ends : ∃ c rest, cs.reverse = c :: rest ∧ isBlank c = false

theorem trimStart_head (cs : List Char) :
    trimStart cs = [] ∨ ∃ c rest, trimStart cs = c :: rest ∧ isBlank c = false := by
  induction cs with
  | nil => exact .inl rfl
  | cons c cs ih =>
    cases h : isBlank c with
    | false => exact .inr ⟨c, cs, by simp [trimStart, h], h⟩
    | true =>
      have hsame : trimStart (c :: cs) = trimStart cs := by simp [trimStart, h]
      rwa [hsame]

theorem bare_trim (h : trim cs ≠ []) : Bare (trim cs) where
  starts := by
    obtain ⟨after, hafter, heq⟩ := exists_trimEnd (trimStart cs)
    obtain ⟨c, rest, hcons⟩ := List.exists_cons_of_ne_nil h
    rcases trimStart_head cs with hnil | ⟨d, tail, hd, hblank⟩
    · simp [trim, hnil, trimEnd] at h
    · have hc : c = d := by
        have hsame : trim cs ++ after = d :: tail := heq.symm.trans hd
        rw [hcons] at hsame
        exact (List.cons.inj hsame).1
      exact ⟨c, rest, hcons, hc ▸ hblank⟩
  ends := by
    have hrev : (trim cs).reverse = trimStart (trimStart cs).reverse := by
      rw [trim, trimEnd_eq_reverse, List.reverse_reverse]
    rcases trimStart_head (trimStart cs).reverse with hnil | hhead
    · rw [← hrev, List.reverse_eq_nil_iff] at hnil
      exact absurd hnil h
    · rwa [← hrev] at hhead

theorem bare_of_no_blank (hne : cs ≠ []) (h : ∀ x ∈ cs, isBlank x = false) : Bare cs := by
  have htrim : trim cs = cs := trim_of_no_blank h
  have hbare : Bare (trim cs) := bare_trim (by rwa [htrim])
  rwa [htrim] at hbare

theorem Bare.append (hs : Bare as) (ht : Bare bs) (mid : List Char) : Bare (as ++ mid ++ bs) := by
  obtain ⟨c, rest, hc, hblank⟩ := hs.starts
  obtain ⟨d, rest', hd, hblank'⟩ := ht.ends
  exact ⟨⟨c, rest ++ mid ++ bs, by simp [hc], hblank⟩,
    ⟨d, rest' ++ mid.reverse ++ as.reverse, by simp [hd], hblank'⟩⟩

/-- What stands between two stretches that are not empty may be replaced. -/
theorem Bare.replace (h : Bare (as ++ ts ++ bs)) (ha : as ≠ []) (hb : bs ≠ []) (ts' : List Char) :
    Bare (as ++ ts' ++ bs) := by
  obtain ⟨a, as, rfl⟩ := List.exists_cons_of_ne_nil ha
  rcases List.eq_nil_or_concat bs with rfl | ⟨bs, b, rfl⟩
  · exact absurd rfl hb
  · obtain ⟨c, rest, hc, hstart⟩ := h.starts
    obtain ⟨d, rest', hd, hend⟩ := h.ends
    obtain rfl : a = c := by simpa using congrArg List.head? hc
    obtain rfl : b = d := by simpa using congrArg List.head? hd
    exact ⟨⟨a, as ++ ts' ++ (bs ++ [b]), by simp, hstart⟩,
      ⟨b, bs.reverse ++ ts'.reverse ++ (as.reverse ++ [a]), by simp, hend⟩⟩

/-- Two stretches that end right before a character that is no white space and have the same
characters apart from white space have the same length. -/
theorem append_cons_inj (hc : isBlank c = false) (hc' : isBlank c' = false)
    (hs : squeeze as = squeeze as') (h : as ++ c :: bs = as' ++ c' :: bs') :
    as = as' ∧ c :: bs = c' :: bs' := by
  induction as generalizing as' with
  | nil =>
    cases as' with
    | nil => exact ⟨rfl, h⟩
    | cons a' as' =>
      have ha : c = a' := (List.cons.inj h).1
      simp [squeeze, ← ha, hc] at hs
  | cons a as ih =>
    cases as' with
    | nil =>
      have ha : a = c' := (List.cons.inj h).1
      simp [squeeze, ha, hc'] at hs
    | cons a' as' =>
      obtain ⟨rfl, htail⟩ := List.cons.inj h
      have hs' : squeeze as = squeeze as' := by
        cases hblank : isBlank a <;> simpa [squeeze, hblank] using hs
      obtain ⟨rfl, hrest⟩ := ih hs' htail
      exact ⟨rfl, hrest⟩

/-- What stands between two stretches is found again if it is blank at neither end. -/
theorem middle_inj (ht : Bare ts) (ht' : Bare ts') (ha : squeeze as = squeeze as')
    (hb : squeeze bs = squeeze bs') (h : as ++ ts ++ bs = as' ++ ts' ++ bs') : ts = ts' := by
  obtain ⟨c, rest, hc, hblank⟩ := ht.starts
  obtain ⟨c', rest', hc', hblank'⟩ := ht'.starts
  have hstart : ts ++ bs = ts' ++ bs' := by
    rw [hc, hc'] at h ⊢
    simp only [List.append_assoc, List.cons_append] at h
    exact (append_cons_inj hblank hblank' ha h).2
  obtain ⟨d, tail, hd, hblank⟩ := ht.ends
  obtain ⟨d', tail', hd', hblank'⟩ := ht'.ends
  have hrev := congrArg List.reverse hstart
  rw [List.reverse_append, List.reverse_append, hd, hd'] at hrev
  have hb' : squeeze bs.reverse = squeeze bs'.reverse := by
    rw [squeeze_reverse, squeeze_reverse, hb]
  have hend := (append_cons_inj hblank hblank' hb' hrev).2
  rw [← hd, ← hd'] at hend
  exact List.reverse_inj.mp hend

end TimedMutation.Text
