import TimedMutation.Proofs.Expr.Lexeme

/-!
The texts of lists of tokens. They are exactly the texts that the scanner accepts, and are put together
and cut between tokens.
-/

namespace TimedMutation.Token

/-- A text that consists of tokens, in their order, and of white space. No token goes on with what is
written right after it. -/
inductive Written : List Token → List Char → Prop
  | nil : Written [] []
  | blank {ts : List Token} {c : Char} {cs : List Char} :
      Text.isBlank c = true → Written ts cs → Written ts (c :: cs)
  | token {t : Token} {w : List Char} {ts : List Token} {cs : List Char} :
      Spells t w → (∀ c ∈ cs.head?, t.joins c = false) → Written ts cs → Written (t :: ts) (w ++ cs)

variable {t : Token} {ts us : List Token} {w as bs cs : List Char} {c : Char}

/-! ### Scanning -/

/-- No token starts with a dot. -/
theorem Written.head?_ne_dot (h : Written ts cs) : cs.head? ≠ some '.' := by
  intro hdot
  obtain ⟨rest, hrest⟩ := List.head?_eq_some_iff.mp hdot
  cases h with
  | nil => cases hrest
  | blank hc _ =>
    cases hrest
    cases hc
  | token hw hends _ =>
    have hat := hw.at?_append hends
    rw [hrest] at hat
    cases hat

theorem scanFrom_blank (hc : Text.isBlank c = true) (offset : ℕ) :
    scanFrom offset (c :: cs) = scanFrom (offset + 1) cs := by
  conv_lhs => unfold scanFrom
  simp [hc]

theorem written_of_scanFrom {offset : ℕ} (h : scanFrom offset cs = .ok ts) : Written ts cs := by
  fun_induction scanFrom offset cs generalizing ts with
  | case1 =>
    cases h
    exact .nil
  | case2 offset c cs hc ih => exact .blank hc (ih h)
  | case3 offset c cs hc t after hat ih =>
    obtain ⟨rest, hrest, h⟩ := bind_eq_ok.mp h
    cases pure_eq_ok.mp h
    obtain ⟨w, hw, hsplit, hends⟩ := at?_sound hat
    have hafter := ih hrest
    rw [hsplit]
    refine .token hw (fun d hd => hends d hd ?_) hafter
    rintro rfl
    exact hafter.head?_ne_dot hd
  | case4 offset c cs hc hat => cases h

theorem Written.scanFrom (h : Written ts cs) (offset : ℕ) : scanFrom offset cs = .ok ts := by
  induction h generalizing offset with
  | nil =>
    unfold Token.scanFrom
    rfl
  | blank hc _ ih => rw [scanFrom_blank hc, ih]
  | @token t w ts cs hw hends _ ih =>
    obtain ⟨c, tail, rfl⟩ := List.exists_cons_of_ne_nil hw.ne_nil
    have hat := hw.at?_append hends
    rw [List.cons_append] at hat ⊢
    rw [scanFrom_of_at? (hw.isBlank (by simp)) hat, ih]
    rfl

/-- The scanner accepts exactly the texts of tokens. -/
theorem scan_eq_ok : scan cs = .ok ts ↔ Written ts cs :=
  ⟨written_of_scanFrom, fun h => h.scanFrom 0⟩

theorem Written.unique (h : Written ts cs) (h' : Written us cs) : ts = us := by
  have hsame := (scan_eq_ok.mpr h).symm.trans (scan_eq_ok.mpr h')
  cases hsame
  rfl

/-! ### Putting texts together -/

theorem Written.of_spells (h : Spells t w) : Written [t] w := by
  have hword := Written.token h (by simp) .nil
  rwa [List.append_nil] at hword

/-- Every token of a text has a text of its own there. -/
theorem Written.exists_word (h : Written ts cs) (ht : t ∈ ts) :
    ∃ w, Spells t w ∧ ∀ c ∈ w, c ∈ cs := by
  induction h with
  | nil => simp at ht
  | blank _ _ ih =>
    obtain ⟨w, hw, hmem⟩ := ih ht
    exact ⟨w, hw, fun c hc => List.mem_cons_of_mem _ (hmem c hc)⟩
  | @token u w ts cs hw _ _ ih =>
    rcases List.mem_cons.mp ht with rfl | ht
    · exact ⟨w, hw, fun c hc => List.mem_append_left cs hc⟩
    · obtain ⟨w', hw', hmem⟩ := ih ht
      exact ⟨w', hw', fun c hc => List.mem_append_right w (hmem c hc)⟩

/-- A text without characters has no tokens. -/
theorem Written.eq_nil (h : Written ts []) : ts = [] := h.unique .nil

/-- Texts may be put together where the last token of the first does not join the second. -/
theorem Written.append (h : Written ts as) (h' : Written us bs)
    (hends : ∀ t ∈ ts.getLast?, ∀ c ∈ bs.head?, t.joins c = false) :
    Written (ts ++ us) (as ++ bs) := by
  induction h with
  | nil => exact h'
  | blank hc _ ih => exact .blank hc (ih hends)
  | @token t w ts cs hw hnext hrest ih =>
    have hlater := ih fun u hu => hends u (by simp [List.getLast?_cons, Option.mem_def.mp hu])
    rw [List.append_assoc]
    refine .token hw (fun c hc => ?_) hlater
    cases cs with
    | nil =>
      cases hrest.eq_nil
      exact hends t rfl c hc
    | cons d cs => exact hnext c hc

/-- A text without tokens is white space. -/
theorem written_nil : Written [] cs ↔ Text.allBlank cs = true := by
  constructor
  · intro h
    generalize hts : ([] : List Token) = ts at h
    induction h with
    | nil => rfl
    | blank hc _ ih => simpa [Text.allBlank, hc] using ih hts
    | token => cases hts
  · intro h
    induction cs with
    | nil => exact .nil
    | cons c cs ih =>
      simp only [Text.allBlank, List.all_cons, Bool.and_eq_true] at h
      exact .blank h.1 (ih h.2)

/-! ### Cutting texts -/

/-- A text is cut between two characters that do not stand in one token. -/
theorem Written.cut (h : Written ts (as ++ bs))
    (hcut : ∀ a ∈ as.getLast?, ∀ b ∈ bs.head?, ∀ t w, Spells t w → a ∈ w → b ∉ w) :
    ∃ front back, ts = front ++ back ∧ Written front as ∧ Written back bs := by
  generalize hcs : as ++ bs = cs at h
  induction h generalizing as with
  | nil =>
    obtain ⟨rfl, rfl⟩ := List.append_eq_nil_iff.mp hcs
    exact ⟨[], [], rfl, .nil, .nil⟩
  | @blank ts c cs hc hrest ih =>
    cases as with
    | nil =>
      cases hcs
      exact ⟨[], ts, rfl, .nil, .blank hc hrest⟩
    | cons a as =>
      obtain ⟨rfl, rfl⟩ := List.cons.inj hcs
      have hcut' : ∀ a' ∈ as.getLast?, ∀ b ∈ bs.head?, ∀ t w, Spells t w → a' ∈ w → b ∉ w := by
        intro a' ha'
        exact hcut a' (by simp [List.getLast?_cons, Option.mem_def.mp ha'])
      obtain ⟨front, back, rfl, hfront, hback⟩ := ih hcut' rfl
      exact ⟨front, back, rfl, .blank hc hfront, hback⟩
  | @token t w ts cs hw hends hrest ih =>
    rcases List.append_eq_append_iff.mp hcs with ⟨tail, rfl, rfl⟩ | ⟨tail, rfl, rfl⟩
    · -- The cut is not behind the token, so it is right before it, right after it or inside it.
      rcases List.eq_nil_or_concat as with rfl | ⟨init, a, rfl⟩
      · exact ⟨[], t :: ts, rfl, .nil, .token hw hends hrest⟩
      · cases tail with
        | nil =>
          rw [List.append_nil] at hw
          exact ⟨[t], ts, rfl, .of_spells hw, hrest⟩
        | cons b tail => exact absurd (by simp) (hcut a (by simp) b rfl t _ hw (by simp))
    · have hcut' : ∀ a ∈ tail.getLast?, ∀ b ∈ bs.head?, ∀ t w, Spells t w → a ∈ w → b ∉ w := by
        intro a ha
        exact hcut a (by simp [List.getLast?_append, Option.mem_def.mp ha])
      obtain ⟨front, back, rfl, hfront, hback⟩ := ih hcut' rfl
      refine ⟨t :: front, back, rfl, .token hw (fun c hc => hends c ?_) hfront, hback⟩
      rw [List.head?_append, Option.mem_def.mp hc]
      rfl

/-- White space around a text is not part of its tokens. -/
theorem Written.trim (h : Written ts cs) : Written ts (Text.trim cs) := by
  obtain ⟨before, after, hbefore, hafter, hsplit⟩ := Text.exists_trim cs
  have hblank : ∀ {blanks : List Char}, Text.allBlank blanks = true →
      ∀ c ∈ blanks, Text.isBlank c = true := by
    intro blanks hall
    simpa [Text.allBlank] using hall
  rw [hsplit] at h
  obtain ⟨front, back, rfl, hfront, hback⟩ := h.cut fun a ha b hb t w hw hmem hmem' => by
    have hb' := hblank hafter b (List.mem_of_mem_head? hb)
    simp [hw.isBlank hmem'] at hb'
  obtain ⟨first, middle, rfl, hfirst, hmiddle⟩ := hfront.cut fun a ha b hb t w hw hmem => by
    have ha' := hblank hbefore a (List.mem_of_mem_getLast? ha)
    simp [hw.isBlank hmem] at ha'
  cases hfirst.unique (written_nil.mpr hbefore)
  cases hback.unique (written_nil.mpr hafter)
  simpa using hmiddle

end TimedMutation.Token
