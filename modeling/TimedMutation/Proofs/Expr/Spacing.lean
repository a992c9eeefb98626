import Mathlib.Data.List.Chain
import TimedMutation.Proofs.Expr.Grammar
import TimedMutation.Proofs.Expr.Spelling

/-!
White space in expressions. The tokens of a phrase stay apart without any of it, so that two expressions
whose texts differ only in white space are the same.
-/

namespace TimedMutation

/-! ### Tokens that stay apart -/

namespace Token

/-- Whether two tokens run together if there is nothing between them. -/
def fuses : Token → Token → Bool
  | t, compare .eq => t.joins '='
  | t, u => t.isWord && u.isWord

def Apart (t u : Token) : Prop := t.fuses u = false

variable {t u : Token} {ts : List Token} {w cs : List Char} {c : Char}

/-- Words go on with characters of words, and operators with an equals sign. -/
theorem joins_eq_false (hword : t.isWord = true → isNameChar c = false ∧ c ≠ '.')
    (hmark : t.isWord = false → c ≠ '=') : t.joins c = false := by
  cases t with
  | number =>
    obtain ⟨hname, hdot⟩ := hword rfl
    have hdigit : Decimal.isDigit c = false :=
      Bool.eq_false_iff.mpr fun hdigit => by simp [isNameChar_of_isDigit hdigit] at hname
    simp [joins, hdigit, hdot]
  | name => simp [joins, hword rfl]
  | compare op => cases op <;> simp [joins, hmark rfl]
  | _ => simp [joins, hmark rfl]

/-- A token goes on with no token that does not fuse with it. -/
theorem Spells.joins_head (hw : Spells u w) (h : t.Apart u) :
    ∀ c ∈ w.head?, t.joins c = false := by
  intro c hc
  rcases hw.word_or_mark with ⟨hu, hchars⟩ | ⟨hu, rfl⟩
  · have ht : t.isWord = false := by
      cases u with
      | number | name => simpa [Apart, fuses, isWord] using h
      | _ => cases hu
    refine joins_eq_false (fun hword => by simp [ht] at hword) ?_
    rintro - rfl
    rcases hchars '=' (List.mem_of_mem_head? hc) with hname | hdot
    · exact absurd hname (by decide)
    · cases hdot
  · cases u with
    | number | name => cases hu
    | compare op =>
      cases op <;> cases hc <;>
        first
        | exact h
        | exact joins_eq_false (fun _ => by decide) (fun _ => by decide)
    | _ =>
      cases hc
      exact joins_eq_false (fun _ => by decide) (fun _ => by decide)

/-- No token goes on with white space. -/
theorem joins_blank (t : Token) (hc : Text.isBlank c = true) : t.joins c = false := by
  refine joins_eq_false (fun _ => ⟨isNameChar_of_isBlank hc, ?_⟩) fun _ => ?_
  · rintro rfl
    cases hc
  · rintro rfl
    cases hc

theorem Written.joins_head (h : Written ts cs) (hts : ∀ u ∈ ts.head?, t.Apart u) :
    ∀ c ∈ cs.head?, t.joins c = false := by
  cases h with
  | nil => simp
  | blank hc _ =>
    intro c hc'
    cases hc'
    exact t.joins_blank hc
  | @token u w ts cs hw _ _ =>
    intro c hc
    rw [List.head?_append_of_ne_nil _ hw.ne_nil] at hc
    exact hw.joins_head (hts u rfl) c hc

/-- Tokens of which no two neighbours fuse are written the same without white space. -/
theorem Written.squeeze (h : Written ts cs) (hapart : ts.IsChain Apart) :
    Written ts (Text.squeeze cs) := by
  induction h with
  | nil => exact .nil
  | blank hc _ ih => simpa [Text.squeeze, hc] using ih hapart
  | @token t w ts cs hw _ _ ih =>
    obtain ⟨hnext, hrest⟩ := List.isChain_cons.mp hapart
    have hword : Text.squeeze w = w := by
      simp only [Text.squeeze, List.filter_eq_self]
      exact fun c hc => by simp [hw.isBlank hc]
    rw [Text.squeeze_append, hword]
    exact .token hw ((ih hrest).joins_head hnext) (ih hrest)

/-- Whether a phrase can start with a token. -/
def starts : Token → Bool
  | number _ | name _ | openParen | minus | bang => true
  | _ => false

/-- Whether a phrase can end with a token. -/
def ends : Token → Bool
  | number _ | name _ | closeParen => true
  | _ => false

end Token

/-! ### Neighbours in a phrase -/

section

open TimedMutation.Expr

variable {p : Phrase} {l : Level} {ts : List Token} {e : Expr} {t u : Token} {op : BinaryOp}

theorem Expr.Derives.starts (h : Derives p ts e) : ∀ t ∈ ts.head?, t.starts := by
  induction h with
  | operand _ ih | comparison _ _ ih | unsigned _ ih => exact ih
  | operation hleft _ _ ih _ => rwa [List.head?_append_of_ne_nil _ hleft.ne_nil]
  | not | minus | bang | number | true | false | var | parens =>
    intro t ht
    cases ht
    rfl

theorem Expr.Derives.ends (h : Derives p ts e) : ∀ t ∈ ts.getLast?, t.ends := by
  induction h with
  | operand _ ih | comparison _ _ ih | unsigned _ ih => exact ih
  | operation _ _ hright _ ih =>
    rwa [List.getLast?_append_cons, List.getLast?_cons_of_ne_nil hright.ne_nil]
  | not hphrase ih | minus hphrase ih | bang hphrase ih =>
    rwa [List.getLast?_cons_of_ne_nil hphrase.ne_nil]
  | number | true | false | var =>
    intro t ht
    cases ht
    rfl
  | parens =>
    intro t ht
    rw [← List.cons_append, List.getLast?_concat] at ht
    cases ht
    rfl

theorem Token.apart_closeParen (t : Token) : t.Apart .closeParen := by
  simp [Apart, fuses, isWord]

theorem Token.apart_of_starts (ht : t.isWord = Bool.false) (hu : u.starts) : t.Apart u := by
  cases u with
  | compare op => cases hu
  | _ => simp [Apart, fuses, ht]

theorem Token.apart_of_ends (ht : t.ends) (hu : u.isWord = Bool.false) : t.Apart u := by
  cases u with
  | compare op =>
    cases op with
    | eq =>
      cases t with
      | number | name | closeParen => rfl
      | _ => cases ht
    | _ => simp [Apart, fuses, hu]
  | _ => simp [Apart, fuses, hu]

theorem Expr.Level.Writes.isWord (h : l.Writes t op) : t.isWord = Bool.false := by
  cases h <;> rfl

/-- No two neighbours in a phrase fuse. -/
theorem Expr.Derives.apart (h : Derives p ts e) : ts.IsChain Token.Apart := by
  induction h with
  | operand _ ih | comparison _ _ ih | unsigned _ ih => exact ih
  | operation hleft hop hright ihl ihr =>
    refine ihl.append (ihr.cons fun u hu => ?_) fun u hu t ht => ?_
    · exact Token.apart_of_starts hop.isWord (hright.starts u hu)
    · cases ht
      exact Token.apart_of_ends (hleft.ends u hu) hop.isWord
  | not hphrase ih | minus hphrase ih | bang hphrase ih =>
    exact ih.cons fun u hu => Token.apart_of_starts rfl (hphrase.starts u hu)
  | number | true | false | var => exact .singleton _
  | parens hphrase ih =>
    refine (ih.append (.singleton _) fun u _ t ht => ?_).cons fun u hu => ?_
    · cases ht
      exact u.apart_closeParen
    · rw [List.head?_append_of_ne_nil _ hphrase.ne_nil] at hu
      exact Token.apart_of_starts rfl (hphrase.starts u hu)

/-- A text is read as the expression of its tokens. -/
theorem Expr.ofText_eq_ok {text : String} :
    ofText text = .ok e ↔ ∃ ts, Token.Written ts text.toList ∧ Derives (.chain .or) ts e := by
  have haccepts : ∀ ts, Derives (.chain .or) ts e ↔ ofTokens ts = .ok e :=
    fun ts => ⟨ofTokens_of_derives, derives_of_ofTokens⟩
  simp only [← Token.scan_eq_ok, haccepts, ofText]
  cases Token.scan text.toList with
  | error why => simp
  | ok ts =>
    simp only [Except.ok.injEq, exists_eq_left']
    cases ofTokens ts <;> simp

/-- Two expressions whose texts are the same without white space are the same. -/
theorem Expr.eq_of_squeeze_eq {text text' : String} {e' : Expr} (h : ofText text = .ok e)
    (h' : ofText text' = .ok e')
    (hsame : Text.squeeze text.toList = Text.squeeze text'.toList) : e = e' := by
  obtain ⟨ts, hwritten, hphrase⟩ := ofText_eq_ok.mp h
  obtain ⟨us, hwritten', hphrase'⟩ := ofText_eq_ok.mp h'
  have hts := hwritten.squeeze hphrase.apart
  have hus := hwritten'.squeeze hphrase'.apart
  rw [← hsame] at hus
  cases hts.unique hus
  have htrees := (ofTokens_of_derives hphrase).symm.trans (ofTokens_of_derives hphrase')
  cases htrees
  rfl

end

end TimedMutation
