import TimedMutation.Proofs.Expr.Spacing
import TimedMutation.Proofs.Text.Joined

/-! How deep in parentheses the tokens of a phrase and the characters of its text are. A phrase closes
what it opens, and never closes more. -/

namespace TimedMutation

namespace Token

/-- By how much a token changes the depth of parentheses. -/
def nesting : Token → Int
  | openParen => 1
  | closeParen => -1
  | _ => 0

/-- The depth of parentheses after tokens. -/
def depth : List Token → Int
  | [] => 0
  | t :: ts => t.nesting + depth ts

variable {t : Token} {ts us : List Token} {w cs : List Char} {c : Char}

@[simp] theorem depth_nil : depth [] = 0 := rfl

@[simp] theorem depth_cons (t : Token) (ts : List Token) : depth (t :: ts) = t.nesting + depth ts :=
  rfl

@[simp] theorem depth_append (ts us : List Token) : depth (ts ++ us) = depth ts + depth us := by
  induction ts with
  | nil => simp
  | cons t ts ih => simp [ih, Int.add_assoc]

theorem Spells.foldl_depthAfter (h : Spells t w) (d : Int) :
    w.foldl Text.depthAfter d = d + t.nesting := by
  by_cases ht : t = openParen ∨ t = closeParen
  · rcases ht with rfl | rfl
    all_goals
      obtain ⟨hword, -⟩ | ⟨-, rfl⟩ := h.word_or_mark
      · cases hword
      · simp [mark, nesting, Text.depthAfter, Int.sub_eq_add_neg]
  · simp only [not_or] at ht
    have hflat : t.nesting = 0 ∧ '(' ∉ t.mark ∧ ')' ∉ t.mark := by
      cases t with
      | number | name => simp [nesting, mark]
      | openParen => exact absurd rfl ht.1
      | closeParen => exact absurd rfl ht.2
      | compare op => cases op <;> simp [nesting, mark, Comparison.symbol]
      | _ => simp [nesting, mark]
    rw [hflat.1, Int.add_zero]
    exact Text.foldl_depthAfter_of_not_mem (h.not_mem (by decide) (by decide) hflat.2.1)
      (h.not_mem (by decide) (by decide) hflat.2.2) d

/-- The characters of a text are as deep in parentheses as its tokens. -/
theorem Written.foldl_depthAfter (h : Written ts cs) (d : Int) :
    cs.foldl Text.depthAfter d = d + depth ts := by
  induction h generalizing d with
  | nil => simp
  | @blank ts c cs hc _ ih =>
    have hblank : Text.allBlank [c] = true := by simp [Text.allBlank, hc]
    have hflat : Text.depthAfter d c = d := Text.foldl_depthAfter_of_allBlank hblank d
    rw [List.foldl_cons, hflat, ih]
  | token hw _ _ ih => rw [List.foldl_append, hw.foldl_depthAfter, ih, depth_cons, Int.add_assoc]

end Token

namespace Expr

variable {p : Phrase} {ts : List Token} {e : Expr}

theorem Level.Writes.nesting {l : Level} {t : Token} {op : BinaryOp} (h : l.Writes t op) :
    t.nesting = 0 := by
  cases h <;> rfl

/-- A phrase closes all parentheses that it opens. -/
theorem Derives.depth_eq (h : Derives p ts e) : Token.depth ts = 0 := by
  induction h with
  | operand _ ih | comparison _ _ ih | unsigned _ ih => exact ih
  | operation _ hop _ ihl ihr => simp [ihl, ihr, hop.nesting]
  | not _ ih | minus _ ih | bang _ ih => simpa [Token.nesting] using ih
  | number | true | false | var => rfl
  | parens _ ih => simp [ih, Token.nesting]

/-- No front of a phrase closes more parentheses than it opens. -/
theorem Derives.depth_front (h : Derives p ts e) {front back : List Token} (hts : ts = front ++ back) :
    0 ≤ Token.depth front := by
  -- A front of tokens that start with `t` is empty or starts with `t`.
  have hbehind : ∀ {t : Token} {us : List Token} {d : Int}, 0 ≤ t.nesting + d →
      (∀ {front back : List Token}, us = front ++ back → d ≤ Token.depth front) →
      ∀ {front back : List Token}, t :: us = front ++ back → 0 ≤ Token.depth front := by
    intro t us d hd hus front back hsplit
    cases front with
    | nil => exact Int.le_refl 0
    | cons u front =>
      obtain ⟨rfl, hrest⟩ := List.cons.inj hsplit
      have hfront := hus hrest
      simp only [Token.depth_cons]
      omega
  induction h generalizing front back with
  | operand _ ih | comparison _ _ ih | unsigned _ ih => exact ih hts
  | @operation l ts us t op left right hleft hop hright ihl ihr =>
    rcases List.append_eq_append_iff.mp hts with ⟨tail, rfl, htail⟩ | ⟨tail, rfl, -⟩
    · have hright := hbehind (d := 0) (by simp [hop.nesting]) ihr htail
      simpa [hleft.depth_eq] using hright
    · exact ihl rfl
  | not _ ih | minus _ ih | bang _ ih => exact hbehind (d := 0) (by decide) ih hts
  | number | true | false | var =>
    rcases List.append_eq_cons_iff.mp hts.symm with ⟨rfl, -⟩ | ⟨front, rfl, hnil⟩
    · exact Int.le_refl 0
    · cases (List.append_eq_nil_iff.mp hnil.symm).1
      exact Int.le_refl 0
  | @parens ts e hphrase ih =>
    refine hbehind (d := -1) (by decide) ?_ hts
    intro front back hsplit
    rcases List.append_eq_append_iff.mp hsplit with ⟨tail, rfl, htail⟩ | ⟨tail, rfl, -⟩
    · rcases List.append_eq_cons_iff.mp htail.symm with ⟨rfl, -⟩ | ⟨tail, rfl, hnil⟩
      · simp [hphrase.depth_eq]
      · cases (List.append_eq_nil_iff.mp hnil.symm).1
        simp [hphrase.depth_eq, Token.nesting]
    · have hfront := ih rfl
      omega

end Expr

end TimedMutation
