import TimedMutation.Proofs.Expr.Swap

/-! One place of an expression. The number at a place may be written as any expression with signs in
front, and the phrase around it stays as it is. -/

namespace TimedMutation

/-- Whether a token is a number. -/
def Token.isNumber : Token → Bool
  | number _ => true
  | _ => false

namespace Expr

/-- The number of numbers in an expression. -/
def numbers : Expr → ℕ
  | number _ => 1
  | bool _ | var _ => 0
  | unary _ e => e.numbers
  | binary _ l r => l.numbers + r.numbers

/-- The expression that an integer is written as. -/
def ofInt : Int → Expr
  | .ofNat n => number (Decimal.Numeral.toFloat ⟨n, 0⟩)
  | .negSucc n => unary .neg (number (Decimal.Numeral.toFloat ⟨n + 1, 0⟩))

/-- A place in an expression, with all of the expression but what is at this place. -/
inductive Place where
  | here
  | unary (op : UnaryOp) (inner : Place)
  | left (op : BinaryOp) (inner : Place) (right : Expr)
  | right (op : BinaryOp) (left : Expr) (inner : Place)

/-- The expression with something at a place. -/
def Place.fill (e : Expr) : Place → Expr
  | here => e
  | unary op inner => .unary op (inner.fill e)
  | left op inner r => .binary op (inner.fill e) r
  | right op l inner => .binary op l (inner.fill e)

/-- The number of numbers to the left of a place. -/
def Place.numbersBefore : Place → ℕ
  | here => 0
  | unary _ inner => inner.numbersBefore
  | left _ inner _ => inner.numbersBefore
  | right _ l inner => l.numbers + inner.numbersBefore

variable {p : Phrase} {l : Level} {ts front back : List Token} {e : Expr} {x : Float}

theorem Level.Writes.isNumber {t : Token} {op : BinaryOp} (h : l.Writes t op) :
    t.isNumber = Bool.false := by
  cases h <;> rfl

/-- A phrase has as many numbers as its tree. -/
theorem Derives.countP_isNumber (h : Derives p ts e) : ts.countP Token.isNumber = e.numbers := by
  induction h with
  | operand _ ih | comparison _ _ ih | unsigned _ ih => exact ih
  | operation _ hop _ ihl ihr => simp [numbers, ihl, ihr, hop.isNumber]
  | not _ ih | minus _ ih | bang _ ih => simpa [numbers, Token.isNumber] using ih
  | number | true | false | var => rfl
  | parens _ ih => simpa [Token.isNumber] using ih

/-- The kind of a phrase when a sign may be put in front of it. -/
def Phrase.withSign : Phrase → Phrase
  | primary => signed
  | p => p

@[simp] theorem Phrase.withSign_chain (l : Level) : (chain l).withSign = chain l := rfl

@[simp] theorem Phrase.withSign_primary : primary.withSign = signed := rfl

theorem Level.withSign_operand (l : Level) : l.operand.withSign = l.operand := by
  cases l <;> rfl

/-- In the place of a number, another expression with signs in front may be written. -/
theorem Derives.refill (h : Derives p (front ++ .number x :: back) e) :
    ∃ place : Place, e = place.fill (.number x) ∧
      place.numbersBefore = front.countP Token.isNumber ∧
      ∀ us e', Derives .signed us e' → us.head? ≠ some .bang →
        Derives p.withSign (front ++ us ++ back) (place.fill e') := by
  generalize hts : front ++ .number x :: back = ts at h
  induction h generalizing front back with
  | @operand l ts e _ ih =>
    obtain ⟨place, rfl, hbefore, hrefill⟩ := ih hts
    refine ⟨place, rfl, hbefore, fun us e' hus hhead => ?_⟩
    have hphrase := hrefill us e' hus hhead
    rw [Level.withSign_operand] at hphrase
    exact .operand hphrase
  | @operation l ts us t b left right hleft hop hright ihl ihr =>
    rcases places_of_eq hts with ⟨-, rfl, -⟩ | ⟨mid, rfl, rfl⟩ | ⟨mid, rfl, rfl⟩
    · cases hop
    · obtain ⟨place, rfl, hbefore, hrefill⟩ := ihl rfl
      refine ⟨.left b place right, rfl, hbefore, fun us' e' hus hhead => ?_⟩
      have hphrase := Derives.operation (hrefill us' e' hus hhead) hop hright
      simpa [Place.fill] using hphrase
    · obtain ⟨place, rfl, hbefore, hrefill⟩ := ihr rfl
      refine ⟨.right b left place, rfl, ?_, fun us' e' hus hhead => ?_⟩
      · simp [Place.numbersBefore, hbefore, hleft.countP_isNumber, hop.isNumber]
      · have hoperand := hrefill us' e' hus hhead
        rw [Level.withSign_operand] at hoperand
        have hphrase := Derives.operation hleft hop hoperand
        simpa [Place.fill] using hphrase
  | not _ ih =>
    obtain ⟨rest, rfl, hrest⟩ := exists_front hts (by simp)
    obtain ⟨place, rfl, hbefore, hrefill⟩ := ih hrest
    exact ⟨.unary .not place, rfl, by simpa [Place.numbersBefore, Token.isNumber] using hbefore,
      fun us e' hus hhead => .not (hrefill us e' hus hhead)⟩
  | comparison hhead _ ih =>
    obtain ⟨place, rfl, hbefore, hrefill⟩ := ih hts
    refine ⟨place, rfl, hbefore, fun us e' hus hsign => .comparison ?_ (hrefill us e' hus hsign)⟩
    subst hts
    cases front with
    | nil => rwa [List.nil_append, List.head?_append_of_ne_nil _ hus.ne_nil]
    | cons t front => exact hhead
  | minus _ ih =>
    obtain ⟨rest, rfl, hrest⟩ := exists_front hts (by simp)
    obtain ⟨place, rfl, hbefore, hrefill⟩ := ih hrest
    exact ⟨.unary .neg place, rfl, by simpa [Place.numbersBefore, Token.isNumber] using hbefore,
      fun us e' hus hhead => .minus (hrefill us e' hus hhead)⟩
  | bang _ ih =>
    obtain ⟨rest, rfl, hrest⟩ := exists_front hts (by simp)
    obtain ⟨place, rfl, hbefore, hrefill⟩ := ih hrest
    exact ⟨.unary .not place, rfl, by simpa [Place.numbersBefore, Token.isNumber] using hbefore,
      fun us e' hus hhead => .bang (hrefill us e' hus hhead)⟩
  | unsigned _ ih => exact ih hts
  | number y =>
    obtain ⟨rfl, hnumber⟩ | ⟨rest, rfl, hnil⟩ := List.append_eq_cons_iff.mp hts
    · cases hnumber
      exact ⟨.here, rfl, rfl, fun us e' hus _ => by simpa [Place.fill] using hus⟩
    · simp at hnil
  | true | false | var => cases front <;> simp at hts
  | @parens inner e hphrase ih =>
    obtain ⟨rest, rfl, hrest⟩ := exists_front hts (by simp)
    rcases places_of_eq hrest with ⟨-, hclose, -⟩ | ⟨mid, rfl, rfl⟩ | ⟨mid, -, hnil⟩
    · cases hclose
    · obtain ⟨place, rfl, hbefore, hrefill⟩ := ih rfl
      refine ⟨place, rfl, by simpa [Token.isNumber] using hbefore, fun us e' hus hhead => ?_⟩
      have hgroup := Derives.unsigned (.parens (hrefill us e' hus hhead))
      simpa using hgroup
    · simp at hnil

end Expr

end TimedMutation
