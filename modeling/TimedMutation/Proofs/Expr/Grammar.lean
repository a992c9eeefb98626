import TimedMutation.Expr.Parser
import TimedMutation.Proofs.Expr.Eval
import TimedMutation.Proofs.Outcome

/-!
The grammar of expressions. The parser accepts exactly its phrases and builds their trees. Both
directions speak of a phrase and the tokens after it: what the parser takes off the front of a list is
a phrase, and it takes a whole phrase off where the next token does not go on with it.
-/

namespace TimedMutation.Expr

/-- The levels of binary operators, from the loosest to the tightest. -/
inductive Level where
  | or | and | comparison | sum | product

/-- The kinds of phrases. -/
inductive Phrase where
  /-- Operands with operators of a level between them. -/
  | chain (l : Level)
  /-- What stands between `&&`. -/
  | negation
  | signed
  | primary

/-- What stands between the operators of a level. -/
def Level.operand : Level → Phrase
  | or => .chain .and
  | and => .negation
  | comparison => .chain .sum
  | sum => .chain .product
  | product => .signed

/-- A token that stands for an operation of a level. -/
inductive Level.Writes : Level → Token → BinaryOp → Prop
  | either : Writes .or .either .or
  | both : Writes .and .both .and
  | compare (c : Comparison) : Writes .comparison (.compare c) (.compare c)
  | plus : Writes .sum .plus .add
  | minus : Writes .sum .minus .sub
  | star : Writes .product .star .mul
  | slash : Writes .product .slash .div
  | percent : Writes .product .percent .rem

/-- A list of tokens is a phrase, and the expression is its tree. The left operand of an operation is
a phrase of the same level, so that operations of one level associate to the left. -/
inductive Derives : Phrase → List Token → Expr → Prop
  | operand {l : Level} {ts : List Token} {e : Expr} :
      Derives l.operand ts e → Derives (.chain l) ts e
  | operation {l : Level} {ts us : List Token} {t : Token} {op : BinaryOp} {left right : Expr} :
      Derives (.chain l) ts left → l.Writes t op → Derives l.operand us right →
      Derives (.chain l) (ts ++ t :: us) (.binary op left right)
  | not {ts : List Token} {e : Expr} :
      Derives .negation ts e → Derives .negation (.bang :: ts) (.unary .not e)
  /-- A `!` in front is that of a negation. -/
  | comparison {ts : List Token} {e : Expr} :
      ts.head? ≠ some .bang → Derives (.chain .comparison) ts e → Derives .negation ts e
  | minus {ts : List Token} {e : Expr} :
      Derives .signed ts e → Derives .signed (.minus :: ts) (.unary .neg e)
  | bang {ts : List Token} {e : Expr} :
      Derives .signed ts e → Derives .signed (.bang :: ts) (.unary .not e)
  | unsigned {ts : List Token} {e : Expr} : Derives .primary ts e → Derives .signed ts e
  | number (x : Float) : Derives .primary [.number x] (.number x)
  | true : Derives .primary [.name "true"] (.bool true)
  | false : Derives .primary [.name "false"] (.bool false)
  | var {s : String} : s ≠ "true" → s ≠ "false" → Derives .primary [.name s] (.var s)
  | parens {ts : List Token} {e : Expr} :
      Derives (.chain .or) ts e → Derives .primary (.openParen :: (ts ++ [.closeParen])) e

theorem Derives.ne_nil {p : Phrase} {ts : List Token} {e : Expr} (h : Derives p ts e) : ts ≠ [] := by
  induction h with
  | operand _ ih | unsigned _ ih | comparison _ _ ih => exact ih
  | operation | not | minus | bang | number | true | false | var | parens => simp

section

variable {p : Phrase} {ts : List Token} {e : Expr} {s : String} {x : Float}

/-- The numbers of an expression are those among its tokens. -/
theorem Derives.mem_numbers (h : Derives p ts e) : .number x ∈ e.parts ↔ Token.number x ∈ ts := by
  induction h with
  | operand _ ih | comparison _ _ ih | unsigned _ ih => exact ih
  | operation _ hop _ ihl ihr => cases hop <;> simp [parts, ihl, ihr]
  | not _ ih | minus _ ih | bang _ ih | parens _ ih => simpa [parts] using ih
  | number | true | false | var => simp [parts]

/-- The names of an expression are the names among its tokens, but for the two truth values. -/
theorem Derives.mem_names (h : Derives p ts e) :
    s ∈ e.names ↔ Token.name s ∈ ts ∧ s ≠ "true" ∧ s ≠ "false" := by
  rw [Expr.mem_names]
  induction h with
  | operand _ ih | comparison _ _ ih | unsigned _ ih => exact ih
  | operation _ hop _ ihl ihr => cases hop <;> simp [parts, ihl, ihr, or_and_right]
  | not _ ih | minus _ ih | bang _ ih | parens _ ih => simpa [parts] using ih
  | number => simp [parts]
  | true =>
    simp only [parts, List.mem_singleton, Token.name.injEq, reduceCtorEq, false_iff]
    exact fun h => h.2.1 h.1
  | false =>
    simp only [parts, List.mem_singleton, Token.name.injEq, reduceCtorEq, false_iff]
    exact fun h => h.2.2 h.1
  | var htrue hfalse =>
    simp only [parts, List.mem_singleton, var.injEq, Token.name.injEq]
    constructor
    · rintro rfl
      exact ⟨rfl, htrue, hfalse⟩
    · exact And.left

end

/-! ### The parsers of the phrases -/

/-- The operation that a token stands for at a level. -/
def Level.operator? : Level → Token → Option BinaryOp
  | or => orOperator?
  | and => andOperator?
  | comparison => comparisonOperator?
  | sum => sumOperator?
  | product => productOperator?

theorem Level.operator?_eq_some {l : Level} {t : Token} {op : BinaryOp} :
    l.operator? t = some op ↔ l.Writes t op := by
  constructor
  · intro h
    cases l <;> cases t <;> cases h <;> constructor
  · intro h
    cases h <;> rfl

/-- The parser of a phrase, given one for what stands in parentheses. -/
def Phrase.parser (inner : Parser) : Phrase → Parser
  | chain .or => disjunction inner
  | chain .and => conjunction inner
  | chain .comparison => Expr.comparison inner
  | chain .sum => Expr.sum inner
  | chain .product => Expr.product inner
  | negation => negated (Expr.comparison inner)
  | signed => Expr.signed inner
  | primary => Expr.primary inner

variable {inner operand : Parser} {l : Level} {p : Phrase} {ts us rest : List Token} {e left : Expr}

theorem parser_chain (inner : Parser) (l : Level) :
    (Phrase.chain l).parser inner = operation (l.operand.parser inner) l.operator? := by
  cases l <;> rfl

/-! ### What is read is a phrase -/

/-- What a parser takes off the front of a list is a phrase of a kind. -/
def Reads (parser : Parser) (p : Phrase) : Prop :=
  ∀ ⦃ts e rest⦄, parser ts = .ok (e, rest) → ∃ front, front ++ rest = ts ∧ Derives p front e

/-- From what was read before, a chain goes on by whole operations. -/
theorem reads_chain (h : Reads operand l.operand) {budget : ℕ} {done : List Token}
    (hleft : Derives (.chain l) done left)
    (hchain : chain operand l.operator? budget left ts = .ok (e, rest)) :
    ∃ front, front ++ rest = ts ∧ Derives (.chain l) (done ++ front) e := by
  induction budget generalizing left ts done with
  | zero =>
    cases hchain
    exact ⟨[], rfl, by simpa using hleft⟩
  | succ budget ih =>
    cases ts with
    | nil =>
      cases hchain
      exact ⟨[], rfl, by simpa using hleft⟩
    | cons t ts =>
      simp only [chain] at hchain
      split at hchain
      · cases hchain
        exact ⟨[], rfl, by simpa using hleft⟩
      · rename_i op hop
        obtain ⟨⟨right, ts'⟩, hright, hrest⟩ := bind_eq_ok.mp hchain
        obtain ⟨us, hsplit, hus⟩ := h hright
        have hoperation := hleft.operation (Level.operator?_eq_some.mp hop) hus
        obtain ⟨front, hts', hfront⟩ := ih hoperation hrest
        refine ⟨t :: (us ++ front), ?_, by simpa using hfront⟩
        rw [List.cons_append, List.append_assoc, hts', hsplit]

theorem reads_operation (h : Reads operand l.operand) :
    Reads (operation operand l.operator?) (.chain l) := by
  intro ts e rest hread
  obtain ⟨⟨left, ts'⟩, hleft, hchain⟩ := bind_eq_ok.mp hread
  obtain ⟨first, hsplit, hfirst⟩ := h hleft
  obtain ⟨front, hts', hfront⟩ := reads_chain h (.operand hfirst) hchain
  exact ⟨first ++ front, by rw [List.append_assoc, hts', hsplit], hfront⟩

theorem reads_primary (h : Reads inner (.chain .or)) : Reads (primary inner) .primary := by
  intro ts e rest hread
  unfold primary at hread
  split at hread
  · cases hread
    exact ⟨_, rfl, .number _⟩
  · rename_i s ts
    cases hread
    refine ⟨[.name s], rfl, ?_⟩
    split
    · rename_i hs
      exact hs ▸ .true
    · split
      · rename_i hs
        exact hs ▸ .false
      · rename_i htrue hfalse
        exact .var htrue hfalse
  · rename_i ts
    obtain ⟨⟨e', after⟩, hinner, hclose⟩ := bind_eq_ok.mp hread
    obtain ⟨front, hsplit, hfront⟩ := h hinner
    cases after with
    | nil => cases hclose
    | cons t after =>
      cases t with
      | closeParen =>
        cases hclose
        exact ⟨_, by simp [← hsplit], .parens hfront⟩
      | _ => cases hclose
  · cases hread
  · cases hread

theorem reads_signed (h : Reads inner (.chain .or)) : Reads (signed inner) .signed := by
  intro ts e rest hread
  fun_induction signed inner ts generalizing e with
  | case1 ts ih =>
    obtain ⟨⟨operand, after⟩, hoperand, hread⟩ := bind_eq_ok.mp hread
    cases hread
    obtain ⟨front, hsplit, hfront⟩ := ih hoperand
    exact ⟨.minus :: front, by rw [List.cons_append, hsplit], .minus hfront⟩
  | case2 ts ih =>
    obtain ⟨⟨operand, after⟩, hoperand, hread⟩ := bind_eq_ok.mp hread
    cases hread
    obtain ⟨front, hsplit, hfront⟩ := ih hoperand
    exact ⟨.bang :: front, by rw [List.cons_append, hsplit], .bang hfront⟩
  | case3 ts =>
    obtain ⟨front, hsplit, hfront⟩ := reads_primary h hread
    exact ⟨front, hsplit, .unsigned hfront⟩

theorem reads_negated {comparison : Parser} (h : Reads comparison (.chain .comparison)) :
    Reads (negated comparison) .negation := by
  intro ts e rest hread
  fun_induction negated comparison ts generalizing e with
  | case1 ts ih =>
    obtain ⟨⟨operand, after⟩, hoperand, hread⟩ := bind_eq_ok.mp hread
    cases hread
    obtain ⟨front, hsplit, hfront⟩ := ih hoperand
    exact ⟨.bang :: front, by rw [List.cons_append, hsplit], .not hfront⟩
  | case2 ts hbang =>
    obtain ⟨front, rfl, hfront⟩ := h hread
    refine ⟨front, rfl, .comparison ?_ hfront⟩
    intro hhead
    obtain ⟨t, front, rfl⟩ := List.exists_cons_of_ne_nil hfront.ne_nil
    cases hhead
    exact hbang _ rfl

/-- Every phrase is read if what stands in parentheses is. -/
theorem reads_phrase (h : Reads inner (.chain .or)) (p : Phrase) : Reads (p.parser inner) p := by
  have hchain : ∀ l : Level, Reads (l.operand.parser inner) l.operand →
      Reads ((Phrase.chain l).parser inner) (.chain l) := by
    intro l hl
    rw [parser_chain]
    exact reads_operation hl
  have hsigned : Reads (Phrase.signed.parser inner) .signed := reads_signed h
  have hproduct := hchain .product hsigned
  have hsum := hchain .sum hproduct
  have hcomparison := hchain .comparison hsum
  have hnegation : Reads (Phrase.negation.parser inner) .negation := reads_negated hcomparison
  have hand := hchain .and hnegation
  cases p with
  | chain l =>
    cases l with
    | or => exact hchain .or hand
    | and => exact hand
    | comparison => exact hcomparison
    | sum => exact hsum
    | product => exact hproduct
  | negation => exact hnegation
  | signed => exact hsigned
  | primary => exact reads_primary h

theorem reads_nested (depth : ℕ) : Reads (nested depth) (.chain .or) := by
  induction depth with
  | zero =>
    intro ts e rest hread
    cases hread
  | succ depth ih => exact reads_phrase ih (.chain .or)

/-! ### What is a phrase is read -/

/-- The levels of the operators that may follow a phrase inside a phrase of its kind. -/
def Phrase.levels : Phrase → List Level
  | chain .or => [.or, .and, .comparison, .sum, .product]
  | chain .and => [.and, .comparison, .sum, .product]
  | negation | chain .comparison => [.comparison, .sum, .product]
  | chain .sum => [.sum, .product]
  | chain .product => [.product]
  | signed | primary => []

/-- A phrase of a kind does not go on with these tokens. -/
def Phrase.EndsAt (p : Phrase) (rest : List Token) : Prop :=
  ∀ l ∈ p.levels, ∀ t ∈ rest.head?, l.operator? t = none

theorem Phrase.endsAt_nil (p : Phrase) : p.EndsAt [] := by simp [EndsAt]

theorem Phrase.endsAt_closeParen (p : Phrase) (rest : List Token) : p.EndsAt (.closeParen :: rest) := by
  intro l _ t ht
  cases ht
  cases l <;> rfl

/-- The operand of a level ends where the whole phrase does, and at an operator of the level. -/
theorem Level.endsAt_operand (h : (Phrase.chain l).EndsAt rest) : l.operand.EndsAt rest := by
  intro l' hl'
  refine h l' ?_
  cases l <;> simp only [Phrase.levels, operand] at hl' ⊢ <;> exact List.mem_cons_of_mem _ hl'

theorem Level.Writes.endsAt_operand {t : Token} {op : BinaryOp} (h : l.Writes t op)
    (rest : List Token) : l.operand.EndsAt (t :: rest) := by
  intro l' hl' t' ht'
  cases ht'
  revert hl'
  cases h <;> cases l' <;>
    simp [Phrase.levels, operand, operator?, orOperator?, andOperator?, comparisonOperator?,
      sumOperator?, productOperator?]

/-- A budget of as many operators as there are tokens is enough. -/
theorem chain_budget (h : ∀ {ts e rest}, operand ts = .ok (e, rest) → rest.length ≤ ts.length)
    {operator? : Token → Option BinaryOp} {m n : ℕ} (hm : ts.length ≤ m) (hn : ts.length ≤ n) :
    chain operand operator? m left ts = chain operand operator? n left ts := by
  induction m generalizing n left ts with
  | zero =>
    cases List.length_eq_zero_iff.mp (Nat.le_zero.mp hm)
    cases n <;> rfl
  | succ m ih =>
    cases ts with
    | nil => cases n <;> rfl
    | cons t ts =>
      cases n with
      | zero => simp at hn
      | succ n =>
        simp only [chain]
        split
        · rfl
        · cases hread : operand ts with
          | error why => rfl
          | ok read =>
            have hlength := h hread
            simp only [List.length_cons] at hm hn
            exact ih (by omega) (by omega)

theorem length_le_of_reads {parser : Parser} (h : Reads parser p) (hread : parser ts = .ok (e, rest)) :
    rest.length ≤ ts.length := by
  obtain ⟨front, rfl, -⟩ := h hread
  simp

/-- What a parser looks for before it asks whether its phrase goes on. -/
def Phrase.part : Phrase → Phrase
  | chain l => l.operand
  | p => p

/-- What the parser of a phrase does from where it has read a phrase whose tree is `e`. -/
def Phrase.resume (inner : Parser) (e : Expr) : Phrase → Parser
  | chain l => fun rest => Expr.chain (l.operand.parser inner) l.operator? rest.length e rest
  | _ => fun rest => .ok (e, rest)

theorem Phrase.EndsAt.part (h : p.EndsAt rest) : p.part.EndsAt rest := by
  cases p with
  | chain l => exact Level.endsAt_operand h
  | negation | signed | primary => exact h

theorem resume_of_endsAt (h : p.EndsAt rest) : p.resume inner e rest = .ok (e, rest) := by
  cases p with
  | chain l =>
    cases rest with
    | nil => rfl
    | cons t rest =>
      have hstop : l.operator? t = none := h l (by cases l <;> simp [Phrase.levels]) t rfl
      simp only [Phrase.resume, List.length_cons, chain, hstop]
  | negation | signed | primary => rfl

theorem negated_of_head?_ne {comparison : Parser} (h : ts.head? ≠ some .bang) :
    negated comparison ts = comparison ts := by
  unfold negated
  split
  · exact absurd rfl h
  · rfl

theorem signed_of_derives (h : Derives .primary ts e) (rest : List Token) :
    signed inner (ts ++ rest) = primary inner (ts ++ rest) := by
  cases h <;> rfl

/-- A phrase is read, and then the parser asks whether it goes on. The statement is about this moment,
since the left operand of an operation is not the whole phrase of its level. -/
theorem parser_append (h : Derives p ts e) {depth : ℕ} (hdepth : ts.length ≤ depth)
    (hrest : p.part.EndsAt rest) :
    p.parser (nested depth) (ts ++ rest) = p.resume (nested depth) e rest := by
  induction h generalizing depth rest with
  | @operand l ts e _ ih =>
    have hread := (ih hdepth hrest.part).trans (resume_of_endsAt hrest)
    rw [parser_chain, operation, hread]
    rfl
  | @operation l ts us t op left right hleft hop hright ihl ihr =>
    simp only [List.length_append, List.length_cons] at hdepth
    have hts : ts.length ≤ depth := by omega
    have hus : us.length ≤ depth := by omega
    have hoperator := Level.operator?_eq_some.mpr hop
    have hread := (ihr hus hrest.part).trans (resume_of_endsAt hrest)
    -- The left operand leaves a budget for all tokens after it, more than is needed after the right.
    have hshrinks : ∀ {ts e rest}, l.operand.parser (nested depth) ts = .ok (e, rest) →
        rest.length ≤ ts.length := length_le_of_reads (reads_phrase (reads_nested depth) l.operand)
    calc (Phrase.chain l).parser (nested depth) ((ts ++ t :: us) ++ rest)
        = (Phrase.chain l).parser (nested depth) (ts ++ t :: (us ++ rest)) := by simp
      _ = (Phrase.chain l).resume (nested depth) left (t :: (us ++ rest)) :=
          ihl hts (hop.endsAt_operand _)
      _ = chain (l.operand.parser (nested depth)) l.operator? (us ++ rest).length
            (.binary op left right) rest := by
          simp only [Phrase.resume, List.length_cons, chain, hoperator, hread]
          rfl
      _ = (Phrase.chain l).resume (nested depth) (.binary op left right) rest :=
          chain_budget hshrinks (by simp) (Nat.le_refl _)
  | @not ts e _ ih =>
    have hread : negated (Expr.comparison (nested depth)) (ts ++ rest) = .ok (e, rest) :=
      ih (by simp at hdepth; omega) hrest
    simp only [Phrase.parser, List.cons_append, negated, hread]
    rfl
  | @comparison ts e hhead hphrase ih =>
    have hends : (Phrase.chain .comparison).EndsAt rest := hrest
    have hhead' : (ts ++ rest).head? ≠ some .bang := by
      obtain ⟨t, ts, rfl⟩ := List.exists_cons_of_ne_nil hphrase.ne_nil
      exact hhead
    calc negated (Expr.comparison (nested depth)) (ts ++ rest)
        = Expr.comparison (nested depth) (ts ++ rest) := negated_of_head?_ne hhead'
      _ = (Phrase.chain .comparison).resume (nested depth) e rest := ih hdepth hends.part
      _ = .ok (e, rest) := resume_of_endsAt hends
  | @minus ts e _ ih | @bang ts e _ ih =>
    have hread : signed (nested depth) (ts ++ rest) = .ok (e, rest) :=
      ih (by simp at hdepth; omega) hrest
    simp only [Phrase.parser, List.cons_append, signed, hread]
    rfl
  | @unsigned ts e hphrase ih => exact (signed_of_derives hphrase rest).trans (ih hdepth hrest)
  | number | true | false => rfl
  | var htrue hfalse =>
    simp only [Phrase.parser, List.singleton_append, primary, htrue, hfalse, if_false]
    rfl
  | @parens ts e _ ih =>
    simp only [List.length_cons, List.length_append] at hdepth
    -- Two tokens are parentheses, so what is inside is short enough for one depth less.
    obtain ⟨depth, rfl⟩ := Nat.exists_eq_succ_of_ne_zero (n := depth) (by omega)
    have hends := Phrase.endsAt_closeParen (.chain .or) rest
    have hts : ts.length ≤ depth := by omega
    have hread : nested (depth + 1) (ts ++ .closeParen :: rest) = .ok (e, .closeParen :: rest) :=
      (ih hts hends.part).trans (resume_of_endsAt hends)
    simp only [Phrase.parser, List.cons_append, List.append_assoc, List.nil_append, primary, hread]
    rfl

theorem parser_of_derives (h : Derives p ts e) {depth : ℕ} (hdepth : ts.length ≤ depth)
    (hrest : p.EndsAt rest) : p.parser (nested depth) (ts ++ rest) = .ok (e, rest) :=
  (parser_append h hdepth hrest.part).trans (resume_of_endsAt hrest)

theorem ofTokens_of_derives (h : Derives (.chain .or) ts e) : ofTokens ts = .ok e := by
  have hread : nested (ts.length + 1) (ts ++ []) = .ok (e, []) :=
    parser_of_derives h (Nat.le_refl _) (Phrase.endsAt_nil _)
  rw [List.append_nil] at hread
  have hempty : ts.isEmpty = false := by simpa using h.ne_nil
  simp only [ofTokens, hempty, hread]
  rfl

theorem derives_of_ofTokens (h : ofTokens ts = .ok e) : Derives (.chain .or) ts e := by
  simp only [ofTokens] at h
  split at h
  · cases h
  · obtain ⟨⟨e', rest⟩, hread, h⟩ := bind_eq_ok.mp h
    cases rest with
    | cons t rest => cases h
    | nil =>
      cases h
      obtain ⟨front, hsplit, hfront⟩ := reads_nested _ hread
      rw [List.append_nil] at hsplit
      exact hsplit ▸ hfront

/-- A list of tokens is read as an expression exactly if, as a whole, it is a phrase with this tree;
otherwise it is refused. No list is a phrase with two trees. -/
theorem ofTokens_accepts_phrases (ts : List Token) :
    (∀ e, ofTokens ts = .ok e ↔ Derives (.chain .or) ts e) ∧
      ((∃ why, ofTokens ts = .error why) ↔ ∀ e, ¬ Derives (.chain .or) ts e) ∧
      ∀ e e', Derives (.chain .or) ts e → Derives (.chain .or) ts e' → e = e' := by
  have haccepts : ∀ e, ofTokens ts = .ok e ↔ Derives (.chain .or) ts e :=
    fun e => ⟨derives_of_ofTokens, ofTokens_of_derives⟩
  refine ⟨haccepts, ?_, ?_⟩
  · simp only [← haccepts]
    cases ofTokens ts <;> simp
  · intro e e' h h'
    have hsame := (ofTokens_of_derives h).symm.trans (ofTokens_of_derives h')
    cases hsame
    rfl

/-- A `!` in front takes the whole comparison; after a sign it takes one operand. -/
example (c : Comparison) :
    ofTokens [.bang, .name "a", .compare c, .name "b"] =
        .ok (.unary .not (.binary (.compare c) (.var "a") (.var "b"))) ∧
      ofTokens [.minus, .bang, .name "a", .compare c, .name "b"] =
        .ok (.binary (.compare c) (.unary .neg (.unary .not (.var "a"))) (.var "b")) :=
  ⟨rfl, rfl⟩

end TimedMutation.Expr
