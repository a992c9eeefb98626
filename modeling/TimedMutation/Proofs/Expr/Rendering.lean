import TimedMutation.Proofs.Expr.Eval
import TimedMutation.Proofs.Expr.Number
import TimedMutation.Proofs.Expr.Spacing

/-!
The text that is written for an expression is read again. Operations stand in parentheses, signs do not,
and a `!` in front of a comparison, a sum or a product takes all of it. So the tree that is read is another
one exactly where the left operand of an operation other than `&&` and `||` starts with `!`.
-/

namespace TimedMutation

/-- The level of an operation. -/
def BinaryOp.level : BinaryOp → Expr.Level
  | or => .or
  | and => .and
  | compare _ => .comparison
  | add | sub => .sum
  | mul | div | rem => .product

/-- The token that is written for a sign. -/
def UnaryOp.token : UnaryOp → Token
  | neg => .minus
  | not => .bang

/-- The token that is written for an operation. -/
def BinaryOp.token : BinaryOp → Token
  | or => .either
  | and => .both
  | compare c => .compare c
  | add => .plus
  | sub => .minus
  | mul => .star
  | div => .slash
  | rem => .percent

/-- Whether a `!` ends before an operation. -/
def BinaryOp.isLogical : BinaryOp → Bool
  | and | or => true
  | _ => false

theorem BinaryOp.isLogical_iff {op : BinaryOp} : op.isLogical = true ↔ op = .and ∨ op = .or := by
  cases op <;> simp [isLogical]

theorem BinaryOp.writes (op : BinaryOp) : op.level.Writes op.token op := by cases op <;> constructor

theorem UnaryOp.isWord_token (op : UnaryOp) : op.token.isWord = false := by cases op <;> rfl

theorem UnaryOp.spells (op : UnaryOp) : op.token.Spells op.symbol.toList := by
  cases op <;> exact .symbol rfl

theorem BinaryOp.spells (op : BinaryOp) : op.token.Spells op.symbol.toList := by
  cases op <;> exact .symbol rfl

namespace Expr

/-- The tokens that are written for an expression. -/
def tokens : Expr → List Token
  | number x => [.number x]
  | bool b => [.name (if b then "true" else "false")]
  | var name => [.name name]
  | unary op e => op.token :: e.tokens
  | binary op l r => .openParen :: (l.tokens ++ op.token :: r.tokens ++ [.closeParen])

/-- What the tokens of an expression are read as, if `wrap` gets what stands behind the `!` in front. -/
def rereadUnder (wrap : Expr → Expr) : Expr → Expr
  | unary .not e => unary .not (e.rereadUnder wrap)
  | unary .neg e => wrap (unary .neg (e.rereadUnder id))
  | binary op l r =>
    wrap (if op.isLogical then binary op (l.rereadUnder id) (r.rereadUnder id)
      else l.rereadUnder fun left => binary op left (r.rereadUnder id))
  | e => wrap e

/-- What the text of an expression is read as. -/
def reread (e : Expr) : Expr := e.rereadUnder id

/-- The numbers and names of an expression are tokens as they are written. -/
structure Legible (e : Expr) : Prop where
  number : ∀ x, Expr.number x ∈ e.parts → Token.Spells (.number x) (Decimal.plain x).toList
  name : ∀ s, var s ∈ e.parts → s ≠ "true" ∧ s ≠ "false" ∧ Token.Spells (.name s) s.toList

variable {e whole l r : Expr} {op : BinaryOp} {ts us : List Token} {p : Phrase} {wrap : Expr → Expr}

theorem Legible.of_part (h : whole.Legible) (he : e ∈ whole.parts) : e.Legible :=
  ⟨fun x hx => h.number x (parts_subset he hx), fun s hs => h.name s (parts_subset he hs)⟩

/-! ### The phrase of what is written -/

/-- Where one `!` may be put in front of the phrases of a kind, any number of them may. -/
theorem Derives.nots (hnot : ∀ {ts e}, Derives p ts e → Derives p (.bang :: ts) (.unary .not e))
    (h : Derives p ts e) (n : ℕ) :
    Derives p (List.replicate n .bang ++ ts) ((unary .not)^[n] e) := by
  induction n with
  | zero => exact h
  | succ n ih =>
    rw [List.replicate_succ, List.cons_append, Function.iterate_succ_apply']
    exact hnot ih

/-- A phrase with signs is an operand of every operation but `&&` and `||`. -/
theorem Derives.operand_of_signed (h : Derives .signed ts e) (hop : op.isLogical = Bool.false) :
    Derives op.level.operand ts e := by
  cases op with
  | and | or => cases hop
  | compare => exact .operand (.operand h)
  | add | sub => exact .operand h
  | mul | div | rem => exact h

theorem Derives.comparison_of_chain (h : Derives (.chain op.level) ts e)
    (hop : op.isLogical = Bool.false) : Derives (.chain .comparison) ts e := by
  cases op with
  | and | or => cases hop
  | compare => exact h
  | add | sub => exact .operand h
  | mul | div | rem => exact .operand (.operand h)

/-- Tokens are `!` a number of times and then a phrase with signs; `reading` gives the tree of it to a
function, and puts the result behind the `!`. -/
def Negated (ts : List Token) (reading : (Expr → Expr) → Expr) : Prop :=
  ∃ n back core, ts = List.replicate n .bang ++ back ∧ back.head? ≠ some .bang ∧
    Derives .signed back core ∧ ∀ wrap, reading wrap = (unary .not)^[n] (wrap core)

variable {reading reading' : (Expr → Expr) → Expr}

theorem Negated.of_signed (h : Derives .signed ts e) (hhead : ts.head? ≠ some .bang) :
    Negated ts fun wrap => wrap e :=
  ⟨0, ts, e, rfl, hhead, h, fun _ => rfl⟩

theorem Negated.bang (h : Negated ts reading) :
    Negated (.bang :: ts) fun wrap => unary .not (reading wrap) := by
  obtain ⟨n, back, core, rfl, hhead, hback, hreading⟩ := h
  refine ⟨n + 1, back, core, by rw [List.replicate_succ, List.cons_append], hhead, hback, fun wrap => ?_⟩
  simp only [hreading, Function.iterate_succ_apply']

theorem Negated.signed (h : Negated ts reading) : Derives .signed ts (reading id) := by
  obtain ⟨n, back, core, rfl, -, hback, hreading⟩ := h
  rw [hreading]
  exact .nots .bang hback n

theorem Negated.negation (h : Negated ts reading) : Derives .negation ts (reading id) := by
  obtain ⟨n, back, core, rfl, hhead, hback, hreading⟩ := h
  rw [hreading]
  exact .nots .not (.comparison hhead (.operand (.operand (.operand hback)))) n

/-- Between operands of `&&` and `||` every `!` ends. -/
theorem Negated.logical (hl : Negated ts reading) (hr : Negated us reading')
    (hop : op.isLogical = Bool.true) :
    Derives (.chain .or) (ts ++ op.token :: us) (binary op (reading id) (reading' id)) := by
  cases op with
  | and => exact .operand (.operation (.operand hl.negation) .both hr.negation)
  | or => exact .operation (.operand (.operand hl.negation)) .either (.operand hr.negation)
  | _ => cases hop

/-- In front of another operation a `!` takes all of it. -/
theorem Negated.tight (hl : Negated ts reading) (hr : Negated us reading')
    (hop : op.isLogical = Bool.false) :
    Derives (.chain .or) (ts ++ op.token :: us) (reading fun left => binary op left (reading' id)) := by
  obtain ⟨n, back, core, rfl, hhead, hback, hreading⟩ := hl
  have hoperation : Derives (.chain op.level) (back ++ op.token :: us) (binary op core (reading' id)) :=
    .operation (.operand (hback.operand_of_signed hop)) op.writes (hr.signed.operand_of_signed hop)
  have hhead' : (back ++ op.token :: us).head? ≠ some .bang := by
    rwa [List.head?_append_of_ne_nil _ hback.ne_nil]
  have hcomparison := Derives.comparison hhead' (hoperation.comparison_of_chain hop)
  rw [hreading, List.append_assoc]
  exact .operand (.operand (hcomparison.nots .not n))

theorem negated_tokens (h : e.Legible) : Negated e.tokens fun wrap => e.rereadUnder wrap := by
  induction e with
  | number x => exact .of_signed (.unsigned (.number x)) (by simp [tokens])
  | bool b =>
    refine .of_signed (.unsigned ?_) (by simp [tokens])
    cases b
    · exact .false
    · exact .true
  | var s =>
    obtain ⟨htrue, hfalse, -⟩ := h.name s (mem_parts_self _)
    exact .of_signed (.unsigned (.var htrue hfalse)) (by simp [tokens])
  | unary op e ih =>
    have he := ih (h.of_part (by simp [parts, mem_parts_self]))
    cases op with
    | neg => exact .of_signed he.signed.minus (by simp [tokens, UnaryOp.token])
    | not => exact he.bang
  | binary op l r ihl ihr =>
    have hl := ihl (h.of_part (by simp [parts, mem_parts_self]))
    have hr := ihr (h.of_part (by simp [parts, mem_parts_self]))
    refine .of_signed (.unsigned ?_) (by simp [tokens])
    cases hop : op.isLogical with
    | true => simpa [tokens, hop] using (hl.logical hr hop).parens
    | false => simpa [tokens, hop] using (hl.tight hr hop).parens

/-- The tokens of an expression are those of the expression that they are read as. -/
theorem derives_tokens (h : e.Legible) : Derives .signed e.tokens e.reread := (negated_tokens h).signed

/-! ### The text of what is written -/

theorem written_tokens (h : e.Legible) : Token.Written e.tokens e.render.toList := by
  induction e with
  | number x => exact .of_spells (h.number x (mem_parts_self _))
  | bool b =>
    cases b
    · exact .of_spells (.name rfl (by decide))
    · exact .of_spells (.name rfl (by decide))
  | var s => exact .of_spells (h.name s (mem_parts_self _)).2.2
  | unary op e ih =>
    have hlegible : e.Legible := h.of_part (by simp [parts, mem_parts_self])
    have hoperand := ih hlegible
    have hapart : ∀ u ∈ e.tokens.head?, op.token.Apart u := fun u hu =>
      Token.apart_of_starts op.isWord_token ((derives_tokens hlegible).starts u hu)
    rw [render, String.toList_append]
    exact .token op.spells (hoperand.joins_head hapart) hoperand
  | binary op l r ihl ihr =>
    have hl := ihl (h.of_part (by simp [parts, mem_parts_self]))
    have hr := ihr (h.of_part (by simp [parts, mem_parts_self]))
    have hblank : ∀ (t : Token) (cs : List Char), ∀ c ∈ (' ' :: cs).head?, t.joins c = Bool.false := by
      intro t cs c hc
      cases hc
      exact t.joins_blank rfl
    have hright := Token.Written.token op.spells (hblank _ _) (.blank rfl hr)
    have hboth := hl.append (.blank rfl hright) fun t _ => hblank t _
    have hclosed := hboth.append (.of_spells (t := .closeParen) (.symbol rfl)) fun t _ =>
      Token.Written.joins_head (.of_spells (.symbol rfl)) fun u hu => by
        cases hu
        exact t.apart_closeParen
    have hwhole := Token.Written.token (t := .openParen) (.symbol rfl) (fun _ _ => rfl) hclosed
    simpa [tokens, render, Token.mark] using hwhole

/-- The text of an expression is read. -/
theorem Legible.ofText_render (h : e.Legible) : ofText e.render = .ok e.reread :=
  ofText_eq_ok.mpr ⟨e.tokens, written_tokens h,
    .operand (.operand (negated_tokens h).negation)⟩

/-! ### Legibility -/

/-- What has been read from a text is legible. -/
theorem Derives.legible {cs : List Char} (h : Derives p ts e) (hwritten : Token.Written ts cs)
    (hfinite : ∀ x, .number x ∈ e.parts → x.isFinite = Bool.true) : e.Legible := by
  refine ⟨fun x hx => ?_, fun s hs => ?_⟩
  · obtain ⟨w, hw, -⟩ := hwritten.exists_word (h.mem_numbers.mp hx)
    exact Token.spells_plain (hfinite x hx) hw.isNegative
  · obtain ⟨hs, htrue, hfalse⟩ := h.mem_names.mp (Expr.mem_names.mpr hs)
    obtain ⟨w, hw, -⟩ := hwritten.exists_word hs
    exact ⟨htrue, hfalse, hw.toList_eq ▸ hw⟩

/-! ### What is read differently -/

theorem rereadUnder_of_ne (h : ∀ inner, e ≠ unary .not inner) : e.rereadUnder wrap = wrap e.reread := by
  cases e with
  | number | bool | var | binary => rfl
  | unary op e =>
    cases op with
    | neg => rfl
    | not => exact absurd rfl (h e)

theorem reread_unary (op : UnaryOp) (e : Expr) : (unary op e).reread = unary op e.reread := by
  cases op <;> rfl

theorem reread_binary_eq_iff : (binary op l r).reread = binary op l r ↔
    ((∃ inner, l = unary .not inner) → op.isLogical = Bool.true) ∧ l.reread = l ∧ r.reread = r := by
  cases hop : op.isLogical with
  | true => simp [reread, rereadUnder, hop]
  | false =>
    by_cases hl : ∃ inner, l = unary .not inner
    · obtain ⟨inner, rfl⟩ := hl
      simp [reread, rereadUnder, hop]
    · have hwrap : l.rereadUnder (fun left => binary op left r.reread) = binary op l.reread r.reread :=
        rereadUnder_of_ne fun inner hinner => hl ⟨inner, hinner⟩
      have hread : (binary op l r).reread = binary op l.reread r.reread := by
        rw [← hwrap]
        simp [reread, rereadUnder, hop]
      simp [hread, hl]

/-- An expression is read as itself exactly if no operation takes a negation that stands in front. -/
theorem reread_eq_iff : e.reread = e ↔
    ∀ op l r, binary op (unary .not l) r ∈ e.parts → op.isLogical = Bool.true := by
  induction e with
  | number | bool | var => simp [reread, rereadUnder, parts]
  | unary op e ih => simp [reread_unary, parts, ih]
  | binary op l r ihl ihr =>
    rw [reread_binary_eq_iff, ihl, ihr]
    simp only [parts, List.mem_cons, List.mem_append, binary.injEq]
    constructor
    · rintro ⟨hop, hl, hr⟩ op' l' r' (⟨rfl, rfl, rfl⟩ | hmem | hmem)
      · exact hop ⟨l', rfl⟩
      · exact hl op' l' r' hmem
      · exact hr op' l' r' hmem
    · intro h
      refine ⟨?_, fun op' l' r' hmem => h op' l' r' (.inr (.inl hmem)),
        fun op' l' r' hmem => h op' l' r' (.inr (.inr hmem))⟩
      rintro ⟨inner, rfl⟩
      exact h op inner r (.inl ⟨rfl, rfl, rfl⟩)

/-- The text of an expression that was read is read again. It is read as the same expression exactly if
no `!` stands in front of the left operand of an operation other than `&&` and `||`. -/
theorem rendered_reads_back_iff {text : String} (h : ofText text = .ok e)
    (hfinite : ∀ x, number x ∈ e.parts → x.isFinite = Bool.true) :
    ofText e.render = .ok e.reread ∧
      (ofText e.render = .ok e ↔
        ∀ op l r, binary op (unary .not l) r ∈ e.parts → op = .and ∨ op = .or) := by
  obtain ⟨ts, hwritten, hphrase⟩ := ofText_eq_ok.mp h
  have hread := (hphrase.legible hwritten hfinite).ofText_render
  refine ⟨hread, ?_⟩
  simp only [hread, Except.ok.injEq, reread_eq_iff, BinaryOp.isLogical_iff]

/-- What is compared with a number is a negation, and once it is written a negated comparison. -/
theorem rendered_negated_operand :
    let e : Expr := .binary (.compare .lt) (.unary .not (.var "a")) (.number 2.5)
    let again : Expr := .unary .not (.binary (.compare .lt) (.var "a") (.number 2.5))
    ofText "(!a) < 2.5" = .ok e ∧ (∀ x, number x ∈ e.parts → x.isFinite = Bool.true) ∧
      (ofText e.render = .ok again ∧ ofText e.render ≠ .ok e) ∧
      e.eval (.ofList [("a", 1.0)]) = .ok (.bool Bool.true) ∧
      again.eval (.ofList [("a", 1.0)]) = .ok (.bool Bool.false) := by
  intro e again
  have hname : Token.Spells (.name "a") ['a'] := .name rfl rfl
  have hnumber : Token.Spells (.number 2.5) ['2', '.', '5'] :=
    .fraction (by simp : ['2'] ≠ []) (by simp; rfl) (by simp : ['5'] ≠ []) (by simp; rfl)
  have hwritten : Token.Written
      [.openParen, .bang, .name "a", .closeParen, .compare .lt, .number 2.5]
      ['(', '!', 'a', ')', ' ', '<', ' ', '2', '.', '5'] :=
    .token (.symbol rfl) (by simp; rfl) <| .token (.symbol rfl) (by simp; rfl) <|
      .token hname (by simp; decide) <| .token (.symbol rfl) (by simp; rfl) <| .blank rfl <|
      .token (.symbol rfl) (by simp; rfl) <| .blank rfl <| .of_spells hnumber
  have hread : ofText "(!a) < 2.5" = .ok e := ofText_eq_ok.mpr ⟨_, hwritten, derives_of_ofTokens rfl⟩
  have hfinite : ∀ x, number x ∈ e.parts → x.isFinite = Bool.true := by
    intro x hx
    have hvalue : x = 2.5 := by simpa [e, parts] using hx
    rw [hvalue]
    rfl
  obtain ⟨hagain, hsame⟩ := rendered_reads_back_iff hread hfinite
  refine ⟨hread, hfinite, ⟨hagain, fun heq => ?_⟩, rfl, rfl⟩
  have hlogical := hsame.mp heq _ _ _ (mem_parts_self e)
  simp at hlogical

end Expr

end TimedMutation
