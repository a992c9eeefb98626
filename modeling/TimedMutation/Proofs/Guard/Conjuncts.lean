import TimedMutation.Proofs.Expr.Depth
import TimedMutation.Proofs.Guard.RoundTrip
import TimedMutation.Proofs.Guard.Tokens

/-!
The parts of a guard as expressions. Where no `||` stands outside parentheses, the `&&` outside
parentheses are at once what separates the parts and what joins the operands of the whole expression.
-/

namespace TimedMutation

namespace Token

/-- In a list of tokens that starts at a depth of parentheses, a token is never at depth zero. -/
def Inside (t : Token) (d : Int) (ts : List Token) : Prop :=
  ∀ front back, ts = front ++ t :: back → d + depth front ≠ 0

variable {t u : Token} {d : Int} {ts us front back : List Token} {tss : List (List Token)}
  {w cs piece : List Char} {pieces : List (List Char)}

theorem inside_nil (t : Token) (d : Int) : Inside t d [] := by simp [Inside]

theorem inside_cons : Inside t d (u :: us) ↔ (u = t → d ≠ 0) ∧ Inside t (d + u.nesting) us := by
  constructor
  · intro h
    refine ⟨?_, fun front back hus => ?_⟩
    · rintro rfl
      simpa using h [] us rfl
    · simpa [Int.add_assoc] using h (u :: front) back (by rw [hus]; rfl)
  · rintro ⟨hfirst, hrest⟩ front back hsplit
    rcases List.append_eq_cons_iff.mp hsplit.symm with ⟨rfl, heq⟩ | ⟨front, rfl, hus⟩
    · cases heq
      simpa using hfirst rfl
    · simpa [Int.add_assoc] using hrest front back hus

theorem inside_append : Inside t d (ts ++ us) ↔ Inside t d ts ∧ Inside t (d + depth ts) us := by
  induction ts generalizing d with
  | nil => simp [inside_nil]
  | cons u ts ih => simp [inside_cons, ih, and_assoc, Int.add_assoc]

/-! ### Texts and their tokens -/

/-- A token is found in the text of a list of tokens. -/
theorem Written.split (h : Written (front ++ t :: back) cs) :
    ∃ as w bs, cs = as ++ (w ++ bs) ∧ Written front as ∧ Spells t w ∧ Written back bs := by
  generalize hts : front ++ t :: back = ts at h
  induction h generalizing front with
  | nil => simp at hts
  | @blank ts c cs hc _ ih =>
    obtain ⟨as, w, bs, rfl, hfront, hw, hback⟩ := ih hts
    exact ⟨c :: as, w, bs, rfl, .blank hc hfront, hw, hback⟩
  | @token u v ts cs hv hends hlater ih =>
    cases front with
    | nil =>
      cases hts
      exact ⟨[], v, cs, rfl, .nil, hv, hlater⟩
    | cons x front =>
      obtain ⟨rfl, hrest⟩ := List.cons.inj hts
      obtain ⟨as, w, bs, rfl, hfront, hw, hback⟩ := ih hrest
      refine ⟨v ++ as, w, bs, by rw [List.append_assoc],
        .token hv (fun c hc => hends c ?_) hfront, hw, hback⟩
      rw [List.head?_append, Option.mem_def.mp hc]
      rfl

/-- Tokens of which none separates belong to the first piece. -/
theorem Written.piecesFrom_append (h : Written ts w) (hts : Inside both d ts)
    (hpieces : Text.piecesFrom ['&', '&'] (d + depth ts) cs = piece :: pieces) :
    Text.piecesFrom ['&', '&'] d (w ++ cs) = (w ++ piece) :: pieces := by
  induction h generalizing d with
  | nil => simpa using hpieces
  | @blank ts c w hc _ ih =>
    have hblank : Text.allBlank [c] = true := by simp [Text.allBlank, hc]
    refine Text.piecesFrom_append (w := [c]) (Text.not_mem_of_allBlank hblank rfl) ?_
    rw [Text.foldl_depthAfter_of_allBlank hblank]
    exact ih hts hpieces
  | @token t v ts w hv _ _ ih =>
    obtain ⟨hfirst, hrest⟩ := inside_cons.mp hts
    rw [List.append_assoc, List.append_assoc]
    refine hv.piecesFrom_append hfirst (ih hrest ?_)
    rwa [depth_cons, ← Int.add_assoc] at hpieces

/-- The pieces of a text between `&&` outside parentheses are the texts of the operands, if every
operand closes its parentheses and has no `&&` outside them. -/
theorem Written.operands (h : Written ([both].intercalate tss) cs) (hne : tss ≠ [])
    (htss : ∀ ts ∈ tss, depth ts = 0 ∧ Inside both 0 ts) :
    List.Forall₂ Written tss (Text.splitTopLevel ['&', '&'] cs) := by
  induction tss generalizing cs with
  | nil => exact absurd rfl hne
  | cons ts tss ih =>
    obtain ⟨hdepth, hinside⟩ := htss ts List.mem_cons_self
    have hfirst : ∀ {as bs piece pieces}, Written ts as →
        Text.piecesFrom ['&', '&'] 0 bs = piece :: pieces →
        Text.splitTopLevel ['&', '&'] (as ++ bs) = (as ++ piece) :: pieces := by
      intro as bs piece pieces has hpieces
      exact has.piecesFrom_append hinside (by rwa [hdepth])
    cases tss with
    | nil =>
      rw [List.intercalate_singleton] at h
      have hlast := hfirst h (Text.whole_nil _ 0)
      rw [List.append_nil] at hlast
      exact hlast ▸ .cons h .nil
    | cons us tss =>
      rw [List.intercalate_cons_cons, List.append_assoc] at h
      obtain ⟨as, w, bs, rfl, has, hw, hbs⟩ := h.split
      have hpieces := hfirst has (hw.piecesFrom_both bs)
      rw [List.append_nil] at hpieces
      have hlater := ih hbs (by simp) fun ts hts => htss ts (List.mem_cons_of_mem _ hts)
      exact hpieces ▸ .cons has hlater

end Token

namespace Expr

variable {p : Phrase} {ts : List Token} {e : Expr}

/-- In a phrase that is no operand of `||` or looser, `&&` stands in parentheses. -/
theorem Derives.both_inside (h : Derives p ts e) (hp : Level.and ∉ p.levels) :
    Token.Inside .both 0 ts := by
  induction h with
  | @operand l ts e _ ih =>
    refine ih fun hmem => hp ?_
    cases l <;> simp [Phrase.levels, Level.operand] at hmem hp ⊢
  | @operation l ts us t op left right hleft hop hright ihl ihr =>
    have hoperand : Level.and ∉ l.operand.levels := fun hmem => hp (by
      cases l <;> simp [Phrase.levels, Level.operand] at hmem hp ⊢)
    have hboth : t ≠ .both := by
      rintro rfl
      cases hop
      simp [Phrase.levels] at hp
    rw [Token.inside_append, Token.inside_cons, hleft.depth_eq, hop.nesting]
    exact ⟨ihl hp, fun ht => absurd ht hboth, ihr hoperand⟩
  | comparison _ _ ih => exact ih hp
  | unsigned _ ih => exact ih hp
  | not _ ih | minus _ ih | bang _ ih => exact Token.inside_cons.mpr ⟨by simp, ih hp⟩
  | number | true | false | var => exact Token.inside_cons.mpr ⟨by simp, Token.inside_nil _ _⟩
  | @parens ts e hphrase =>
    have hinner : Token.Inside .both 1 ts := by
      intro front back hts
      have hdepth := hphrase.depth_front hts
      omega
    refine Token.inside_cons.mpr ⟨by simp, Token.inside_append.mpr ⟨hinner, ?_⟩⟩
    exact Token.inside_cons.mpr ⟨by simp, Token.inside_nil _ _⟩

/-- A phrase without `||` outside parentheses is a conjunction. -/
theorem Derives.of_either_inside (h : Derives (.chain .or) ts e) (hts : Token.Inside .either 0 ts) :
    Derives (.chain .and) ts e := by
  cases h with
  | operand hphrase => exact hphrase
  | operation hleft hop _ =>
    cases hop
    exact absurd (by simp [hleft.depth_eq]) (hts _ _ rfl)

theorem intercalate_concat {α : Type} (mark : List α) {xss : List (List α)} (h : xss ≠ [])
    (ys : List α) : mark.intercalate (xss ++ [ys]) = mark.intercalate xss ++ (mark ++ ys) := by
  induction xss with
  | nil => exact absurd rfl h
  | cons xs xss ih =>
    cases xss with
    | nil => simp
    | cons next xss =>
      have hrest := ih (by simp)
      rw [List.cons_append] at hrest
      rw [List.cons_append, List.cons_append, List.intercalate_cons_cons, hrest,
        List.intercalate_cons_cons, List.append_assoc _ _ (mark ++ ys)]

/-- A conjunction is its operands with `&&` between them, and its tree has theirs from left to
right. -/
theorem Derives.operands (h : Derives (.chain .and) ts e) :
    ∃ tss first rest, ts = [Token.both].intercalate tss ∧
      List.Forall₂ (Derives .negation) tss (first :: rest) ∧ e = rest.foldl (.binary .and) first := by
  generalize hp : Phrase.chain Level.and = p at h
  induction h with
  | operand hphrase =>
    cases hp
    exact ⟨[_], _, [], by simp, .cons hphrase .nil, rfl⟩
  | @operation l ts us t op left right _ hop hright ih =>
    cases hp
    cases hop
    obtain ⟨tss, first, rest, rfl, hall, rfl⟩ := ih rfl
    refine ⟨tss ++ [us], first, rest ++ [right], ?_, ?_, by rw [List.foldl_append]; rfl⟩
    · have hne : tss ≠ [] := by
        rintro rfl
        cases hall
      rw [intercalate_concat _ hne]
      rfl
    · exact List.rel_append hall (.cons hright .nil)
  | not | comparison | minus | bang | unsigned | number | true | false | var | parens => cases hp

/-- There is no expression without text. -/
theorem ne_nil_of_ofText {text : String} (h : ofText text = .ok e) : text.toList ≠ [] := by
  obtain ⟨ts, hwritten, hphrase⟩ := ofText_eq_ok.mp h
  intro hnil
  rw [hnil] at hwritten
  exact hphrase.ne_nil hwritten.eq_nil

/-- The texts of operands are read as their trees. -/
theorem reads_operands {tss : List (List Token)} {texts : List (List Char)} {trees : List Expr}
    (h : List.Forall₂ Token.Written tss texts) (h' : List.Forall₂ (Derives .negation) tss trees) :
    List.Forall₂ (fun part tree => ofText part = .ok tree)
      (texts.map fun text => String.ofList (Text.trim text)) trees := by
  induction h generalizing trees with
  | nil =>
    cases h'
    exact .nil
  | cons hfirst _ ih =>
    cases h' with
    | cons hphrase hrest =>
      have hwhole := Derives.operand (l := .or) (Derives.operand (l := .and) hphrase)
      exact .cons (ofText_eq_ok.mpr ⟨_, by simpa using hfirst.trim, hwhole⟩) (ih hrest)

end Expr

namespace Conjunction

variable {text : String} {ts : List Token} {e : Expr}

/-- A guard that is read as an expression, with no `||` outside parentheses, has parts that are read as
expressions, and its tree is the conjunction of theirs from left to right. -/
theorem tree_of_parts (h : Expr.ofText text = .ok e) (hts : Token.scan text.toList = .ok ts)
    (hor : Token.Inside .either 0 ts) :
    ∃ guard first rest, ofText text = .ok guard ∧
      List.Forall₂ (fun part tree => Expr.ofText part = .ok tree) guard.parts (first :: rest) ∧
      e = rest.foldl (.binary .and) first := by
  obtain ⟨us, hwritten, hphrase⟩ := Expr.ofText_eq_ok.mp h
  cases hwritten.unique (Token.scan_eq_ok.mp hts)
  obtain ⟨tss, first, rest, rfl, hall, htree⟩ := (hphrase.of_either_inside hor).operands
  have hne : tss ≠ [] := by
    rintro rfl
    cases hall
  have hpieces := hwritten.operands hne fun ts hts => by
    obtain ⟨tree, -, hnegation⟩ := exists_of_mem_right hall.flip hts
    exact ⟨hnegation.depth_eq, hnegation.both_inside (by simp [Expr.Phrase.levels])⟩
  have hread := Expr.reads_operands hpieces hall
  refine ⟨⟨_⟩, first, rest, ofText_of_ne_nil fun piece hpiece => ?_, hread, htree⟩
  obtain ⟨tree, -, htree⟩ := exists_of_mem_right hread.flip (List.mem_map_of_mem hpiece)
  simpa using Expr.ne_nil_of_ofText htree

/-- An `||` in parentheses stays within its part. -/
theorem tree_of_parts_choice :
    let tree : Expr := .binary .and (.var "a") (.binary .or (.var "b") (.var "c"))
    let ts : List Token :=
      [.name "a", .both, .openParen, .name "b", .either, .name "c", .closeParen]
    Expr.ofText "a && (b || c)" = .ok tree ∧ Token.scan "a && (b || c)".toList = .ok ts ∧
      Token.Inside .either 0 ts ∧
      ∃ guard first rest, ofText "a && (b || c)" = .ok guard ∧
        List.Forall₂ (fun part tree => Expr.ofText part = .ok tree) guard.parts (first :: rest) ∧
        tree = rest.foldl (.binary .and) first := by
  intro tree ts
  have ha : Token.Spells (.name "a") ['a'] := .name rfl rfl
  have hb : Token.Spells (.name "b") ['b'] := .name rfl rfl
  have hc : Token.Spells (.name "c") ['c'] := .name rfl rfl
  have hchoice : Token.Written [.openParen, .name "b", .either, .name "c", .closeParen]
      ['(', 'b', ' ', '|', '|', ' ', 'c', ')'] :=
    .token (w := ['(']) (.symbol rfl) (by simp; decide) <| .token hb (by simp; decide) <|
      .blank rfl <| .token (w := ['|', '|']) (.symbol rfl) (by simp; decide) <| .blank rfl <|
      .token hc (by simp; decide) <| .of_spells (.symbol rfl)
  have hwritten : Token.Written ts
      ['a', ' ', '&', '&', ' ', '(', 'b', ' ', '|', '|', ' ', 'c', ')'] :=
    .token ha (by simp; decide) <| .blank rfl <|
      .token (w := ['&', '&']) (.symbol rfl) (by simp; decide) <| .blank rfl hchoice
  have hread : Expr.ofText "a && (b || c)" = .ok tree :=
    Expr.ofText_eq_ok.mpr ⟨ts, hwritten, Expr.derives_of_ofTokens rfl⟩
  have hscan : Token.scan "a && (b || c)".toList = .ok ts := Token.scan_eq_ok.mpr hwritten
  have hor : Token.Inside .either 0 ts := by
    simp [ts, Token.inside_cons, Token.inside_nil, Token.nesting]
  exact ⟨hread, hscan, hor, tree_of_parts hread hscan hor⟩

end Conjunction

end TimedMutation
