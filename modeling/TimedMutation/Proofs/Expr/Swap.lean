import TimedMutation.Proofs.Expr.Grammar

/-! Phrases in which one comparison is written for another. -/

namespace TimedMutation.Expr

/-- Two expressions that differ in one comparison, which is `op` in the first and `op'` in the second. -/
inductive Swaps (op op' : Comparison) : Expr → Expr → Prop
  | here (left right : Expr) :
      Swaps op op' (.binary (.compare op) left right) (.binary (.compare op') left right)
  | unary (o : UnaryOp) {e e' : Expr} : Swaps op op' e e' → Swaps op op' (.unary o e) (.unary o e')
  | left (o : BinaryOp) {l l' : Expr} (r : Expr) :
      Swaps op op' l l' → Swaps op op' (.binary o l r) (.binary o l' r)
  | right (o : BinaryOp) (l : Expr) {r r' : Expr} :
      Swaps op op' r r' → Swaps op op' (.binary o l r) (.binary o l r')

variable {p : Phrase} {ts front back : List Token} {e : Expr} {op : Comparison}

theorem Level.Writes.comparison {l : Level} {b : BinaryOp} (h : l.Writes (.compare op) b) :
    l = .comparison ∧ b = .compare op := by
  cases h
  exact ⟨rfl, rfl⟩

/-- Of two places in a list, one is before the other if they are not the same. -/
theorem places_of_eq {as bs cs ds : List Token} {t u : Token} (h : as ++ t :: bs = cs ++ u :: ds) :
    (as = cs ∧ t = u ∧ bs = ds) ∨ (∃ mid, cs = as ++ t :: mid ∧ bs = mid ++ u :: ds) ∨
      ∃ mid, as = cs ++ u :: mid ∧ ds = mid ++ t :: bs := by
  rcases List.append_eq_append_iff.mp h with ⟨tail, rfl, htail⟩ | ⟨tail, rfl, htail⟩
  · cases tail with
    | nil =>
      cases htail
      exact .inl ⟨by simp, rfl, rfl⟩
    | cons x tail =>
      cases htail
      exact .inr (.inl ⟨tail, rfl, rfl⟩)
  · cases tail with
    | nil =>
      cases htail
      exact .inl ⟨by simp, rfl, rfl⟩
    | cons x tail =>
      cases htail
      exact .inr (.inr ⟨tail, rfl, rfl⟩)

/-- A place in a list that is not its start. -/
theorem exists_front {t u : Token} (h : front ++ u :: back = t :: ts) (ht : t ≠ u) :
    ∃ rest, front = t :: rest ∧ rest ++ u :: back = ts := by
  cases front with
  | nil => exact absurd (List.cons.inj h).1.symm ht
  | cons u rest =>
    obtain ⟨rfl, hrest⟩ := List.cons.inj h
    exact ⟨rest, rfl, hrest⟩

/-- A comparison in a phrase may be replaced by another; the tree is the same but for this comparison. -/
theorem Derives.swap (h : Derives p (front ++ .compare op :: back) e) (op' : Comparison) :
    ∃ e', Derives p (front ++ .compare op' :: back) e' ∧ Swaps op op' e e' := by
  generalize hts : front ++ .compare op :: back = ts at h
  induction h generalizing front back with
  | operand _ ih =>
    obtain ⟨e', he', hswap⟩ := ih hts
    exact ⟨e', .operand he', hswap⟩
  | @operation l ts us t b left right hleft hop hright ihl ihr =>
    -- The comparison is the operator, or stands before it or after it.
    rcases places_of_eq hts with ⟨rfl, rfl, rfl⟩ | ⟨mid, rfl, rfl⟩ | ⟨mid, rfl, rfl⟩
    · obtain ⟨rfl, rfl⟩ := hop.comparison
      exact ⟨_, hleft.operation (.compare op') hright, .here left right⟩
    · obtain ⟨left', hleft', hswap⟩ := ihl rfl
      have hphrase := hleft'.operation hop hright
      exact ⟨_, by simpa using hphrase, .left b right hswap⟩
    · obtain ⟨right', hright', hswap⟩ := ihr rfl
      have hphrase := hleft.operation hop hright'
      exact ⟨_, by simpa using hphrase, .right b left hswap⟩
  | not _ ih =>
    obtain ⟨rest, rfl, hrest⟩ := exists_front hts (by simp)
    obtain ⟨e', he', hswap⟩ := ih hrest
    exact ⟨_, .not he', .unary .not hswap⟩
  | comparison hhead _ ih =>
    obtain ⟨e', he', hswap⟩ := ih hts
    refine ⟨e', .comparison ?_ he', hswap⟩
    subst hts
    cases front with
    | nil => simp
    | cons t front => exact hhead
  | minus _ ih =>
    obtain ⟨rest, rfl, hrest⟩ := exists_front hts (by simp)
    obtain ⟨e', he', hswap⟩ := ih hrest
    exact ⟨_, .minus he', .unary .neg hswap⟩
  | bang _ ih =>
    obtain ⟨rest, rfl, hrest⟩ := exists_front hts (by simp)
    obtain ⟨e', he', hswap⟩ := ih hrest
    exact ⟨_, .bang he', .unary .not hswap⟩
  | unsigned _ ih =>
    obtain ⟨e', he', hswap⟩ := ih hts
    exact ⟨e', .unsigned he', hswap⟩
  | number | true | false | var => cases front <;> simp at hts
  | parens _ ih =>
    obtain ⟨rest, rfl, hrest⟩ := exists_front hts (by simp)
    rcases places_of_eq hrest with ⟨-, hclose, -⟩ | ⟨mid, rfl, rfl⟩ | ⟨mid, -, hnil⟩
    · cases hclose
    · obtain ⟨e', he', hswap⟩ := ih rfl
      have hphrase := Derives.parens he'
      exact ⟨e', by simpa using hphrase, hswap⟩
    · simp at hnil

end TimedMutation.Expr
