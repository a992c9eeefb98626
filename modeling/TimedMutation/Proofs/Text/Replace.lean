import Mathlib.Algebra.Order.BigOperators.Group.List
import Mathlib.Algebra.Order.Group.Nat
import Mathlib.Data.List.SplitBy
import TimedMutation.Text.Cut

/-! Taking a mark out of a text. A mark whose characters are of one kind is taken out of each stretch of
such characters for itself. -/

namespace TimedMutation.Text

variable {mark cs as bs w : List Char} {c : Char} {p : Char → Bool}

/-! ### Where the mark stands -/

theorem afterStart?_eq_none : afterStart? mark cs = none ↔ ¬ mark <+: cs := by
  rw [Option.eq_none_iff_forall_ne_some]
  constructor
  · rintro h ⟨after, rfl⟩
    exact h after (afterStart?_eq_some.mpr rfl)
  · exact fun h after hafter => h ⟨after, (afterStart?_eq_some.mp hafter).symm⟩

theorem replaceAll_mark (hne : mark ≠ []) (new after : List Char) :
    replaceAll mark new (mark ++ after) = new ++ replaceAll mark new after := by
  obtain ⟨m, ms, rfl⟩ := List.exists_cons_of_ne_nil hne
  have hafter : afterStart? (m :: ms) (m :: (ms ++ after)) = some after :=
    afterStart?_eq_some.mpr rfl
  rw [List.cons_append, replaceAll]
  split
  · rename_i after' hfound
    cases hafter.symm.trans hfound
    rfl
  · rename_i hfound
    cases hafter.symm.trans hfound

theorem replaceAll_other (h : ¬ mark <+: c :: cs) (new : List Char) :
    replaceAll mark new (c :: cs) = c :: replaceAll mark new cs := by
  have hnone : afterStart? mark (c :: cs) = none := afterStart?_eq_none.mpr h
  rw [replaceAll]
  split
  · rename_i after hfound
    cases hnone.symm.trans hfound
  · rfl

/-- A text is gone through from mark to mark, and by characters where no mark stands. -/
theorem mark_induction {motive : List Char → Prop} (hne : mark ≠ []) (nil : motive [])
    (found : ∀ after, motive after → motive (mark ++ after))
    (other : ∀ c cs, ¬ mark <+: c :: cs → motive cs → motive (c :: cs)) (cs : List Char) :
    motive cs := by
  fun_induction replaceAll mark [] cs with
  | case1 => exact nil
  | case2 c cs after hfound hempty ih => exact absurd (List.isEmpty_iff.mp hempty) hne
  | case3 c cs after hfound hempty ih =>
    rw [afterStart?_eq_some.mp hfound]
    exact found after ih
  | case4 c cs hnone ih => exact other c cs (afterStart?_eq_none.mp hnone) ih

theorem length_replaceAll_le (hne : mark ≠ []) (cs : List Char) :
    (replaceAll mark [] cs).length ≤ cs.length := by
  induction cs using mark_induction hne with
  | nil => simp [replaceAll]
  | found after ih =>
    rw [replaceAll_mark hne, List.nil_append, List.length_append]
    omega
  | other c cs hnone ih =>
    rw [replaceAll_other hnone]
    simpa using ih

/-- A text stays as it is exactly if the mark does not stand in it. -/
theorem replaceAll_eq_self (hne : mark ≠ []) (cs : List Char) :
    replaceAll mark [] cs = cs ↔ ¬ mark <:+: cs := by
  induction cs using mark_induction hne with
  | nil => simp [replaceAll, hne]
  | found after _ =>
    refine iff_of_false (fun hsame => ?_) (not_not_intro (List.prefix_append mark after).isInfix)
    have hlength := congrArg List.length hsame
    rw [replaceAll_mark hne, List.nil_append, List.length_append] at hlength
    have hle := length_replaceAll_le hne after
    have hpos := List.length_pos_iff.mpr hne
    omega
  | other c cs hnone ih =>
    rw [replaceAll_other hnone, List.cons.injEq, List.infix_cons_iff]
    simp [hnone, ih]

/-! ### Stretches -/

/-- The parts of a text between the places where characters of a kind and others meet. -/
def stretches (p : Char → Bool) (cs : List Char) : List (List Char) :=
  cs.splitBy fun c d => p c == p d

theorem flatten_stretches (p : Char → Bool) (cs : List Char) : (stretches p cs).flatten = cs :=
  List.flatten_splitBy _ cs

/-- The characters of a stretch are of one kind. -/
theorem kind_of_mem_stretches (hw : w ∈ stretches p cs) {a b : Char} (ha : a ∈ w) (hb : b ∈ w) :
    p a = p b := by
  have hchain : w.IsChain (fun c d => p c = p d) :=
    (List.isChain_of_mem_splitBy hw).imp fun c d => by simp
  have htrans : IsTrans Char fun c d => p c = p d := ⟨fun _ _ _ => Eq.trans⟩
  have hsymm : Std.Symm fun c d => p c = p d := ⟨fun _ _ => Eq.symm⟩
  have hpairs : w.Pairwise fun c d => p c = p d := hchain.pairwise
  have hrefl : ∀ c ∈ w, p c = p c := fun _ _ => rfl
  exact hpairs.forall_of_forall hrefl ha hb

/-- A mark whose characters are of one kind stands on one side of a place where two kinds meet. -/
theorem prefix_left (hmark : ∀ m ∈ mark, p m = true) (has : as ≠ [])
    (hborder : ∀ a ∈ as.getLast?, ∀ b ∈ bs.head?, p a = true → p b = false)
    (h : mark <+: as ++ bs) : mark <+: as := by
  obtain ⟨after, h⟩ := h
  rcases List.append_eq_append_iff.mp h with ⟨rest, rfl, -⟩ | ⟨rest, rfl, rfl⟩
  · exact List.prefix_append mark rest
  · cases rest with
    | nil => simp
    | cons b rest =>
      have ha : p (as.getLast has) = true := hmark _ (by simp)
      have hb : p b = true := hmark b (by simp)
      have hother := hborder _ (List.getLast?_eq_getLast_of_ne_nil has) b rfl ha
      simp [hb] at hother

theorem replaceAll_append (hne : mark ≠ []) (hmark : ∀ m ∈ mark, p m = true)
    (hborder : ∀ a ∈ as.getLast?, ∀ b ∈ bs.head?, p a = true → p b = false) :
    replaceAll mark [] (as ++ bs) = replaceAll mark [] as ++ replaceAll mark [] bs := by
  induction as using mark_induction hne with
  | nil => simp [replaceAll]
  | found after ih =>
    rw [List.append_assoc, replaceAll_mark hne, replaceAll_mark hne, List.nil_append,
      List.nil_append]
    exact ih fun a ha => hborder a (by simp [List.getLast?_append, Option.mem_def.mp ha])
  | other c as hnone ih =>
    have hnone' : ¬ mark <+: c :: (as ++ bs) :=
      fun h => hnone (prefix_left hmark (by simp) hborder h)
    have hrest := ih fun a ha => hborder a (by simp [List.getLast?_cons, Option.mem_def.mp ha])
    rw [List.cons_append, replaceAll_other hnone', replaceAll_other hnone, List.cons_append, hrest]

/-- A mark whose characters are of one kind is taken out of every stretch for itself. -/
theorem replaceAll_stretches (hne : mark ≠ []) (hmark : ∀ m ∈ mark, p m = true) (cs : List Char) :
    replaceAll mark [] cs = (stretches p cs).flatMap (replaceAll mark []) := by
  have hchain := List.isChain_getLast_head_splitBy (fun c d => p c == p d) cs
  conv_lhs => rw [← flatten_stretches p cs]
  rw [stretches]
  generalize cs.splitBy (fun c d => p c == p d) = ws at hchain
  induction ws with
  | nil => simp [replaceAll]
  | cons w ws ih =>
    obtain ⟨hnext, htail⟩ := List.isChain_cons.mp hchain
    rw [List.flatten_cons, List.flatMap_cons, ← ih htail]
    refine replaceAll_append hne hmark fun a ha b hb hkind => ?_
    cases ws with
    | nil => cases hb
    | cons w' ws =>
      obtain ⟨hw, hw', hother⟩ := hnext w' rfl
      rw [List.getLast?_eq_some_getLast hw, Option.mem_some] at ha
      rw [List.flatten_cons, List.head?_append_of_ne_nil _ hw', List.head?_eq_some_head hw',
        Option.mem_some] at hb
      simpa [ha, hb, hkind] using hother

/-- Texts of which each is no longer than another are together the same as these only if each is. -/
theorem flatMap_eq_iff {f g : List Char → List Char} {ws : List (List Char)}
    (hle : ∀ w ∈ ws, (f w).length ≤ (g w).length) :
    ws.flatMap f = ws.flatMap g ↔ ∀ w ∈ ws, f w = g w := by
  refine ⟨fun hsame => ?_, fun hall => List.flatMap_congr hall⟩
  induction ws with
  | nil => simp
  | cons w ws ih =>
    have hfirst := hle w List.mem_cons_self
    have hrest : ∀ v ∈ ws, (f v).length ≤ (g v).length :=
      fun v hv => hle v (List.mem_cons_of_mem w hv)
    have htogether : (ws.flatMap f).length ≤ (ws.flatMap g).length := by
      rw [List.length_flatMap, List.length_flatMap]
      exact List.sum_le_sum hrest
    rw [List.flatMap_cons, List.flatMap_cons] at hsame
    have hlength := congrArg List.length hsame
    rw [List.length_append, List.length_append] at hlength
    obtain ⟨hw, hws⟩ := List.append_inj hsame (by omega)
    exact List.forall_mem_cons.mpr ⟨hw, ih hrest hws⟩

end TimedMutation.Text
