import Mathlib.Algebra.Ring.Nat
import Mathlib.Data.List.Nodup
import Mathlib.Data.List.Perm.Subperm
import Mathlib.Order.Bounds.Defs
import TimedMutation.Automaton.Basic
import TimedMutation.Proofs.Text.Numeral

/-! Ids that no location has. The search for one tries the numbers one after another, and a number that
is in use costs a location of its own, so that it is over before the locations are. -/

namespace TimedMutation
namespace Component

variable {c : Component} {stem : String}

theorem location?_eq_none_iff {id : String} :
    c.location? id = none ↔ ∀ l ∈ c.locations, l.id ≠ id := by
  simp [location?]

theorem numbered_ne_stem (stem : String) (n : ℕ) : stem ++ Text.ofNat n ≠ stem := by
  intro h
  have hlists := congrArg String.toList h
  rw [String.toList_append] at hlists
  exact Text.ofNat_ne_nil n (List.append_right_eq_self.mp hlists)

/-! ### The search -/

theorem freeNumber_of_used {n : ℕ} (h : (c.location? (stem ++ Text.ofNat n)).isSome) :
    c.freeNumber stem n = c.freeNumber stem (n + 1) := by
  rw [freeNumber, dif_pos h]

theorem freeNumber_of_unused {n : ℕ} (h : c.location? (stem ++ Text.ofNat n) = none) :
    c.freeNumber stem n = n := by
  rw [freeNumber, dif_neg (by simp [h])]

/-- The search ends at the least number from where it starts that no location uses. -/
theorem freeNumber_isLeast (c : Component) (stem : String) (n : ℕ) :
    IsLeast {k | n ≤ k ∧ c.location? (stem ++ Text.ofNat k) = none} (c.freeNumber stem n) := by
  induction n using freeNumber.induct c stem with
  | case1 n hused ih =>
    rw [freeNumber_of_used hused]
    obtain ⟨⟨hle, hunused⟩, hleast⟩ := ih
    refine ⟨⟨by omega, hunused⟩, ?_⟩
    rintro k ⟨hk, hnone⟩
    have hne : n ≠ k := by
      rintro rfl
      simp [hnone] at hused
    exact hleast ⟨by omega, hnone⟩
  | case2 n hunused =>
    have hnone : c.location? (stem ++ Text.ofNat n) = none := by simpa using hunused
    rw [freeNumber_of_unused hnone]
    exact ⟨⟨le_rfl, hnone⟩, fun k hk => hk.1⟩

/-- The stem, and the stem with each of the first `n` positive numbers. -/
def candidates (stem : String) (n : ℕ) : List String :=
  stem :: (List.range n).map fun i => stem ++ Text.ofNat (i + 1)

theorem nodup_candidates (stem : String) (n : ℕ) : (candidates stem n).Nodup := by
  refine List.nodup_cons.mpr ⟨?_, List.Nodup.map ?_ List.nodup_range⟩
  · intro hmem
    obtain ⟨i, -, hi⟩ := List.mem_map.mp hmem
    exact numbered_ne_stem stem (i + 1) hi
  · intro i j hij
    have hnumber := numbered_injective hij
    omega

/-- Candidates that are all in use are fewer than the locations, the stem not counted. -/
theorem lt_length_of_used {n : ℕ} (h : ∀ id ∈ candidates stem n, (c.location? id).isSome) :
    n < c.locations.length := by
  have hused : candidates stem n ⊆ c.locations.map (·.id) := by
    intro id hid
    obtain ⟨l, hl⟩ := Option.isSome_iff_exists.mp (h id hid)
    exact List.mem_map.mpr ⟨l, List.mem_of_find?_eq_some hl, by simpa using List.find?_some hl⟩
  have hlength := (List.subperm_of_subset (nodup_candidates stem n) hused).length_le
  simp only [candidates, List.length_cons, List.length_map, List.length_range] at hlength
  omega

theorem freeNumber_le_length (hstem : (c.location? stem).isSome) :
    c.freeNumber stem 1 ≤ c.locations.length := by
  obtain ⟨⟨hpos, -⟩, hleast⟩ := c.freeNumber_isLeast stem 1
  have hused : ∀ id ∈ candidates stem (c.freeNumber stem 1 - 1), (c.location? id).isSome := by
    intro id hid
    rcases List.mem_cons.mp hid with rfl | hnumbered
    · exact hstem
    · obtain ⟨i, hi, rfl⟩ := List.mem_map.mp hnumbered
      have hlt := List.mem_range.mp hi
      by_contra hnone
      have hle : c.freeNumber stem 1 ≤ i + 1 := hleast ⟨by omega, by simpa using hnone⟩
      omega
  have hlt := lt_length_of_used hused
  omega

/-! ### The id -/

theorem location?_freshId (c : Component) (stem : String) : c.location? (c.freshId stem) = none := by
  unfold freshId
  split
  · rename_i hstem
    simpa using hstem
  · exact (c.freeNumber_isLeast stem 1).1.2

theorem freshId_ne (c : Component) (stem : String) : ∀ l ∈ c.locations, l.id ≠ c.freshId stem :=
  location?_eq_none_iff.mp (c.location?_freshId stem)

/-- The search for an id ends with one that no location has. It is the stem, or else the stem and the
least positive number that makes it such an id. No number above that of the locations is tried, so that
a counter of 32 bits with a sign does not run out where there are fewer locations than it can count. -/
theorem freshId_least (c : Component) (stem : String) (h : c.locations.length < 2 ^ 31 - 1) :
    (∀ l ∈ c.locations, l.id ≠ c.freshId stem) ∧
      ((∀ l ∈ c.locations, l.id ≠ stem) ∧ c.freshId stem = stem ∨
        (∃ l ∈ c.locations, l.id = stem) ∧
          ∃ n, IsLeast {k | 0 < k ∧ ∀ l ∈ c.locations, l.id ≠ stem ++ Text.ofNat k} n ∧
            c.freshId stem = stem ++ Text.ofNat n ∧
            n ≤ c.locations.length ∧ n < 2 ^ 31 - 1) := by
  refine ⟨c.freshId_ne stem, ?_⟩
  cases hstem : c.location? stem with
  | none =>
    have hid : c.freshId stem = stem := by simp [freshId, hstem]
    exact .inl ⟨location?_eq_none_iff.mp hstem, hid⟩
  | some l =>
    have hused : ∃ l ∈ c.locations, l.id = stem :=
      ⟨l, List.mem_of_find?_eq_some hstem, by simpa using List.find?_some hstem⟩
    have hid : c.freshId stem = stem ++ Text.ofNat (c.freeNumber stem 1) := by
      simp [freshId, hstem]
    have hleast := c.freeNumber_isLeast stem 1
    simp only [location?_eq_none_iff] at hleast
    have hbound : c.freeNumber stem 1 ≤ c.locations.length :=
      freeNumber_le_length (by simp [hstem])
    exact .inr ⟨hused, c.freeNumber stem 1, hleast, hid, hbound, by omega⟩

/-- A stem and its first number are in use; an id that only looks like its second number is not in the
way. -/
theorem freshId_least_of_sinks :
    let c : Component :=
      { name := "Sinks"
        locations := [⟨"Sink", "", .initial⟩, ⟨"Sink1", "", .normal⟩, ⟨"Sink02", "", .normal⟩] }
    c.locations.length < 2 ^ 31 - 1 ∧ c.freshId "Sink" = "Sink2" := by
  intro c
  have hlength : c.locations.length < 2 ^ 31 - 1 := by decide
  obtain ⟨-, ⟨hstem, -⟩ | ⟨-, n, ⟨⟨hpos, hunused⟩, hleast⟩, hid, -⟩⟩ :=
    freshId_least c "Sink" hlength
  · exact absurd rfl (hstem ⟨"Sink", "", .initial⟩ (by simp [c]))
  · have htwo : n ≤ 2 := hleast ⟨by decide, by decide⟩
    have hone : n ≠ 1 := by
      rintro rfl
      exact hunused ⟨"Sink1", "", .normal⟩ (by simp [c]) rfl
    obtain rfl : n = 2 := by omega
    exact ⟨hlength, hid⟩

end Component
end TimedMutation
