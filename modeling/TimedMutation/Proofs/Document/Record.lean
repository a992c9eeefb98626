import TimedMutation.Proofs.Document.Json.RoundTrip

/-! Records and lists that are written as documents: what is read of them again, and that JSON writes
them without loss. -/

namespace TimedMutation
namespace Document

@[simp] theorem text?_text (s : String) : text? (text s) = some s := rfl

theorem integer?_integer {n : Int} (h : Text.isWord64 n = true) : integer? (integer n) = some n :=
  if_pos h

theorem nullOr?_integer {n : Int} (h : Text.isWord64 n = true) :
    nullOr? integer? (integer n) = some (some n) := by
  have hnull : (Scalar.integer n).null? = some false := rfl
  have hvalue := integer?_integer h
  rw [integer] at hvalue ⊢
  simp [nullOr?, hnull, hvalue]

/-- The fields of a record are found in their order if each is known and stands once. -/
theorem knownFields?_record {known : List String} {found fields : Fields}
    (hknown : ∀ name ∈ fields.map Prod.fst, name ∈ known)
    (honce : ((found ++ fields).map Prod.fst).Nodup) :
    knownFields? known found (fields.map fun (name, value) => (.text name, value)) =
      some (found ++ fields) := by
  induction fields generalizing found with
  | nil => simp [knownFields?]
  | cons field fields ih =>
    obtain ⟨name, value⟩ := field
    rw [List.map_cons, List.forall_mem_cons] at hknown
    have hnew : found.lookup name = none := by
      rw [List.map_append, List.nodup_append] at honce
      rw [List.lookup_eq_none_iff]
      intro p hp
      have hne := honce.2.2 p.1 (List.mem_map_of_mem hp) name (by simp)
      simpa using Ne.symm hne
    rw [List.map_cons, knownFields?]
    simp only [Scalar.text?, Option.bind_eq_bind, Option.bind_some, hknown.1, hnew, if_true]
    rw [ih hknown.2 (by simpa using honce)]
    simp

theorem fields?_record (listed : Bool) {known : List String} {fields : Fields}
    (hknown : ∀ name ∈ fields.map Prod.fst, name ∈ known) (honce : (fields.map Prod.fst).Nodup) :
    (record fields).fields? listed known = some fields :=
  knownFields?_record hknown (by simpa using honce)

theorem listOf?_map {α β : Type} {item? : Document → Option β} {write : α → Document} {back : α → β}
    {xs : List α} (h : ∀ x ∈ xs, item? (write x) = some (back x)) :
    listOf? item? (.list (xs.map write)) = some (xs.map back) := by
  change (xs.map write).mapM item? = _
  induction xs with
  | nil => rfl
  | cons x xs ih =>
    rw [List.forall_mem_cons] at h
    rw [List.map_cons, List.mapM_cons, h.1, ih h.2]
    rfl

theorem listOf?_texts (names : List String) : listOf? text? (texts names) = some names := by
  have hread : ∀ name ∈ names, text? (text name) = some (id name) := fun name _ => rfl
  rw [texts, listOf?_map hread, List.map_id]

end Document

namespace Json

theorem lossless_text (s : String) : Lossless (.text s) := .scalar trivial

theorem lossless_integer {n : Int} (h : Text.isWord64 n = true) : Lossless (.integer n) :=
  .scalar (by simp [Keeps, Held, h])

theorem lossless_listOf {α : Type} {write : α → Document} {xs : List α}
    (h : ∀ x ∈ xs, Lossless (write x)) : Lossless (.list (xs.map write)) :=
  .list (by simpa using h)

theorem lossless_texts (names : List String) : Lossless (.texts names) :=
  lossless_listOf fun name _ => lossless_text name

theorem lossless_record {fields : Document.Fields} (h : ∀ f ∈ fields, Lossless f.2) :
    Lossless (.record fields) :=
  .map (List.forall_mem_map.mpr fun f _ => ⟨f.1, rfl⟩) (List.forall_mem_map.mpr h)

end Json

end TimedMutation
