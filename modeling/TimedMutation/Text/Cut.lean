import TimedMutation.Text.Blank

/-! Cutting a text at marks: its lines, its words, and what stands before and after a mark. -/

namespace TimedMutation.Text

/-- What follows `mark` when the text starts with it. -/
def afterStart? : List Char → List Char → Option (List Char)
  | [], cs => some cs
  | _ :: _, [] => none
  | m :: ms, c :: cs => if m = c then afterStart? ms cs else none

theorem afterStart?_eq_some {mark cs rest : List Char} :
    afterStart? mark cs = some rest ↔ cs = mark ++ rest := by
  induction mark generalizing cs with
  | nil => simp [afterStart?]
  | cons m ms ih =>
    cases cs with
    | nil => simp [afterStart?]
    | cons c cs =>
      by_cases h : m = c
      · simp [afterStart?, h, ih]
      · simp [afterStart?, h, Ne.symm h]

/-- What precedes `mark` when the text ends with it. -/
def beforeEnd? (mark cs : List Char) : Option (List Char) :=
  (afterStart? mark.reverse cs.reverse).map List.reverse

theorem beforeEnd?_eq_some {mark cs rest : List Char} :
    beforeEnd? mark cs = some rest ↔ cs = rest ++ mark := by
  simp only [beforeEnd?, Option.map_eq_some_iff, afterStart?_eq_some]
  constructor
  · rintro ⟨r, h, rfl⟩
    have := congrArg List.reverse h
    simpa using this
  · rintro rfl
    exact ⟨rest.reverse, by simp, by simp⟩

/-- The two sides of the first occurrence of `mark`. -/
def cutAt? (mark : List Char) : List Char → Option (List Char × List Char)
  | [] => if mark.isEmpty then some ([], []) else none
  | c :: cs =>
    match afterStart? mark (c :: cs) with
    | some rest => some ([], rest)
    | none => (cutAt? mark cs).map fun (before, after) => (c :: before, after)

theorem eq_of_cutAt? {mark cs before after : List Char} (h : cutAt? mark cs = some (before, after)) :
    cs = before ++ mark ++ after := by
  induction cs generalizing before after with
  | nil =>
    simp only [cutAt?] at h
    split at h
    · rename_i hm
      simp only [Option.some.injEq, Prod.mk.injEq] at h
      simp [← h.1, ← h.2, List.isEmpty_iff.1 hm]
    · simp at h
  | cons c cs ih =>
    simp only [cutAt?] at h
    split at h
    · rename_i rest hr
      simp only [Option.some.injEq, Prod.mk.injEq] at h
      simp [← h.1, ← h.2, afterStart?_eq_some.1 hr]
    · simp only [Option.map_eq_some_iff] at h
      obtain ⟨⟨b, a⟩, hb, heq⟩ := h
      simp only [Prod.mk.injEq] at heq
      rw [← heq.1, ← heq.2, ih hb]
      simp

/-- The text with every occurrence of `mark`, found from the left, replaced by `new`. A mark of no
characters is never found. -/
def replaceAll (mark new : List Char) : List Char → List Char
  | [] => []
  | c :: rest =>
    match _found : afterStart? mark (c :: rest) with
    | some after =>
      if mark.isEmpty then c :: replaceAll mark new rest
      else new ++ replaceAll mark new after
    | none => c :: replaceAll mark new rest
termination_by cs => cs.length
decreasing_by
  · simp
  · rename_i hm
    have l := congrArg List.length (afterStart?_eq_some.1 _found)
    cases mark with
    | nil => simp at hm
    | cons m ms =>
      simp only [List.length_append, List.length_cons] at l ⊢
      omega
  · simp

/-- The runs of characters between white space. -/
def words (cs : List Char) : List (List Char) :=
  (cs.splitOnP isBlank).filter fun w => !w.isEmpty

/-- A line without the carriage return that may end it. -/
def withoutReturn (line : List Char) : List Char := (beforeEnd? ['\r'] line).getD line

/-- The lines of a text. A line ends at a line feed, and the carriage return before that line feed
belongs to the end of the line; what follows the last line feed is a line unless it is empty. -/
def lines (cs : List Char) : List (List Char) :=
  let pieces := cs.splitOn '\n'
  let ended := pieces.dropLast.map withoutReturn
  match pieces.getLast? with
  | some [] | none => ended
  | some last => ended ++ [last]

/-- The number of bytes of the text in UTF-8. -/
def byteLength : List Char → Nat
  | [] => 0
  | c :: cs => c.utf8Size + byteLength cs

@[simp] theorem byteLength_append (as bs : List Char) :
    byteLength (as ++ bs) = byteLength as + byteLength bs := by
  induction as with
  | nil => simp [byteLength]
  | cons a as ih => simp [byteLength, ih, Nat.add_assoc]

end TimedMutation.Text
