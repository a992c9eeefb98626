/-! White space as Unicode defines it, and trimming by it. -/

namespace TimedMutation.Text

/-- The characters with the Unicode property White_Space. -/
def isBlank (c : Char) : Bool :=
  let n := c.toNat
  (0x09 ≤ n && n ≤ 0x0D) || n == 0x20 || n == 0x85 || n == 0xA0 || n == 0x1680 ||
    (0x2000 ≤ n && n ≤ 0x200A) || n == 0x2028 || n == 0x2029 || n == 0x202F || n == 0x205F ||
    n == 0x3000

theorem isBlank_of_isWhitespace {c : Char} (h : c.isWhitespace = true) : isBlank c = true := by
  simp only [Char.isWhitespace, Bool.or_eq_true, decide_eq_true_eq] at h
  rcases h with ((h | h) | h) | h <;> subst h <;> decide

def trimStart (cs : List Char) : List Char := cs.dropWhile isBlank

def trimEnd (cs : List Char) : List Char := (cs.reverse.dropWhile isBlank).reverse

def trim (cs : List Char) : List Char := trimEnd (trimStart cs)

@[simp] theorem trim_nil : trim [] = [] := rfl

/-- Whether nothing but white space stands in the text. -/
def allBlank (cs : List Char) : Bool := cs.all isBlank

theorem trimStart_eq_nil {cs : List Char} : trimStart cs = [] ↔ allBlank cs = true := by
  induction cs with
  | nil => simp [trimStart, allBlank]
  | cons c cs ih =>
    cases h : isBlank c with
    | false => simp [trimStart, allBlank, h]
    | true =>
      simp only [trimStart, allBlank] at ih
      simp [trimStart, allBlank, h, ih]

/-- The text without any of its white space. -/
def squeeze (cs : List Char) : List Char := cs.filter fun c => !isBlank c

end TimedMutation.Text
