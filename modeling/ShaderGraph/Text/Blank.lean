/-
  ShaderGraph.Text.Blank — white space, and the two readings of a text that ignore it:
  the text without the blanks at its ends (`trim`) and its words (`words`).

  `isBlank` is the `White_Space` property of Unicode, all 25 characters of it, which is
  more than core's `Char.isWhitespace` (`isBlank_of_isWhitespace`). A spacing character
  (`isSpacing`) is a space or a tab: the two that may stand inside a line wherever the
  block language, a reference or a condition skips them.
-/

namespace ShaderGraph.Text

/-- The code points with the `White_Space` property. -/
def blankPoints : List Nat :=
  [0x09, 0x0A, 0x0B, 0x0C, 0x0D, 0x20, 0x85, 0xA0, 0x1680,
   0x2000, 0x2001, 0x2002, 0x2003, 0x2004, 0x2005, 0x2006, 0x2007, 0x2008, 0x2009, 0x200A,
   0x2028, 0x2029, 0x202F, 0x205F, 0x3000]

def isBlank (c : Char) : Bool := blankPoints.contains c.toNat

def isSpacing (c : Char) : Bool := c == ' ' || c == '\t'

/-- A letter, a digit or an underscore, all of ASCII: what references and conditions name. -/
def isWordChar (c : Char) : Bool := c.isAlphanum || c == '_'

theorem isBlank_of_isWhitespace {c : Char} (h : c.isWhitespace = true) : isBlank c = true := by
  simp only [Char.isWhitespace, Bool.or_eq_true, decide_eq_true_eq] at h
  rcases h with ((h | h) | h) | h <;> subst h <;> decide

/-! ## Ends -/

def trimStart (cs : List Char) : List Char := cs.dropWhile isBlank

def trimEnd (cs : List Char) : List Char := (cs.reverse.dropWhile isBlank).reverse

/-- The text between the first and the last character that is not blank. -/
def trim (cs : List Char) : List Char := trimEnd (trimStart cs)

/-! ## Parts -/

/-- The parts of a text between the characters that `p` holds of: one more than there are
such characters. -/
def parts (p : Char → Bool) : List Char → List (List Char)
  | [] => [[]]
  | c :: cs => if p c then [] :: parts p cs else (parts p cs).modifyHead (c :: ·)

def fields (sep : Char) (cs : List Char) : List (List Char) := parts (· == sep) cs

def words (cs : List Char) : List (List Char) := (parts isBlank cs).filter (!·.isEmpty)

theorem parts_ne_nil (p : Char → Bool) (cs : List Char) : parts p cs ≠ [] := by
  cases cs with
  | nil => simp [parts]
  | cons c cs =>
    by_cases h : p c
    · simp [parts, h]
    · have := parts_ne_nil p cs
      cases hp : parts p cs <;> simp_all [parts]

end ShaderGraph.Text
