/-
  ShaderGraph.Condition.Word — the words of a condition, with the bytes they stand at.

  A condition is free text around words of ASCII letters, digits and underscores.
  `pieces` cuts any text into words and the rest, and nothing is lost
  (`flatMap_text_pieces`). Between two pieces spaces, tabs and comments are passed over;
  inside a run of operators nothing is, so a comment that starts there is read as
  operators and the words behind it count.
-/

import ShaderGraph.Text.Comment

namespace ShaderGraph.Condition

open Text (isWordChar isSpacing gap)

inductive Piece where
  | word (text : List Char)
  /-- Spaces, comments or operators. -/
  | filler (text : List Char)
  deriving DecidableEq, Repr

def Piece.text : Piece → List Char
  | word text => text
  | filler text => text

def isOperatorChar (c : Char) : Bool := !isWordChar c && !isSpacing c

/-- What follows the first character of a run is shorter than the text the run is in. -/
theorem length_dropWhile_lt {cs rest : List Char} {c : Char} (h : (gap cs).2 = c :: rest)
    (p : Char → Bool) : (rest.dropWhile p).length < cs.length := by
  have h1 : (c :: rest).length ≤ cs.length := h ▸ Text.length_gap_le cs
  have h2 : (rest.dropWhile p).length ≤ rest.length := (List.dropWhile_sublist p).length_le
  simp only [List.length_cons] at h1
  omega

def pieces (cs : List Char) : List Piece :=
  match _h : (gap cs).2 with
  | [] => [.filler (gap cs).1]
  | c :: rest =>
    if isWordChar c then
      .filler (gap cs).1 :: .word (c :: rest.takeWhile isWordChar) ::
        pieces (rest.dropWhile isWordChar)
    else
      .filler (gap cs).1 :: .filler (c :: rest.takeWhile isOperatorChar) ::
        pieces (rest.dropWhile isOperatorChar)
termination_by cs.length
decreasing_by
  · exact length_dropWhile_lt _h isWordChar
  · exact length_dropWhile_lt _h isOperatorChar

theorem flatMap_text_pieces (cs : List Char) : (pieces cs).flatMap Piece.text = cs := by
  fun_induction pieces cs with
  | case1 cs h =>
    have := Text.gap_append cs
    simp_all [Piece.text]
  | case2 cs c rest h hw ih =>
    have := Text.gap_append cs
    simp_all [Piece.text]
  | case3 cs c rest h hw ih =>
    have := Text.gap_append cs
    simp_all [Piece.text]

/-- A word of a condition and the bytes it takes, the last one not included. -/
structure Word where
  text : String
  start : Nat
  stop : Nat
  deriving DecidableEq, Repr

/-- The words among pieces whose first byte is at `offset`. -/
def wordsFrom (offset : Nat) : List Piece → List Word
  | [] => []
  | .filler text :: rest => wordsFrom (offset + (String.ofList text).utf8ByteSize) rest
  | .word text :: rest =>
    let stop := offset + (String.ofList text).utf8ByteSize
    ⟨.ofList text, offset, stop⟩ :: wordsFrom stop rest

def words (text : String) : List Word := wordsFrom 0 (pieces text.toList)

end ShaderGraph.Condition
