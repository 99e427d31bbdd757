/-
  ShaderGraph.Reference — `Namespace.name.swizzle`, the way a mapping names a variable.

  A reference is written as words of ASCII letters, digits and underscores with dots
  between them; spaces, tabs and comments may stand around the words and the dots, other
  blanks only around the whole. `dotted?` splits it into its words. Whether the first
  word is a namespace depends on the side of the mapping the reference stands on
  (`Reference.parse?`).
-/

import ShaderGraph.Text.Comment

namespace ShaderGraph

/-- Where the value of a variable comes from. -/
inductive Namespace where
  /-- The outputs that the nodes of one stage share. -/
  | global
  /-- Vertex attributes. -/
  | vertexAttribute
  /-- Uniforms set from material parameters. -/
  | materialParameter
  /-- Uniforms that the engine sets. -/
  | worldParameter
  /-- Inputs and outputs of the node of this name. -/
  | node (name : String)
  deriving DecidableEq, Repr

namespace Namespace

/-- The namespace a word stands for: every word that is not reserved names a node. -/
def ofWord (word : String) : Namespace :=
  if word = "Global" then global
  else if word = "Attr" then vertexAttribute
  else if word = "MatParam" then materialParameter
  else if word = "WorldParam" then worldParameter
  else node word

def word : Namespace → String
  | global => "Global"
  | vertexAttribute => "Attr"
  | materialParameter => "MatParam"
  | worldParameter => "WorldParam"
  | node name => name

/-- A namespace is read back from its word unless it is a node with a reserved name. -/
theorem ofWord_word {n : Namespace}
    (h : ∀ name, n = node name → ofWord name = node name) : ofWord n.word = n := by
  cases n with
  | node name => exact h name rfl
  | _ => rfl

end Namespace

structure Reference where
  /-- `none` on the side of a mapping that is written without a namespace. -/
  origin : Option Namespace
  name : String
  /-- The components selected; empty for all of them. -/
  swizzle : String
  deriving DecidableEq, Repr

namespace Reference

open Text (isWordChar skipGap)

/-- What follows a word and the character after it is shorter than the text. -/
theorem length_afterWord_lt {cs rest : List Char} {c : Char}
    (h : skipGap ((skipGap cs).dropWhile isWordChar) = c :: rest) : rest.length < cs.length := by
  have h1 : (c :: rest).length ≤ ((skipGap cs).dropWhile isWordChar).length :=
    h ▸ Text.length_gap_le _
  have h2 : ((skipGap cs).dropWhile isWordChar).length ≤ (skipGap cs).length :=
    (List.dropWhile_sublist _).length_le
  have h3 : (skipGap cs).length ≤ cs.length := Text.length_gap_le cs
  simp only [List.length_cons] at h1
  omega

/-- The words of a text that is nothing but words with single dots between them. -/
def words? (cs : List Char) : Option (List (List Char)) :=
  let word := (skipGap cs).takeWhile isWordChar
  if word.isEmpty then none
  else match _h : skipGap ((skipGap cs).dropWhile isWordChar) with
    | [] => some [word]
    | c :: rest => if c == '.' then (words? rest).map (word :: ·) else none
termination_by cs.length
decreasing_by exact length_afterWord_lt _h

def dotted? (text : String) : Option (List String) :=
  (words? (Text.trim text.toList)).map (·.map String.ofList)

/-- A reference with a namespace in front (`namespaced`) or without. -/
def parse? (text : String) (namespaced : Bool) : Option Reference :=
  match namespaced, dotted? text with
  | true, some [origin, name] => some ⟨some (.ofWord origin), name, ""⟩
  | true, some [origin, name, swizzle] => some ⟨some (.ofWord origin), name, swizzle⟩
  | false, some [name] => some ⟨none, name, ""⟩
  | false, some [name, swizzle] => some ⟨none, name, swizzle⟩
  | _, _ => none

end Reference

end ShaderGraph
