/-
  ShaderGraph.Condition.Basic — activation conditions and the guards they become.

  A condition is written over names of material parameters (`LightMap && !ColorMap`);
  what is kept of it is a preprocessor text over guards (`defined(LIGHTMAP) &&
  !defined(COLORMAP)`). `normalize` writes the guard of each word in its place and keeps
  the rest; `merge` joins two conditions of which either may be absent, that is, always
  true.
-/

import ShaderGraph.Condition.Word
import ShaderGraph.Text.Blank
import ShaderGraph.Text.Upper

namespace ShaderGraph.Condition

/-- The define that stands for a parameter: its name in upper case. -/
def defineOf (param : String) : String := .ofList (Text.upper param.toList)

def guard (define : String) : String := "defined(" ++ define ++ ")"

/-- Words an author may leave in a condition. They carry no meaning and are taken out in
this order. -/
def decorations : List String := ["#ifdef", "#if", "defined"]

def undecorated (text : String) : List Char :=
  Text.trim (decorations.foldl (fun cs decoration => Text.erase decoration.toList cs) text.toList)

structure Normalized where
  /-- The words of the condition in order, repetitions included. -/
  names : List String
  /-- The condition with the guard of each word in its place. -/
  text : String
  deriving DecidableEq, Repr

def Piece.guarded : Piece → List Char
  | .word text => (guard (defineOf (.ofList text))).toList
  | .filler text => text

def normalize (text : String) : Normalized :=
  let cs := undecorated text
  { names := (words (.ofList cs)).map (·.text)
    text := .ofList ((pieces cs).flatMap Piece.guarded) }

/-- Two conditions joined by an operator: an absent one gives way to the other, and one
text is not repeated. -/
def merge (left right : Option String) (operator : String) : Option String :=
  match left, right with
  | none, right => right
  | some left, none => some left
  | some left, some right =>
    if left = right then some left else some s!"({left}) {operator} ({right})"

@[simp] theorem merge_none_left (c : Option String) (op : String) : merge none c op = c := rfl

@[simp] theorem merge_none_right (c : Option String) (op : String) : merge c none op = c := by
  cases c <;> rfl

@[simp] theorem merge_self (c : Option String) (op : String) : merge c c op = c := by
  cases c <;> simp [merge]

end ShaderGraph.Condition
