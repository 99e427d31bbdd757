/-
  ShaderGraph.Typing — when the right side of a mapping fits the left side.

  Types fit when they are equal with swizzles of one length, when both have components
  and as many of them, or when one is a union that lists the other. Array lengths fit
  when both are absent or they are equal up to the case of ASCII letters. Types are
  tested first.
-/

import ShaderGraph.Fault
import ShaderGraph.Variable

namespace ShaderGraph.Typing

def typesFit (left : Variable) (leftSwizzle : String) (right : Variable) (rightSwizzle : String) :
    Bool :=
  left.type == right.type && leftSwizzle.utf8ByteSize == rightSwizzle.utf8ByteSize ||
    match Glsl.cardinality? left.type leftSwizzle, Glsl.cardinality? right.type rightSwizzle with
    | some l, some r => l == r
    | _, _ => (Glsl.kind? left.type right.type).isSome || (Glsl.kind? right.type left.type).isSome

/-- Equal up to the case of ASCII letters. -/
def sameFolded (a b : String) : Bool := a.toList.map Char.toLower == b.toList.map Char.toLower

def lengthsFit (left right : Variable) : Bool :=
  match left.multiplicity, right.multiplicity with
  | none, none => true
  | some l, some r => sameFolded l r
  | _, _ => false

/-- The right side, swizzled, may be assigned to the left side, swizzled. -/
def check (left : Variable) (leftSwizzle : String) (right : Variable) (rightSwizzle : String) :
    Except Cause Unit :=
  if !typesFit left leftSwizzle right rightSwizzle then
    .error (.typeMismatch (left.swizzled leftSwizzle) (right.swizzled rightSwizzle))
  else if !lengthsFit left right then
    .error (.multiplicityMismatch left.sized right.sized)
  else .ok ()

theorem check_eq_ok_iff (left : Variable) (ls : String) (right : Variable) (rs : String) :
    check left ls right rs = .ok () ↔
      typesFit left ls right rs = true ∧ lengthsFit left right = true := by
  unfold check
  cases typesFit left ls right rs <;> cases lengthsFit left right <;> simp

end ShaderGraph.Typing
