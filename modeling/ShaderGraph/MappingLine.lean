/-
  ShaderGraph.MappingLine — the parts of a mapping line.

  `left = right : condition`, where `right` is a reference, or code between two `%%`. The
  condition is optional, and an empty one is none. A line without `%%` ends its right
  side at the first `:`, and has one `=` before it. A line with `%%` has one `=` before
  the first of them, with nothing but blanks between; the code runs to the second, and
  `=` and `:` mean nothing in it.
-/

import ShaderGraph.Text.Blank
import ShaderGraph.Text.Search

namespace ShaderGraph

inductive RightSide where
  | reference (text : String)
  | code (text : String)
  deriving DecidableEq, Repr

structure MappingLine where
  left : String
  right : RightSide
  condition : Option String
  deriving DecidableEq, Repr

namespace MappingLine

/-- The mark on both ends of code. -/
def codeMark : List Char := ['%', '%']

/-- What follows the right side: nothing, or a condition after `:`. -/
def tail? (cs : List Char) : Option (Option String) :=
  match Text.trim cs with
  | [] => some none
  | ':' :: rest =>
    let condition := Text.trim rest
    some (if condition.isEmpty then none else some (.ofList condition))
  | _ => none

/-- The left side in front of code: it ends with the only `=`. -/
def assigned? (head : List Char) : Option (List Char) :=
  match (Text.trimEnd head).reverse with
  | '=' :: left => if left.contains '=' then none else some left.reverse
  | _ => none

/-- The parts of a line that holds a code mark after `head`. -/
def withCode? (head rest : List Char) : Option MappingLine := do
  let (code, tail) ← Text.breakAt? codeMark rest
  let left ← assigned? head
  let condition ← tail? tail
  return ⟨.ofList (Text.trim left), .code (.ofList (Text.trim code)), condition⟩

def beforeCondition (cs : List Char) : List Char × List Char :=
  match Text.cut? ':' cs with
  | some (assignment, rest) => (assignment, ':' :: rest)
  | none => (cs, [])

def withReference? (cs : List Char) : Option MappingLine :=
  let (assignment, tail) := beforeCondition cs
  match Text.fields '=' assignment with
  | [left, right] => do
    let condition ← tail? tail
    return ⟨.ofList (Text.trim left), .reference (.ofList (Text.trim right)), condition⟩
  | _ => none

/-- The parts of a line; `none` if it is no mapping line. -/
def split? (line : String) : Option MappingLine :=
  match Text.breakAt? codeMark line.toList with
  | some (head, rest) => withCode? head rest
  | none => withReference? line.toList

end MappingLine

end ShaderGraph
