/-
  ShaderGraph.Glsl — the shading language as far as a mapping needs it: the stages of the
  graphics pipeline that a shader runs in, how many components a type has, and which sampler
  kinds a texture can be.

  Only scalars and vectors have components (`componentCount?`) and can be swizzled. A
  swizzle of n characters selects n components, whatever they are; the characters are
  counted in bytes. A texture whose kind is open is typed by a union of kinds
  (`sampler2D|sampler2DShadow`).
-/

import ShaderGraph.Text.Blank

namespace ShaderGraph

/-! ## Stages -/

inductive Stage where
  | vertex
  | fragment
  | geometry
  | tessellationControl
  | tessellationEvaluation
  deriving DecidableEq, Repr

namespace Stage

/-- The stages in the order the pipeline lists them. -/
def all : List Stage := [vertex, fragment, geometry, tessellationControl, tessellationEvaluation]

def name : Stage → String
  | vertex => "Vertex"
  | fragment => "Fragment"
  | geometry => "Geometry"
  | tessellationControl => "TessellationControl"
  | tessellationEvaluation => "TessellationEvaluation"

def ofName? (text : String) : Option Stage := all.find? (·.name == text)

/-- Every stage is found by its name, so no two share one. -/
theorem ofName?_name (s : Stage) : ofName? s.name = some s := by
  cases s <;> decide

end Stage

/-! ## Types -/

namespace Glsl

/-- The components of a scalar or vector type; `none` for every other type. -/
def componentCount? (type : String) : Option Nat :=
  if type ∈ ["float", "int", "uint", "bool"] then some 1
  else if type ∈ ["vec2", "ivec2", "uvec2", "bvec2"] then some 2
  else if type ∈ ["vec3", "ivec3", "uvec3", "bvec3"] then some 3
  else if type ∈ ["vec4", "ivec4", "uvec4", "bvec4"] then some 4
  else none

/-- The components left after a swizzle; `none` for a type that cannot be swizzled. -/
def cardinality? (type swizzle : String) : Option Nat :=
  (componentCount? type).map fun count =>
    if swizzle.isEmpty then count else swizzle.utf8ByteSize

def floatType (count : Nat) : String := if count = 1 then "float" else s!"vec{count}"

/-- Every global has this type. -/
def globalType : String := "vec4"

/-- The kinds of a union, or the type itself. -/
def kinds (type : String) : List String := (Text.fields '|' type.toList).map String.ofList

def isUnion (type : String) : Bool := type.toList.contains '|'

def kind? (type union : String) : Option String := (kinds union).find? (· == type)

def isSampler (type : String) : Bool := "sampler".toList.isPrefixOf type.toList

end Glsl

end ShaderGraph
