/-
  ShaderGraph.Variable — the variables that flow through a graph, and the arena that
  holds them.

  A technique never copies a variable: mappings, declarations and lists of what to
  declare hold handles into one arena, so two mappings with the same handle share the
  declaration. An arena only grows (`get?_add_of_lt`), so a handle stays good.
-/

import ShaderGraph.Glsl
import ShaderGraph.Reference

namespace ShaderGraph

structure Variable where
  /-- A type of the shading language, or a union of sampler kinds. -/
  type : String
  name : String
  /-- `none` in the signature of a definition. -/
  origin : Option Namespace
  /-- The length of an array: a number or a define. -/
  multiplicity : Option String
  defaultValue : Option String
  /-- A global, or an output that another stage reads. -/
  isOutput : Bool
  condition : Option String
  /-- The define that the length of the array is, where a material parameter gives it. -/
  sizeDefine : Option String
  deriving DecidableEq, Repr

namespace Variable

/-- A variable of which nothing but its type and name is known. -/
def plain (type name : String) : Variable := ⟨type, name, none, none, none, false, none, none⟩

def isSampler (v : Variable) : Bool := Glsl.isSampler v.type

def sameAs (v w : Variable) : Bool := v.origin == w.origin && v.name == w.name

def swizzled (v : Variable) (swizzle : String) : String :=
  if swizzle.isEmpty then v.type else v.type ++ "." ++ swizzle

def sized (v : Variable) : String := v.type ++ "[" ++ v.multiplicity.getD "" ++ "]"

end Variable

/-! ## The arena -/

/-- A handle to a variable of an arena. -/
structure VarId where
  index : Nat
  deriving DecidableEq, Repr

structure Arena where
  slots : List Variable
  deriving DecidableEq, Repr

namespace Arena

def empty : Arena := ⟨[]⟩

def size (a : Arena) : Nat := a.slots.length

def get? (a : Arena) (id : VarId) : Option Variable := a.slots[id.index]?

/-- The variable of a handle. A handle of no variable reads as one without type and name. -/
def read (a : Arena) (id : VarId) : Variable := (a.get? id).getD (.plain "" "")

def nextId (a : Arena) : VarId := ⟨a.size⟩

def add (a : Arena) (v : Variable) : Arena := ⟨a.slots ++ [v]⟩

def update (a : Arena) (id : VarId) (f : Variable → Variable) : Arena :=
  ⟨a.slots.modify id.index f⟩

@[simp] theorem size_add (a : Arena) (v : Variable) : (a.add v).size = a.size + 1 := by
  simp [size, add]

@[simp] theorem size_update (a : Arena) (id : VarId) (f : Variable → Variable) :
    (a.update id f).size = a.size := by simp [size, update]

@[simp] theorem get?_add_nextId (a : Arena) (v : Variable) :
    (a.add v).get? a.nextId = some v := by simp [get?, add, nextId, size]

theorem get?_add_of_lt {a : Arena} {id : VarId} (h : id.index < a.size) (v : Variable) :
    (a.add v).get? id = a.get? id := by
  simp only [size] at h
  simp [get?, add, List.getElem?_append_left h]

theorem get?_update (a : Arena) (id other : VarId) (f : Variable → Variable) :
    (a.update id f).get? other = if id = other then (a.get? other).map f else a.get? other := by
  cases id; cases other
  simp only [get?, update, List.getElem?_modify, VarId.mk.injEq]
  split <;> simp

end Arena

end ShaderGraph
