/-
  ShaderGraph.Technique.Basic — one way to render a material.

  A technique either names its shader sources or holds a graph of nodes, with the arena
  of their variables, the declarations the graph needs, and the interface of the shaders
  made from it. A define is bound to a material parameter once: the first binding stays
  (`DefineTable.bind`).

  An input mapping of a node writes an input of the node's definition from a variable or
  from code; an output mapping writes a global from an output of the definition. Sides are
  handles into the arena of the technique.
-/

import ShaderGraph.Declaration
import ShaderGraph.Definition
import ShaderGraph.Parameter
import ShaderGraph.WorldBinding

namespace ShaderGraph

/-! ## Nodes -/

/-- What a mapping writes to its left side. -/
inductive Source where
  | var (id : VarId)
  /-- An expression of the shading language, as written. -/
  | code (text : String)
  deriving DecidableEq, Repr

structure Mapping where
  left : VarId
  source : Source
  leftSwizzle : String
  rightSwizzle : String
  /-- The guards under which the assignment is made. -/
  condition : Option String
  deriving DecidableEq, Repr

def Mapping.reads (m : Mapping) (id : VarId) : Bool := m.source == .var id

/-- An instance of a definition. -/
structure Node where
  name : String
  definition : Definition
  /-- The guards under which the node is there. -/
  condition : Option String
  inputs : List Mapping
  outputs : List Mapping
  deriving DecidableEq, Repr

def Node.stage (n : Node) : Stage := n.definition.stage

/-! ## Names -/

/-- A set of names, listed in the order of their characters. -/
structure NameSet where
  names : List String
  deriving DecidableEq, Repr

/-- The list with a name put in its place, unless it is there. -/
def insertName (name : String) : List String → List String
  | [] => [name]
  | n :: ns =>
    if name = n then n :: ns
    else if name < n then name :: n :: ns
    else n :: insertName name ns

theorem mem_insertName {name x : String} {ns : List String} :
    x ∈ insertName name ns ↔ x = name ∨ x ∈ ns := by
  induction ns with
  | nil => simp [insertName]
  | cons n ns ih =>
    simp only [insertName]
    split
    · next h => simp [h]
    · split
      · simp
      · simp only [List.mem_cons, ih]
        constructor
        · rintro (h | h | h) <;> simp [h]
        · rintro (h | h | h) <;> simp [h]

namespace NameSet

instance : Membership String NameSet := ⟨fun s name => name ∈ s.names⟩

def empty : NameSet := ⟨[]⟩

def insert (s : NameSet) (name : String) : NameSet := ⟨insertName name s.names⟩

def erase (s : NameSet) (name : String) : NameSet := ⟨s.names.filter (· != name)⟩

@[simp] theorem not_mem_empty (x : String) : x ∉ empty := List.not_mem_nil

@[simp] theorem mem_insert {s : NameSet} {name x : String} :
    x ∈ s.insert name ↔ x = name ∨ x ∈ s := mem_insertName

@[simp] theorem mem_erase {s : NameSet} {name x : String} :
    x ∈ s.erase name ↔ x ∈ s ∧ x ≠ name := by
  show x ∈ List.filter _ _ ↔ x ∈ s.names ∧ _
  simp

end NameSet

/-! ## Techniques -/

/-- What the generated shaders have to declare, each thing once. -/
structure Interface where
  attributes : List VarId := []
  vertexUniforms : List VarId := []
  fragmentUniforms : List VarId := []
  /-- Outputs of the vertex stage that the fragment stage reads. -/
  varyings : List VarId := []
  /-- The one output of the vertex stage. -/
  vertexGlobal : Option VarId := none
  fragmentGlobals : List VarId := []
  /-- The nodes whose outputs nothing reads. -/
  unusedNodes : NameSet := .empty
  deriving DecidableEq, Repr

/-- A define that is set when a material parameter is. -/
structure DefineBinding where
  param : String
  define : String
  type : ParamType
  deriving DecidableEq, Repr

/-- The defines bound to parameters, in the order of the parameters' names. -/
structure DefineTable where
  bindings : List DefineBinding
  deriving DecidableEq, Repr

namespace DefineTable

def empty : DefineTable := ⟨[]⟩

def find? (t : DefineTable) (param : String) : Option DefineBinding :=
  t.bindings.find? (·.param == param)

def place (b : DefineBinding) : List DefineBinding → List DefineBinding
  | [] => [b]
  | x :: xs => if b.param < x.param then b :: x :: xs else x :: place b xs

def bind (t : DefineTable) (b : DefineBinding) : DefineTable :=
  match t.find? b.param with
  | some _ => t
  | none => ⟨place b t.bindings⟩

theorem mem_place {b x : DefineBinding} {xs : List DefineBinding} :
    x ∈ place b xs ↔ x = b ∨ x ∈ xs := by
  induction xs with
  | nil => simp [place]
  | cons y ys ih =>
    simp only [place]
    split
    · simp
    · simp only [List.mem_cons, ih]
      constructor
      · rintro (h | h | h) <;> simp [h]
      · rintro (h | h | h) <;> simp [h]

/-- A binding that is there stays. -/
theorem mem_bind_of_mem {t : DefineTable} {b x : DefineBinding} (h : x ∈ t.bindings) :
    x ∈ (t.bind b).bindings := by
  unfold bind
  split
  · exact h
  · exact mem_place.2 (Or.inr h)

end DefineTable

structure Technique where
  /-- `none` for the default technique. -/
  name : Option String
  nodes : List Node
  interface : Interface
  arena : Arena
  registry : Registry
  defines : DefineTable
  /-- Defines that are always set. -/
  presets : List String
  worldBindings : List WorldBinding
  sources : List (Stage × ShaderSource)

namespace Technique

def empty (name : Option String) : Technique :=
  { name, nodes := [], interface := {}, arena := .empty, registry := .empty, defines := .empty
    presets := [], worldBindings := [], sources := [] }

def usesNodes (t : Technique) : Bool := !t.nodes.isEmpty

/-- The source given for a stage: the first one counts. -/
def source? (t : Technique) (stage : Stage) : Option ShaderSource :=
  (t.sources.find? (·.1 == stage)).map (·.2)

def prologue (t : Technique) : String :=
  String.join (t.presets.map fun define => s!"#define {define} 1\n")

def node? (t : Technique) (name : String) : Option Node := t.nodes.find? (·.name == name)

def bindDefine (t : Technique) (param define : String) (type : ParamType) : Technique :=
  { t with defines := t.defines.bind ⟨param, define, type⟩ }

end Technique

end ShaderGraph
