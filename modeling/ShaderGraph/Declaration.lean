/-
  ShaderGraph.Declaration — what a technique declares, each thing once.

  An attribute, a uniform or a varying is declared by the first mapping that reads it.
  Every later reading of the same key gets the same variable and only adds the node to
  the consumers; the variable it offers is dropped (`Registry.offer`). A registry lists
  its declarations in the order of their first readings.
-/

import ShaderGraph.Variable

namespace ShaderGraph

/-- What makes two readings one declaration. -/
inductive DeclKey where
  | vertexAttribute (name : String)
  /-- A uniform, by the name it is declared with. Both stages share it. -/
  | uniform (name : String)
  /-- An output of a node of the vertex stage that the fragment stage reads. -/
  | varying (producer output : String)
  deriving DecidableEq, Repr

namespace DeclKey

def isAttribute : DeclKey → Bool
  | vertexAttribute _ => true
  | _ => false

def isUniform : DeclKey → Bool
  | uniform _ => true
  | _ => false

def isVarying : DeclKey → Bool
  | varying .. => true
  | _ => false

/-- A key is of one sort. -/
theorem sorts (key : DeclKey) :
    key.isUniform = true ∧ key.isVarying = false ∧ key.isAttribute = false ∨
      key.isUniform = false ∧ key.isVarying = true ∧ key.isAttribute = false ∨
      key.isUniform = false ∧ key.isVarying = false ∧ key.isAttribute = true := by
  cases key <;> simp [isUniform, isVarying, isAttribute]

theorem isAttribute_of_isUniform {key : DeclKey} (h : key.isUniform = true) :
    key.isAttribute = false := by
  cases key <;> first | rfl | cases h

theorem isAttribute_of_isVarying {key : DeclKey} (h : key.isVarying = true) :
    key.isAttribute = false := by
  cases key <;> first | rfl | cases h

end DeclKey

structure Declaration where
  key : DeclKey
  id : VarId
  /-- The nodes that read it, in the order of their first readings. -/
  consumers : List String
  deriving DecidableEq, Repr

def addOnce {α : Type} [BEq α] (xs : List α) (x : α) : List α :=
  if xs.contains x then xs else xs ++ [x]

theorem prefix_addOnce {α : Type} [BEq α] (xs : List α) (x : α) : xs <+: addOnce xs x := by
  unfold addOnce
  split
  · exact List.prefix_refl xs
  · exact List.prefix_append xs [x]

theorem mem_addOnce {α : Type} [BEq α] [LawfulBEq α] {xs : List α} {x y : α} :
    y ∈ addOnce xs x ↔ y ∈ xs ∨ y = x := by
  unfold addOnce
  split
  · next h =>
    rw [List.contains_iff_mem] at h
    constructor
    · exact Or.inl
    · rintro (hy | rfl)
      · exact hy
      · exact h
  · simp

def Declaration.addConsumer (d : Declaration) (consumer : String) : Declaration :=
  { d with consumers := addOnce d.consumers consumer }

structure Registry where
  entries : List Declaration
  deriving DecidableEq, Repr

/-- What an offer leads to: the variable of the declaration, and whether it is a new one. -/
structure Offered where
  id : VarId
  isNew : Bool
  registry : Registry
  arena : Arena

namespace Registry

def empty : Registry := ⟨[]⟩

def size (r : Registry) : Nat := r.entries.length

def find? (r : Registry) (key : DeclKey) : Option Declaration := r.entries.find? (·.key == key)

/-- Declare `v` under a key, or read what is declared there already. -/
def offer (r : Registry) (arena : Arena) (key : DeclKey) (v : Variable) (consumer : String) :
    Offered :=
  match r.find? key with
  | some d => {
      id := d.id, isNew := false, arena
      registry := ⟨r.entries.map fun e => if e.key = key then e.addConsumer consumer else e⟩ }
  | none => {
      id := arena.nextId, isNew := true, arena := arena.add v
      registry := ⟨r.entries ++ [⟨key, arena.nextId, [consumer]⟩]⟩ }

end Registry

end ShaderGraph
