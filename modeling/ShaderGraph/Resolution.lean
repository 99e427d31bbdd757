/-
  ShaderGraph.Resolution — what the right side of an input mapping stands for.

  A reference is looked up by its namespace: among the globals of the stage, the
  attributes, the parameters of the material, the world parameters of the technique, or
  the outputs of the nodes so far. What is found is declared in the technique; an output
  read within its own stage needs no declaration and becomes a variable of its own. Data
  flows from the vertex stage to the fragment stage and not otherwise.

  The left side takes part: it gives an attribute its type and a texture its kind, and
  an array whose length is a parameter makes the left side needed wherever that length
  is defined.
-/

import ShaderGraph.Attempt
import ShaderGraph.Condition.Basic
import ShaderGraph.Technique.Basic

namespace ShaderGraph

namespace Text

def digitsValue (cs : List Char) : Nat := cs.foldl (fun n c => 10 * n + (c.toNat - '0'.toNat)) 0

/-- 2^64: the first number that is too large for a length. -/
def numeralLimit : Nat := 18446744073709551616

/-- The whole number that an array length writes: ASCII digits with an optional `+` in front,
below the limit. -/
def numeral? (cs : List Char) : Option Nat :=
  let digits := match cs with
    | '+' :: rest => rest
    | _ => cs
  if !digits.isEmpty && digits.all Char.isDigit && digitsValue digits < numeralLimit then
    some (digitsValue digits)
  else none

def isNumeral (cs : List Char) : Bool := (numeral? cs).isSome

end Text

/-- The node whose mapping is resolved. -/
structure Consumer where
  name : String
  stage : Stage
  deriving DecidableEq, Repr

abbrev Declaring := Attempt Technique Cause

/-- A technique with the left side of the mapping that is resolved. -/
structure Wiring where
  technique : Technique
  left : Variable

abbrev Resolving := Attempt Wiring Cause

def Wiring.setTechnique (w : Wiring) (technique : Technique) : Wiring := { w with technique }

def Declaring.resolving {α : Type} (step : Declaring α) : Resolving α :=
  step.onPart Wiring.technique Wiring.setTechnique

namespace Resolution

/-! ## Globals -/

def store (v : Variable) : Declaring VarId := do
  let t ← Attempt.get
  Attempt.modify fun t => { t with arena := t.arena.add v }
  return t.arena.nextId

/-- The output of a stage with this variable's name. The vertex stage has one output only;
the fragment stage has one for each name. -/
def storeGlobal (v : Variable) (stage : Stage) : Declaring VarId := do
  let v := { v with isOutput := true }
  let t ← Attempt.get
  match stage with
  | .vertex => match t.interface.vertexGlobal with
    | some id =>
      if (t.arena.read id).name = v.name then return id
      else throw (.vertexGlobal (t.arena.read id).name v.name)
    | none =>
      let id ← store v
      Attempt.modify fun t => { t with interface := { t.interface with vertexGlobal := some id } }
      return id
  | .fragment =>
    match t.interface.fragmentGlobals.find? (fun id => (t.arena.read id).name == v.name) with
    | some id => return id
    | none =>
      let id ← store v
      Attempt.modify fun t => { t with interface :=
        { t.interface with fragmentGlobals := t.interface.fragmentGlobals ++ [id] } }
      return id
  | _ => store v

def globalVariable (name : String) : Variable :=
  { Variable.plain Glsl.globalType name with origin := some .global }

/-! ## Conditions -/

/-- Bind the define of a parameter's own name to it. -/
def bindOwnDefine (param : String) (type : ParamType) : Declaring Unit :=
  Attempt.modify (·.bindDefine param (Condition.defineOf param) type)

/-- Bind the defines of the parameters named, up to the first name that is none. -/
def bindOwnDefines (catalog : Catalog) (invalid : Cause) : List String → Declaring Unit
  | [] => pure ()
  | name :: names => match catalog.param? name with
    | none => throw invalid
    | some param => do
      bindOwnDefine param.name param.type
      bindOwnDefines catalog invalid names

/-- A condition over parameters of the material, with guards in place of their names. -/
def guardCondition (catalog : Catalog) (text : String) : Declaring String := do
  let normalized := Condition.normalize text
  bindOwnDefines catalog (.invalidCondition (.ofList (Text.trim text.toList))) normalized.names
  return normalized.text

/-! ## Declarations -/

def declare (key : DeclKey) (v : Variable) (consumer : Consumer) : Declaring (VarId × Bool) := do
  let t ← Attempt.get
  let offered := t.registry.offer t.arena key v consumer.name
  Attempt.modify fun t => { t with registry := offered.registry, arena := offered.arena }
  return (offered.id, offered.isNew)

/-- The interface with a uniform listed for the shader of a stage. Every stage but the vertex
stage shares one list. -/
def Interface.listUniform (i : Interface) (stage : Stage) (id : VarId) : Interface :=
  match stage with
  | .vertex => { i with vertexUniforms := addOnce i.vertexUniforms id }
  | _ => { i with fragmentUniforms := addOnce i.fragmentUniforms id }

def declareUniform (v : Variable) (consumer : Consumer) : Declaring VarId := do
  let (id, _) ← declare (.uniform v.name) v consumer
  Attempt.modify fun t => { t with interface := Interface.listUniform t.interface consumer.stage id }
  return id

/-- An attribute. Its type is the one that fits the left side when it is first read. -/
def resolveAttribute (reference : Reference) (left : Variable) (consumer : Consumer) :
    Declaring VarId := do
  if consumer.stage = .fragment then throw (.fragmentAttribute reference.name)
  let type := match Glsl.cardinality? left.type reference.swizzle with
    | some count => Glsl.floatType count
    | none => left.type
  let v := { Variable.plain type reference.name with
    origin := some .vertexAttribute, multiplicity := left.multiplicity }
  let (id, isNew) ← declare (.vertexAttribute reference.name) v consumer
  if isNew then
    Attempt.modify fun t => { t with interface :=
      { t.interface with attributes := t.interface.attributes ++ [id] } }
  return id

/-! ## Parameters -/

/-- The length of an array parameter, and the define it is if a parameter gives it. -/
structure ArrayLength where
  text : String
  define : Option String

/-- The length that the left side asks of a parameter, if any. -/
def resolveLength (catalog : Catalog) (param : Parameter) : Resolving (Option ArrayLength) := do
  let w ← Attempt.get
  let some length := w.left.multiplicity | return none
  if !param.type.isArray then throw (.notAnArray param.name)
  if Text.isNumeral length.toList then return some ⟨length, none⟩
  let some size := catalog.param? length | throw (.invalidMultiplicity w.left.name length)
  (bindOwnDefine size.name (.single .int)).resolving
  let define := Condition.defineOf length
  Attempt.modify fun w => { w with left := { w.left with
    condition := Condition.merge w.left.condition (some (Condition.guard define)) "||" } }
  return some ⟨define, some define⟩

def uniformType (param : Parameter) (leftType : String) : Except Cause String :=
  let type := param.type.glslType
  if Glsl.isUnion type then
    match Glsl.kind? leftType type with
    | some kind => .ok kind
    | none => .error (.samplerUnion param.name (", ".intercalate (Glsl.kinds type)) leftType)
  else .ok type

def resolveMaterialParameter (catalog : Catalog) (reference : Reference) (consumer : Consumer) :
    Resolving VarId := do
  let some param := catalog.param? reference.name
    | throw (.unknownMaterialParameter reference.name)
  let length ← resolveLength catalog param
  let w ← Attempt.get
  let type ← Attempt.ofExcept (uniformType param w.left.type)
  (declareUniform { Variable.plain type param.uniformName with
    origin := some .materialParameter
    multiplicity := length.map (·.text)
    sizeDefine := length.bind (·.define) } consumer).resolving

def resolveWorldParameter (reference : Reference) (consumer : Consumer) : Declaring VarId := do
  let t ← Attempt.get
  let some binding := t.worldBindings.find? (·.name == reference.name)
    | throw (.unknownWorldParameter reference.name)
  declareUniform { Variable.plain binding.glslType binding.uniformName with
    origin := some .worldParameter } consumer

/-! ## Outputs of nodes -/

/-- The arena with the inputs of a node that have this name made outputs of the stage. -/
def raiseInputs (node : Node) (name : String) (arena : Arena) : Arena :=
  node.inputs.foldl (fun arena m => arena.update m.left fun v =>
    if v.name == name then { v with isOutput := true } else v) arena

/-- An output of a vertex node, declared as a varying. An input of that node with the name of
the output is the same varying. -/
def promoteVarying (producer : Node) (v : Variable) (consumer : Consumer) : Declaring VarId := do
  let (id, isNew) ← declare (.varying producer.name v.name) { v with isOutput := true } consumer
  if isNew then
    Attempt.modify fun t => { t with interface :=
      { t.interface with varyings := t.interface.varyings ++ [id] } }
  Attempt.modify fun t => { t with
    arena := raiseInputs producer (t.arena.read id).name t.arena }
  return id

/-- An output of a node that is declared before its reader. -/
def resolveOutput (producer : String) (reference : Reference) (consumer : Consumer) :
    Declaring VarId := do
  let t ← Attempt.get
  let some node := t.node? producer | throw (.undeclaredNode producer)
  let some output := node.definition.output? reference.name
    | throw (.notAnOutput reference.name node.definition.name)
  let v := { Variable.plain output.type output.name with
    origin := some (.node node.name), multiplicity := output.multiplicity }
  if node.stage = consumer.stage then store v
  else if node.stage = .vertex ∧ consumer.stage = .fragment then promoteVarying node v consumer
  else throw (.backwardFlow node.name node.stage consumer.name consumer.stage)

/-! ## All of them -/

def resolve (catalog : Catalog) (reference : Reference) (consumer : Consumer) :
    Resolving VarId := do
  match reference.origin with
  | none => throw (.malformedMapping reference.name)
  | some .global => (storeGlobal (globalVariable reference.name) consumer.stage).resolving
  | some .vertexAttribute =>
    let w ← Attempt.get
    (resolveAttribute reference w.left consumer).resolving
  | some .materialParameter => resolveMaterialParameter catalog reference consumer
  | some .worldParameter => (resolveWorldParameter reference consumer).resolving
  | some (.node producer) => (resolveOutput producer reference consumer).resolving

end Resolution

end ShaderGraph
