/-
  ShaderGraph.Graph — reading the nodes of a technique.

  The graph grows node by node: a node names its definition first, then its condition and
  its mappings in any order. Definitions come from a library that starts with those
  written in the technique and grows by files; of two with one name the first counts, and
  a file is only read when a name is not known yet.

  A line that turns out to be wrong stops the reading. What was declared up to there
  stays in the technique; the node that holds the line does not enter it.
-/

import ShaderGraph.Asset
import ShaderGraph.MappingLine
import ShaderGraph.Resolution
import ShaderGraph.Typing

namespace ShaderGraph

open Block (Statement)

/-- What is read but looks like a mistake. -/
inductive Warning where
  /-- A node of a definition that neither has outputs nor says that it has none. -/
  | noOutput (node definition : String)
  /-- A technique that gives nothing to render with. -/
  | emptyTechnique (line material : String)
  deriving DecidableEq, Repr

def Warning.message : Warning → String
  | noOutput node definition =>
    s!"Shader node `{node}`: definition `{definition}` declares no output"
  | emptyTechnique line material => s!"Technique `{line}` of `{material}` has neither " ++
    "shader sources nor shader nodes, skipping it"

structure Context where
  catalog : Catalog
  assets : AssetStore
  options : ReadOptions

/-- A technique whose nodes are being read. -/
structure Graph where
  technique : Technique
  /-- The definitions known so far. -/
  library : List Definition
  warnings : List Warning

abbrev Building := Attempt Graph Fault

def Graph.setTechnique (g : Graph) (technique : Technique) : Graph := { g with technique }

def Declaring.building {α : Type} (step : Declaring α) (statement : Statement) : Building α :=
  (step.mapError (·.located statement)).onPart Graph.technique Graph.setTechnique

namespace Graph

def modifyTechnique (f : Technique → Technique) : Building Unit :=
  Attempt.modify fun g => g.setTechnique (f g.technique)

def warn (warning : Warning) : Building Unit :=
  Attempt.modify fun g => { g with warnings := g.warnings ++ [warning] }

def markUnused (name : String) : Building Unit :=
  modifyTechnique fun t => { t with interface :=
    { t.interface with unusedNodes := t.interface.unusedNodes.insert name } }

def markUsed (name : String) : Building Unit :=
  modifyTechnique fun t => { t with interface :=
    { t.interface with unusedNodes := t.interface.unusedNodes.erase name } }

/-! ## Definitions -/

/-- `Definition : name` with an optional `: path`. -/
structure DefinitionLine where
  name : String
  path : Option String
  deriving DecidableEq, Repr

def DefinitionLine.ofLine? (line : String) : Option DefinitionLine :=
  match (Text.fields ':' line.toList).map Text.trim with
  | [_, name] => some ⟨.ofList name, none⟩
  | [_, name, path] => some ⟨.ofList name, some (.ofList path)⟩
  | _ => none

def known? (g : Graph) (name : String) : Option Definition := g.library.find? (·.name == name)

/-- The definitions of a file, behind those known already. -/
def loadFile (context : Context) (statement : Statement) (path : String) : Building Unit := do
  let loaded ← Attempt.ofExcept
    ((context.assets.definitions context.options path).mapError (·.orLocated statement))
  Attempt.modify fun g =>
    { g with library := g.library ++ loaded.map fun d => { d with path := some path } }

def findDefinition (context : Context) (statement : Statement) : Building Definition := do
  let some line := DefinitionLine.ofLine? statement.line
    | throw ((Cause.malformedStatement "Definition").located statement)
  let g ← Attempt.get
  match g.known? line.name with
  | some definition => return definition
  | none =>
    match line.path with
    | some path => loadFile context statement path
    | none => pure ()
    let g ← Attempt.get
    match g.known? line.name with
    | some definition => return definition
    | none => throw ((Cause.unknownDefinition line.name).located statement)

/-! ## Mappings -/

/-- The condition of a statement with guards in place of names; none stays none. -/
def readCondition (context : Context) (statement : Statement) :
    Option String → Building (Option String)
  | none => return none
  | some text => do
    let normalized ← (Resolution.guardCondition context.catalog text).building statement
    return some normalized

/-- The variable of a reference, and the left side after it is resolved. -/
def resolveFor (catalog : Catalog) (reference : Reference) (left : Variable)
    (consumer : Consumer) : Declaring (VarId × Variable) := fun t =>
  let (r, w) := Resolution.resolve catalog reference consumer ⟨t, left⟩
  (r.map (·, w.left), w.technique)

def producer? (reference : Reference) : Option String :=
  match reference.origin with
  | some (.node name) => some name
  | _ => none

/-- The source of an input mapping, with the left side and the swizzle of the right side. -/
structure Wire where
  left : Variable
  source : Source
  rightSwizzle : String

def readRightSide (context : Context) (node : Node) (statement : Statement) (left : Variable)
    (leftSwizzle text : String) : Building Wire := do
  let some reference := Reference.parse? text true
    | throw ((Cause.malformedMapping statement.line).located statement)
  if left.isSampler && reference.origin != some .materialParameter then
    throw ((Cause.samplerSource left.name).located statement)
  let (id, left) ← (resolveFor context.catalog reference left ⟨node.name, node.stage⟩).building
    statement
  let g ← Attempt.get
  Attempt.ofExcept ((Typing.check left leftSwizzle (g.technique.arena.read id)
    reference.swizzle).mapError (·.located statement))
  match producer? reference with
  | some name => markUsed name
  | none => pure ()
  return ⟨left, .var id, reference.swizzle⟩

/-- `input.swizzle = namespace.name.swizzle : condition`, or code on the right. -/
def readInputMapping (context : Context) (node : Node) (statement : Statement) :
    Building Mapping := do
  let malformed := (Cause.malformedMapping statement.line).located statement
  let some line := MappingLine.split? statement.line | throw malformed
  let some target := Reference.parse? line.left false | throw malformed
  let some input := node.definition.input? target.name
    | throw ((Cause.notAnInput target.name node.definition.name).located statement)
  let left := { input with origin := some (.node node.name) }
  let condition ← readCondition context statement line.condition
  let wire ← match line.right with
    | .code text => pure ⟨left, .code text, ""⟩
    | .reference text => readRightSide context node statement left target.swizzle text
  let id ← (Resolution.store wire.left).building statement
  return ⟨id, wire.source, target.swizzle, wire.rightSwizzle, condition⟩

/-- `Global.name.swizzle = output.swizzle : condition`. -/
def readOutputMapping (context : Context) (node : Node) (statement : Statement) :
    Building Mapping := do
  let malformed := (Cause.malformedMapping statement.line).located statement
  let some line := MappingLine.split? statement.line | throw malformed
  let .reference text := line.right | throw malformed
  let some target := Reference.parse? line.left true | throw malformed
  let some reference := Reference.parse? text false | throw malformed
  let origin := target.origin.getD .global
  if origin ≠ .global then throw ((Cause.outputNamespace origin.word).located statement)
  let some output := node.definition.output? reference.name
    | throw ((Cause.notAnOutput reference.name node.definition.name).located statement)
  if output.isSampler then throw ((Cause.samplerOutput output.name).located statement)
  let right := { output with origin := some (.node node.name) }
  let left := Resolution.globalVariable target.name
  Attempt.ofExcept ((Typing.check left target.swizzle right reference.swizzle).mapError
    (·.located statement))
  let condition ← readCondition context statement line.condition
  let global ← (Resolution.storeGlobal left node.stage).building statement
  markUsed node.name
  let id ← (Resolution.store right).building statement
  return ⟨global, .var id, target.swizzle, reference.swizzle, condition⟩

/-! ## Nodes -/

/-- The text after the last `:` of a condition line, an empty one being none. -/
def conditionText? (line : String) : Option (Option String) :=
  (Text.afterLast? ':' line.toList).map fun rest =>
    let text := Text.trim rest
    if text.isEmpty then none else some (.ofList text)

def readNodeStatement (context : Context) (node : Node) (statement : Statement) :
    Building Node := do
  if statement.startsWith "Condition" then
    let some text := conditionText? statement.line
      | throw ((Cause.malformedStatement "Condition").located statement)
    return { node with condition := ← readCondition context statement text }
  else if statement.startsWith "InputMapping" then
    let mappings ← statement.contents.mapM (readInputMapping context node)
    return { node with inputs := node.inputs ++ mappings }
  else if statement.startsWith "OutputMapping" then
    let mappings ← statement.contents.mapM (readOutputMapping context node)
    return { node with outputs := node.outputs ++ mappings }
  else throw (statement.unexpected "one of Condition, InputMappings, OutputMappings")

def readNode (context : Context) (name : String) (statement : Statement) : Building Node := do
  match statement.contents with
  | [] => throw ((Cause.missingDefinition name).located statement)
  | first :: rest =>
    if !first.startsWith "Definition" then
      throw ((Cause.missingDefinition name).located first)
    let definition ← findDefinition context first
    if definition.noOutput then markUsed name
    else
      markUnused name
      if definition.outputs.isEmpty then warn (.noOutput name definition.name)
    rest.foldlM (readNodeStatement context) ⟨name, definition, none, [], []⟩

def readAndAddNode (context : Context) (statement : Statement) : Building Unit := do
  let some name := statement.afterKeyword? "ShaderNode "
    | throw (statement.unexpected "ShaderNode")
  let g ← Attempt.get
  if (g.technique.node? name).isSome then
    throw ((Cause.duplicateNode name).located statement)
  let node ← readNode context name statement
  modifyTechnique fun t => { t with nodes := t.nodes ++ [node] }

def readNodes (context : Context) (statements : List Statement) : Building Unit :=
  statements.forM (readAndAddNode context)

def addDefinitions (g : Graph) (definitions : List Definition) : Graph :=
  { g with library := g.library ++ definitions }

end Graph

end ShaderGraph
