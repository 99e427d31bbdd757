/-
  ShaderGraph.Technique.Reader — reading a technique from its statement.

  The statements of a technique may come in any order: all of them are read before the
  first node, so a definition or a world parameter is known wherever it is written. With
  a source for the vertex and one for the fragment stage the nodes are not read; without
  these and without nodes there is no technique.
-/

import ShaderGraph.Activation
import ShaderGraph.Graph

namespace ShaderGraph

open Block (Statement)

/-- A technique in the middle of its statements. -/
structure Draft where
  technique : Technique
  definitions : List Definition := []
  /-- The blocks of nodes, not read yet. -/
  nodeBlocks : List Statement := []

namespace Draft

def setTechnique (draft : Draft) (technique : Technique) : Draft := { draft with technique }

def readWorldBinding (t : Technique) (statement : Statement) : Except Fault Technique :=
  match WorldBinding.parse statement.line with
  | .ok binding => .ok { t with worldBindings := addOnce t.worldBindings binding }
  | .error cause => .error (cause.located statement)

/-- One define: preset, or bound to a material parameter after `:`. -/
def readDefine (catalog : Catalog) (t : Technique) (statement : Statement) :
    Except Fault Technique :=
  match (Text.fields ':' statement.line.toList).map fun cs => String.ofList (Text.trim cs) with
  | [define] => .ok { t with presets := addOnce t.presets define }
  | [define, name] => match catalog.param? name with
    | some param => .ok (t.bindDefine param.name define param.type)
    | none => .error ((Cause.unknownMaterialParameter name).located statement)
  | _ => .error ((Cause.malformedStatement "Define").located statement)

def sourceStage? (keyword : String) : Option String :=
  let start := (keyword.toList.reverse.drop "Shader".length).reverse
  if keyword.toList == start ++ "Shader".toList then some (.ofList start) else none

/-- `<stage>Shader language: path`. -/
def readStageSource (stageName : String) (t : Technique) (statement : Statement) :
    Except Fault Technique := do
  let stage ← (Stage.parse stageName).mapError (·.located statement)
  let source ← readSource statement
  return { t with sources := t.sources ++ [(stage, source)] }

def ignored : List String := ["RenderState", "ForcedRenderState", "LightMode", "ShadowMode"]

def read (context : Context) (draft : Draft) (statement : Statement) : Except Fault Draft := do
  let keyword := statement.keyword
  if keyword == "WorldParameters" then
    return draft.setTechnique (← statement.contents.foldlM readWorldBinding draft.technique)
  else if keyword == "Defines" then
    return draft.setTechnique
      (← statement.contents.foldlM (readDefine context.catalog) draft.technique)
  else if keyword == "ShaderNodesDefinitions" then
    let definitions ← readDefinitions context.options statement.contents
    return { draft with definitions := draft.definitions ++ definitions }
  else if keyword == "VertexShaderNodes" || keyword == "FragmentShaderNodes" then
    return { draft with nodeBlocks := draft.nodeBlocks ++ [statement] }
  else if ignored.contains keyword then return draft
  else match sourceStage? keyword with
    | some stage => return draft.setTechnique (← readStageSource stage draft.technique statement)
    | none => throw (statement.unexpected "a technique statement")

/-- The shaders are given as files. -/
def hasSources (draft : Draft) : Bool :=
  (draft.technique.source? .vertex).isSome && (draft.technique.source? .fragment).isSome

end Draft

/-- The name on the line of a technique, if there is one; `none` for any other line. -/
def techniqueName? (line : String) : Option (Option String) :=
  match Text.words line.toList with
  | [_] => some none
  | [_, name] => some (some (.ofList name))
  | _ => none

abbrev Reading := Attempt (List Warning) Fault

def buildGraph (context : Context) (draft : Draft) : Reading Technique := fun warnings =>
  let start : Graph := ⟨draft.technique, draft.definitions, warnings⟩
  let (r, g) := (draft.nodeBlocks.forM fun block => Graph.readNodes context block.contents) start
  (r.map fun _ => g.technique.finish, g.warnings)

/-- The technique of a statement; `none` if there is nothing to render with. -/
def readTechnique (context : Context) (statement : Statement) : Reading (Option Technique) := do
  let some name := techniqueName? statement.line
    | throw ((Cause.malformedStatement "Technique").located statement)
  let draft ← Attempt.ofExcept
    (statement.contents.foldlM (Draft.read context) { technique := .empty name })
  if draft.hasSources then return some draft.technique.finish
  else if draft.nodeBlocks.isEmpty then return none
  else return some (← buildGraph context draft)

end ShaderGraph
