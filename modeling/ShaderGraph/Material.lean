/-
  ShaderGraph.Material — reading a whole material.

  The text of a material is one statement. Its parameters are read first, wherever they
  are written; then its techniques, each on its own. A technique that gives nothing to
  render with is left out with a warning.
-/

import ShaderGraph.Technique.Reader

namespace ShaderGraph

open Block (Statement)

structure Material where
  name : String
  params : Catalog
  techniques : List Technique

/-- `type name : default`, the default being optional. -/
def readParameter (statement : Statement) : Except Fault Parameter :=
  let (declaration, defaultValue) := match Text.cut? ':' statement.line.toList with
    | some (declaration, rest) => (declaration, some (String.ofList (Text.trim rest)))
    | none => (statement.line.toList, none)
  match Text.words declaration with
  | [type, name] => match ParamType.parse (.ofList type) with
    | .ok type => .ok ⟨.ofList name, type, defaultValue⟩
    | .error cause => .error (cause.located statement)
  | _ => .error ((Cause.malformedStatement "MaterialParameter").located statement)

def readCatalog (statements : List Statement) : Except Fault Catalog :=
  ((statements.filter (·.keyword == "MaterialParameters")).flatMap (·.contents)).mapM
    readParameter

/-- One statement of a material whose parameters are known. -/
def Material.readStatement (context : Context) (material : Material) (statement : Statement) :
    Reading Material := do
  if statement.keyword == "MaterialParameters" then return material
  else if statement.keyword == "Technique" then
    match ← readTechnique context statement with
    | some technique => return { material with techniques := material.techniques ++ [technique] }
    | none =>
      Attempt.modify (· ++ [.emptyTechnique statement.line material.name])
      return material
  else throw (statement.unexpected "one of MaterialParameters, Technique")

def readMaterial (assets : AssetStore) (options : ReadOptions) (text : String) :
    Reading Material := do
  let statements ← Attempt.ofExcept (readStatements text)
  let [root] := statements | throw (Cause.malformedStatement "MaterialDef").unlocated
  let some name := root.afterKeyword? "MaterialDef" | throw (root.unexpected "MaterialDef")
  let params ← Attempt.ofExcept (readCatalog root.contents)
  root.contents.foldlM (Material.readStatement ⟨params, assets, options⟩) ⟨name, params, []⟩

end ShaderGraph
