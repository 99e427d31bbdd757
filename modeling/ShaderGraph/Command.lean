/-
  ShaderGraph.Command — the command line: a material in, its report out.

  The command takes the path of a material and the directory that its definition files
  are looked up in, by default the one it runs in. All that it needs of the world is how
  to read a path, and `wantedPaths` says beforehand which paths that can be, so the
  reading itself is done outside.

  A material is reported in lines of text. A technique made from sources lists them. One made
  from nodes lists the nodes, then what its shaders declare, each variable with the condition
  it is needed under, and the defines bound to parameters.
-/

import ShaderGraph.Material

namespace ShaderGraph

/-! ## The report -/

namespace Report

/-- `type name`, with the condition in brackets if there is one. -/
def declared (v : Variable) : String :=
  s!"{v.type} {v.name}" ++ match v.condition with
    | some condition => " [" ++ condition ++ "]"
    | none => ""

def listing (t : Technique) (ids : List VarId) : String :=
  ", ".intercalate (ids.map fun id => declared (t.arena.read id))

def node (n : Node) : String :=
  s!"  {n.stage.name} node {n.name}: {n.definition.name}" ++ match n.condition with
    | some condition => " if " ++ condition
    | none => ""

def source (stage : Stage) (s : ShaderSource) : String :=
  s!"  {stage.name} shader ({s.language}): {s.path}"

def binding (b : DefineBinding) : String :=
  s!"  define {b.define} <- {b.param} ({b.type.name})"

def interface (t : Technique) : List String :=
  let i := t.interface
  [ "  attributes: " ++ listing t i.attributes,
    "  vertex uniforms: " ++ listing t i.vertexUniforms,
    "  fragment uniforms: " ++ listing t i.fragmentUniforms,
    "  varyings: " ++ listing t i.varyings,
    "  vertex global: " ++ listing t i.vertexGlobal.toList,
    "  fragment globals: " ++ listing t i.fragmentGlobals ] ++
  if i.unusedNodes.names.isEmpty then []
  else ["  unused nodes: " ++ ", ".intercalate i.unusedNodes.names]

def technique (t : Technique) : List String :=
  ("Technique " ++ t.name.getD "Default") ::
    if t.usesNodes then t.nodes.map node ++ interface t ++ t.defines.bindings.map binding
    else t.sources.map fun (stage, s) => source stage s

def text (lines : List String) : String := String.join (lines.map (· ++ "\n"))

def material (m : Material) : String :=
  text (("MaterialDef " ++ m.name) :: m.techniques.flatMap technique)

end Report

/-! ## The command line -/

structure Outcome where
  exitCode : Nat
  output : String
  complaint : String
  deriving DecidableEq, Repr

namespace Command

structure Request where
  material : String
  root : String
  deriving DecidableEq, Repr

def usage : String := "usage: shnode <material-definition> [asset-root]"

/-- Arguments after the second one mean nothing. -/
def request? : List String → Option Request
  | [] => none
  | [material] => some ⟨material, "."⟩
  | material :: root :: _ => some ⟨material, root⟩

/-- A run that fails, with what brought it down if that is another thing. -/
def failure (top : String) (cause : Option String) : Outcome :=
  let below := match cause with
    | some cause => s!"\n\nCaused by:\n    {cause}"
    | none => ""
  ⟨1, "", s!"Error: {top}{below}\n"⟩

def runRequest (read : String → Except Unreadable String) (request : Request) : Outcome :=
  match read request.material with
  | .error reason => failure s!"reading `{request.material}`" (some reason.message)
  | .ok text =>
    match (readMaterial (.below read request.root) ⟨false⟩ text []).1 with
    | .error fault => failure s!"loading `{request.material}`" (some fault.message)
    | .ok material => ⟨0, Report.material material, ""⟩

def run (read : String → Except Unreadable String) (arguments : List String) : Outcome :=
  match request? arguments with
  | none => failure usage none
  | some request => runRequest read request

/-- The paths of definition files that a material can ask for: those of all lines that look
like the definition line of a node. -/
def wantedPaths (root text : String) : List String :=
  match Block.read text with
  | .error _ => []
  | .ok statements => (Block.rows 0 statements).filterMap fun (_, statement) =>
      (Graph.DefinitionLine.ofLine? statement.line).bind fun line =>
        line.path.map (joinPath root)

end Command

end ShaderGraph
