/-
  ShaderGraph.Activation — under which guards each declaration is needed.

  A declaration is needed as soon as one of its consumers needs it: a consumer that is
  there under its own condition, and has a mapping that reads the variable under that
  mapping's condition. The conditions are composed as texts (`declarationCondition`); a
  text that already occurs in the one composed so far is not added again. A declaration
  with no guard at all has none.

  Uniforms are settled first, then varyings. An input of a vertex node that is a varying
  itself is needed where the varying is, so its mapping takes over the varying's
  condition (`inherit`). Attributes come last and see those mappings.
-/

import ShaderGraph.Condition.Basic
import ShaderGraph.Technique.Basic
import ShaderGraph.Text.Search

namespace ShaderGraph.Activation

open Condition (guard merge)

def occurs (text whole : String) : Bool := Text.occursIn text.toList whole.toList

/-- The conditions of some uses taken together: `none` if one of them has none, or if there
are none; otherwise `first` begins and `more` adds each following one. -/
def together (first : String → String) (more : String → String → String)
    (conditions : List (Option String)) : Option String :=
  (conditions.mapM id).bind fun
    | [] => none
    | condition :: rest => some (rest.foldl more (first condition))

/-- One more reading of a variable in a node. -/
def widen (current condition : String) : String :=
  if occurs condition current then current else s!"{current} || ({condition})"

def readingCondition (node : Node) (id : VarId) : Option String :=
  together (fun condition => s!"({condition})") widen
    ((node.inputs.filter (·.reads id)).map (·.condition))

/-- When a node is there and reads a variable. -/
def useCondition (node : Node) (id : VarId) : Option String :=
  match node.condition, readingCondition node id with
  | none, reading => reading
  | some there, none => some there
  | some there, some reading =>
    if occurs there reading then some reading else some s!"({there}) && ({reading})"

/-- One more consumer of a declaration. -/
def extend (current condition : String) : String :=
  if occurs condition current then current else s!"({current}) || ({condition})"

def declarationCondition (d : Declaration) (nodes : List Node) : Option String :=
  together id extend ((d.consumers.filterMap fun name => nodes.find? (·.name == name)).map
    (useCondition · d.id))

/-- Settle one declaration: where an array takes its length from a parameter, the parameter's
define counts as a use. -/
def settle (nodes : List Node) (arena : Arena) (d : Declaration) : Arena :=
  arena.update d.id fun v =>
    { v with condition :=
        merge (declarationCondition d nodes) (v.sizeDefine.map guard) "||" }

def settleAll (sort : DeclKey → Bool) (registry : Registry) (nodes : List Node) (arena : Arena) :
    Arena :=
  (registry.entries.filter (sort ·.key)).foldl (settle nodes) arena

/-- The condition of a mapping to an input that is a varying of this condition. -/
def inherited (own varying : Option String) : Option String :=
  match own, varying with
  | some own, some varying => some s!"({own}) || ({varying})"
  | _, varying => varying

def inheritMapping (arena : Arena) (varying : Variable) (m : Mapping) : Mapping :=
  if (arena.read m.left).sameAs varying then
    { m with condition := inherited m.condition varying.condition }
  else m

def inherit (arena : Arena) (nodes : List Node) (d : Declaration) : List Node :=
  nodes.map fun node =>
    if node.stage = .vertex then
      { node with inputs := node.inputs.map (inheritMapping arena (arena.read d.id)) }
    else node

def compute (registry : Registry) (nodes : List Node) (arena : Arena) : List Node × Arena :=
  let arena := settleAll DeclKey.isUniform registry nodes arena
  let arena := settleAll DeclKey.isVarying registry nodes arena
  let nodes := (registry.entries.filter (·.key.isVarying)).foldl (inherit arena) nodes
  (nodes, settleAll DeclKey.isAttribute registry nodes arena)

end ShaderGraph.Activation

namespace ShaderGraph

/-- The technique once no node will be added: its conditions are settled. -/
def Technique.finish (t : Technique) : Technique :=
  let (nodes, arena) := Activation.compute t.registry t.nodes t.arena
  { t with nodes, arena }

end ShaderGraph
