/-
  ShaderGraph.Definition — what a shader node can be an instance of, and how it is read.

  A definition has a name, the stage its code runs in, one source for each shading
  language, and the variables it reads and writes. It may say that it writes none.

  The lines of a definition are told apart by how they start, in this order: `Type`,
  `Shader `, `Documentation`, `Input`, `Output`. A later block of variables replaces an
  earlier one; a stage must be given. Of two definitions with one name in a block the
  first is read and the second is not even looked at.
-/

import ShaderGraph.Fault
import ShaderGraph.Text.Search
import ShaderGraph.Variable

namespace ShaderGraph

open Block (Statement)

/-- The file that implements something in one shading language. -/
structure ShaderSource where
  language : String
  path : String
  deriving DecidableEq, Repr

structure Definition where
  name : String
  /-- The file it was read from; `none` for one written in the material itself. -/
  path : Option String
  stage : Stage
  sources : List ShaderSource
  documentation : Option String
  inputs : List Variable
  outputs : List Variable
  /-- Declared to write nothing. -/
  noOutput : Bool
  deriving DecidableEq, Repr

namespace Definition

def input? (d : Definition) (name : String) : Option Variable := d.inputs.find? (·.name == name)

def output? (d : Definition) (name : String) : Option Variable := d.outputs.find? (·.name == name)

end Definition

structure ReadOptions where
  keepDocumentation : Bool
  deriving DecidableEq, Repr

/-! ## Lines -/

def Stage.parse (text : String) : Except Cause Stage :=
  match ofName? text with
  | some stage => .ok stage
  | none => .error (.unknownStage text)

def Block.Statement.unexpected (statement : Statement) (expected : String) : Fault :=
  (Cause.unexpectedStatement expected statement.keyword).located statement

def Block.Statement.startsWith (statement : Statement) (start : String) : Bool :=
  start.toList.isPrefixOf statement.line.toList

/-- The trimmed rest of a line that starts with this text. -/
def Block.Statement.afterKeyword? (statement : Statement) (start : String) : Option String :=
  (Text.after? start.toList statement.line.toList).map fun rest => .ofList (Text.trim rest)

/-! ## Variables -/

/-- A declaration with the spaces and tabs in front of each `[` taken out. -/
def joinBrackets : List Char → List Char
  | [] => []
  | c :: cs =>
    let rest := joinBrackets cs
    if Text.isSpacing c && rest.head? == some '[' then rest else c :: rest

/-- The name and the array length of a declared variable; `none` if the brackets are empty. -/
def nameAndLength? (declaration : List Char) : Option (List Char × Option (List Char)) :=
  match Text.cut? '[' declaration with
  | none => some (declaration, none)
  | some (name, rest) =>
    let length := Text.trim (rest.reverse.dropWhile (· == ']')).reverse
    if length.isEmpty then none else some (Text.trim name, some length)

/-- `type name[length] default`, the last two optional, blanks allowed before the `[`. -/
def Variable.ofLine? (line : String) : Option Variable :=
  let declare (type declaration : List Char) (defaultValue : Option (List Char)) :=
    (nameAndLength? declaration).map fun (name, length) =>
      { Variable.plain (.ofList type) (.ofList name) with
        multiplicity := length.map String.ofList
        defaultValue := defaultValue.map String.ofList }
  match Text.words (joinBrackets (Text.trim line.toList)) with
  | [type, declaration] => declare type declaration none
  | [type, declaration, defaultValue] => declare type declaration (some defaultValue)
  | _ => none

def readVariable (statement : Statement) : Except Fault Variable :=
  match Variable.ofLine? statement.line with
  | some v => .ok v
  | none => .error ((Cause.malformedVariable statement.line).located statement)

/-- The variables of a block; `names` are taken already. -/
def readVariables (names : List String) : List Statement → Except Fault (List Variable)
  | [] => .ok []
  | statement :: rest => do
    let v ← readVariable statement
    if names.contains v.name then
      throw ((Cause.duplicateVariable v.name).located statement)
    return v :: (← readVariables (v.name :: names) rest)

/-! ## Sources -/

/-- `Shader language: path`. -/
def ShaderSource.ofLine? (line : String) : Option ShaderSource :=
  match Text.fields ':' line.toList with
  | [head, path] => match Text.words head with
    | [_, language] => some ⟨.ofList language, .ofList (Text.trim path)⟩
    | _ => none
  | _ => none

def readSource (statement : Statement) : Except Fault ShaderSource :=
  match ShaderSource.ofLine? statement.line with
  | some source => .ok source
  | none => .error ((Cause.malformedStatement "Shader").located statement)

/-! ## Definitions -/

structure Signature where
  stage : Option Stage := none
  sources : List ShaderSource := []
  documentation : Option String := none
  inputs : List Variable := []
  outputs : List Variable := []
  noOutput : Bool := false

/-- The text after the last `:` of a line, or the whole line. -/
def valueOf (line : String) : String :=
  .ofList (Text.trim ((Text.afterLast? ':' line.toList).getD line.toList))

/-- The mark, in a block of outputs, of a definition that writes nothing. -/
def Block.Statement.saysNone (statement : Statement) : Bool := statement.line == "None"

def Signature.read (options : ReadOptions) (s : Signature) (statement : Statement) :
    Except Fault Signature :=
  if statement.startsWith "Type" then
    match Stage.parse (valueOf statement.line) with
    | .ok stage => .ok { s with stage := some stage }
    | .error cause => .error (cause.located statement)
  else if statement.startsWith "Shader " then do
    let source ← readSource statement
    return { s with sources := s.sources ++ [source] }
  else if statement.startsWith "Documentation" then
    if options.keepDocumentation then
      let lines := statement.contents.map fun line => "\n" ++ line.line
      .ok { s with documentation := some (String.join lines) }
    else .ok s
  else if statement.startsWith "Input" then do
    return { s with inputs := ← readVariables [] statement.contents }
  else if statement.startsWith "Output" then do
    let outputs ← readVariables [] (statement.contents.filter (!·.saysNone))
    return { s with outputs, noOutput := s.noOutput || statement.contents.any (·.saysNone) }
  else .error (statement.unexpected "one of Type, Shader, Documentation, Input, Output")

def readDefinition (options : ReadOptions) (name : String) (statement : Statement) :
    Except Fault Definition := do
  let s ← statement.contents.foldlM (Signature.read options) {}
  match s.stage with
  | none => throw ((Cause.missingStage name).located statement)
  | some stage => return {
      name, stage, path := none, sources := s.sources, documentation := s.documentation
      inputs := s.inputs, outputs := s.outputs, noOutput := s.noOutput }

/-- The definitions of a block; those with one of `names` are passed over. -/
def readDefinitionsExcept (options : ReadOptions) (names : List String) :
    List Statement → Except Fault (List Definition)
  | [] => .ok []
  | statement :: rest => do
    let some name := statement.afterKeyword? "ShaderNodeDefinition"
      | throw (statement.unexpected "ShaderNodeDefinition")
    if names.contains name then readDefinitionsExcept options names rest
    else
      let definition ← readDefinition options name statement
      return definition :: (← readDefinitionsExcept options (name :: names) rest)

def readDefinitions (options : ReadOptions) (statements : List Statement) :
    Except Fault (List Definition) :=
  readDefinitionsExcept options [] statements

/-- The definitions of a file: the blocks it consists of, one after the other. -/
def readDefinitionFile (options : ReadOptions) (text : String) :
    Except Fault (List Definition) := do
  let statements ← readStatements text
  let blocks ← statements.mapM fun statement =>
    if statement.keyword == "ShaderNodeDefinitions" then
      readDefinitions options statement.contents
    else throw (statement.unexpected "ShaderNodeDefinitions")
  return blocks.flatten

end ShaderGraph
