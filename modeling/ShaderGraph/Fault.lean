/-
  ShaderGraph.Fault — why a text cannot be read or a graph cannot be wired.

  A `Cause` says what is wrong and has one wording (`Cause.message`) and one coarse
  class (`Cause.category`). A `Fault` is a cause with the statement it was met at, where
  one is known; its text ends with that line. The first location a fault is given is the
  one it keeps (`Fault.orLocated`).
-/

import ShaderGraph.Block.Statement
import ShaderGraph.Glsl

namespace ShaderGraph

open Block (Location Statement)

inductive Category where
  /-- Malformed text. -/
  | malformed
  /-- A name that means nothing, or two things. -/
  | reference
  /-- Types, swizzles or array lengths that do not fit. -/
  | type
  /-- Data that cannot flow between two stages. -/
  | stage
  /-- A file that cannot be provided. -/
  | asset
  deriving DecidableEq, Repr

inductive Cause where
  /-- The block structure breaks at this position. -/
  | block (position : Block.Position)
  /-- A statement that its block does not allow. -/
  | unexpectedStatement (expected got : String)
  /-- A mapping line with the wrong shape. -/
  | malformedMapping (line : String)
  /-- A variable declaration with the wrong number of words. -/
  | malformedVariable (line : String)
  /-- A statement of this kind with the wrong shape. -/
  | malformedStatement (kind : String)
  | duplicateVariable (name : String)
  | unknownStage (name : String)
  | unknownParamType (name : String)
  /-- A definition without its stage. -/
  | missingStage (definition : String)
  /-- A node that does not start with its definition. -/
  | missingDefinition (node : String)
  /-- An output written to another namespace than the global one. -/
  | outputNamespace (name : String)
  | duplicateNode (name : String)
  /-- A node that is not known where it is read. -/
  | undeclaredNode (name : String)
  | unknownDefinition (name : String)
  | unknownMaterialParameter (name : String)
  /-- A world parameter that the technique does not request. -/
  | unknownWorldParameter (name : String)
  /-- A world parameter that does not exist. -/
  | unknownBinding (name : String)
  | notAnInput (name definition : String)
  | notAnOutput (name definition : String)
  /-- A condition that names something else than material parameters. -/
  | invalidCondition (text : String)
  /-- An array length that is neither a number nor a material parameter. -/
  | invalidMultiplicity (name multiplicity : String)
  /-- Component counts that differ. -/
  | typeMismatch (left right : String)
  /-- Array lengths that differ. -/
  | multiplicityMismatch (left right : String)
  /-- A sampler as the source of an output mapping. -/
  | samplerOutput (name : String)
  /-- A sampler fed from something else than a material parameter. -/
  | samplerSource (name : String)
  /-- A texture none of whose sampler kinds is the one wanted. -/
  | samplerUnion (param expected found : String)
  /-- An array length for a parameter that is no array. -/
  | notAnArray (param : String)
  /-- An attribute read in the fragment stage. -/
  | fragmentAttribute (name : String)
  /-- An output read by a stage that does not follow the producer's. -/
  | backwardFlow (producer : String) (producerStage : Stage)
      (consumer : String) (consumerStage : Stage)
  /-- A second global of the vertex stage. -/
  | vertexGlobal (existing found : String)
  /-- A file that cannot be provided or read. -/
  | asset (path reason : String)
  deriving DecidableEq, Repr

namespace Cause

def category : Cause → Category
  | block _ | unexpectedStatement .. | malformedMapping _ | malformedVariable _
  | malformedStatement _ | duplicateVariable _ | unknownStage _ | unknownParamType _
  | missingStage _ | missingDefinition _ | outputNamespace _ => .malformed
  | duplicateNode _ | undeclaredNode _ | unknownDefinition _ | unknownMaterialParameter _
  | unknownWorldParameter _ | unknownBinding _ | notAnInput .. | notAnOutput ..
  | invalidCondition _ | invalidMultiplicity .. => .reference
  | typeMismatch .. | multiplicityMismatch .. | samplerOutput _ | samplerSource _
  | samplerUnion .. | notAnArray _ => .type
  | fragmentAttribute _ | backwardFlow .. | vertexGlobal .. => .stage
  | asset .. => .asset

def message : Cause → String
  | block p => s!"Unable to read block structure: {p.line}:{p.column}"
  | unexpectedStatement expected got => s!"Expected {expected}, got `{got}`"
  | malformedMapping line => s!"Not a valid mapping `{line}`, should be " ++
      "`<varName>[.<swizzling>] = <nameSpace>.<varName>[.<swizzling>][:Condition]`"
  | malformedVariable line => s!"Not a valid variable declaration `{line}`, should be " ++
      "`<glslType> <varName>[<multiplicity>] [<defaultValue>]`"
  | malformedStatement kind => s!"{kind} statement syntax incorrect"
  | duplicateVariable name => s!"Duplicate variable name `{name}`"
  | unknownStage name => s!"Unknown shader stage `{name}`"
  | unknownParamType name => s!"Unknown material parameter type `{name}`"
  | missingStage definition =>
      s!"Shader node definition `{definition}` does not declare its Type"
  | missingDefinition node =>
      s!"Shader node `{node}` must declare its Definition before anything else"
  | outputNamespace name => "Only the Global namespace is allowed on the left of an output " ++
      s!"mapping, got `{name}`"
  | duplicateNode name => s!"ShaderNode `{name}` is already defined"
  | undeclaredNode name => s!"Undeclared node `{name}`, " ++
      "make sure this node is declared before the current node"
  | unknownDefinition name => s!"`{name}` is not declared as a shader node definition"
  | unknownMaterialParameter name => s!"Could not find a material parameter named `{name}`"
  | unknownWorldParameter name => s!"Could not find a world parameter named `{name}`"
  | unknownBinding name => s!"Unknown world binding `{name}`"
  | notAnInput name definition => s!"`{name}` is not an input variable of `{definition}`"
  | notAnOutput name definition => s!"`{name}` is not an output variable of `{definition}`"
  | invalidCondition text =>
      s!"Invalid condition `{text}`, condition must match a material parameter"
  | invalidMultiplicity name multiplicity => s!"Wrong multiplicity for variable `{name}`: " ++
      s!"`{multiplicity}` should be an int or a declared material parameter"
  | typeMismatch left right => s!"Type mismatch, cannot convert {right} to {left}"
  | multiplicityMismatch left right => s!"Type mismatch, cannot convert {left} to {right}"
  | samplerOutput name => s!"Samplers can only be inputs, `{name}` is a sampler output"
  | samplerSource name =>
      s!"Samplers can only be assigned to material parameters, got `{name}`"
  | samplerUnion param expected found =>
      s!"{param} can only be matched to one of {expected}, found {found}"
  | notAnArray param => s!"`{param}` is not of Array type"
  | fragmentAttribute name =>
      s!"Cannot have attribute `{name}` as input of a fragment shader node"
  | backwardFlow producer producerStage consumer consumerStage =>
      "Data cannot flow backward across stages: " ++
      s!"`{producer}` ({producerStage.name}) feeds `{consumer}` ({consumerStage.name})"
  | vertexGlobal existing found =>
      s!"A global output is already defined for the vertex shader: `{existing}`, " ++
      s!"vertex shader can only have one global output (got `{found}`)"
  | asset path reason => s!"Could not load `{path}`: {reason}"

end Cause

structure Fault where
  cause : Cause
  location : Option Location
  deriving DecidableEq, Repr

namespace Cause

def located (cause : Cause) (statement : Statement) : Fault := ⟨cause, some statement.location⟩

def unlocated (cause : Cause) : Fault := ⟨cause, none⟩

end Cause

namespace Fault

def category (fault : Fault) : Category := fault.cause.category

def message (fault : Fault) : String :=
  match fault.location with
  | some location => fault.cause.message ++ s!" (line {location.number}: `{location.text}`)"
  | none => fault.cause.message

/-- The fault, met at `statement` unless it already has a location. -/
def orLocated (fault : Fault) (statement : Statement) : Fault :=
  match fault.location with
  | some _ => fault
  | none => fault.cause.located statement

@[simp] theorem orLocated_located (cause : Cause) (s t : Statement) :
    (cause.located s).orLocated t = cause.located s := rfl

@[simp] theorem orLocated_unlocated (cause : Cause) (t : Statement) :
    cause.unlocated.orLocated t = cause.located t := rfl

end Fault

def readStatements (text : String) : Except Fault (List Statement) :=
  (Block.read text).mapError fun position => (Cause.block position).unlocated

end ShaderGraph
