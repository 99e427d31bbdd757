import ShaderGraph.Block.Statement
import ShaderGraph.Condition.Basic
import ShaderGraph.Graph
import ShaderGraph.Material
import ShaderGraph.Proofs.Formula
import ShaderGraph.Proofs.Registry
import ShaderGraph.Resolution
import ShaderGraph.Technique.Reader
import ShaderGraph.Typing
import ShaderGraph.Proofs.Settling
import ShaderGraph.Proofs.Availability
import ShaderGraph.Proofs.Resolving
import ShaderGraph.Proofs.Building
import ShaderGraph.Proofs.Drafting
import ShaderGraph.Proofs.Exactness
import ShaderGraph.Proofs.Growth
import ShaderGraph.Proofs.WellTyped
import ShaderGraph.Proofs.Guards
import ShaderGraph.Proofs.Signatures
import ShaderGraph.Proofs.Switching
import ShaderGraph.Proofs.Effects
import ShaderGraph.Proofs.Consumers
import ShaderGraph.Proofs.Listing
import ShaderGraph.Proofs.Flow
import ShaderGraph.Proofs.Aliases
import ShaderGraph.Proofs.Widening
import ShaderGraph.Proofs.Atomicity
import ShaderGraph.Proofs.Additions
import ShaderGraph.Proofs.Failure
import ShaderGraph.Proofs.Unused
import ShaderGraph.Proofs.Lengths
import ShaderGraph.Proofs.Blanks
import ShaderGraph.Proofs.Strands
import ShaderGraph.Proofs.Scanning
import ShaderGraph.Proofs.Layouts
import ShaderGraph.Proofs.Accounting
import ShaderGraph.Proofs.Transparency
import ShaderGraph.Proofs.Locations
import ShaderGraph.Proofs.FirstWins
import ShaderGraph.Proofs.VaryingInputs
import ShaderGraph.Proofs.Samplers
import ShaderGraph.Proofs.Rearranging
import ShaderGraph.Proofs.Requests
import ShaderGraph.Proofs.Defines
import ShaderGraph.Proofs.Arrays
import ShaderGraph.Proofs.Lookup
import ShaderGraph.Proofs.Unguarded
import ShaderGraph.Proofs.Nesting
import ShaderGraph.Proofs.Separation
import ShaderGraph.Proofs.Runs
import ShaderGraph.Proofs.Normalizing
import ShaderGraph.Proofs.Finishing
import ShaderGraph.Proofs.FirstUse
import ShaderGraph.Proofs.Spelling
import ShaderGraph.Proofs.StageOutputs
import ShaderGraph.Proofs.Cutting
import ShaderGraph.Proofs.MappingLines
import ShaderGraph.Proofs.Joining
import ShaderGraph.Proofs.VariableLines
import ShaderGraph.Proofs.Swizzles
import ShaderGraph.Proofs.References
import ShaderGraph.Proofs.Spans
import ShaderGraph.Command
import ShaderGraph.Main
