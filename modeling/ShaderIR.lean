import ShaderIR.Evaluate
import ShaderIR.Log
import ShaderIR.Main
import ShaderIR.Spirv.Assembler
import ShaderIR.Spirv.Code.Arithmetic
import ShaderIR.Spirv.Code.Composite
import ShaderIR.Spirv.Code.Extended
import ShaderIR.Spirv.Code.Matrix
import ShaderIR.Spirv.Code.Memory
import ShaderIR.Spirv.Code.Texture
import ShaderIR.Spirv.Enumerant
import ShaderIR.Spirv.Lowering
import ShaderIR.Spirv.Opcode
import ShaderIR.Spirv.Preamble
import ShaderIR.Spirv.Read
import ShaderIR.Spirv.Stream
import ShaderIR.Text
import ShaderIR.Validate
import ShaderIR.Proofs.Paths
import ShaderIR.Proofs.Phis
import ShaderIR.Proofs.Supply
import ShaderIR.Proofs.Problems
import ShaderIR.Proofs.Validity
import ShaderIR.Proofs.Matching
import ShaderIR.Proofs.Agreement
import ShaderIR.Proofs.Meanings
import ShaderIR.Proofs.Calls
import ShaderIR.Proofs.Positions
import ShaderIR.Proofs.Termination
import ShaderIR.Proofs.Once
import ShaderIR.Proofs.Coverage
import ShaderIR.Proofs.Slots
import ShaderIR.Proofs.Access
import ShaderIR.Proofs.RoundTrip
import ShaderIR.Proofs.Copying
import ShaderIR.Proofs.Computes
import ShaderIR.Proofs.FloatSum
import ShaderIR.Proofs.Transposes
import ShaderIR.Proofs.Products
import ShaderIR.Proofs.Arrivals
import ShaderIR.Proofs.Availability
import ShaderIR.Proofs.Listing
import ShaderIR.Proofs.Lines
import ShaderIR.Proofs.Nameless
import ShaderIR.Proofs.Widths
import ShaderIR.Proofs.Handover
import ShaderIR.Proofs.Ownership
import ShaderIR.Proofs.Reuse
import ShaderIR.Proofs.Assembling
import ShaderIR.Proofs.Executes
import ShaderIR.Proofs.Updates
import ShaderIR.Proofs.LaneCells
import ShaderIR.Proofs.Referents
import ShaderIR.Proofs.Lookups
import ShaderIR.Proofs.Representation
import ShaderIR.Proofs.Decorations
import ShaderIR.Proofs.TreeShapes
import ShaderIR.Proofs.Operands
import ShaderIR.Proofs.IntegerMeaning
import ShaderIR.Proofs.StepLimit
import ShaderIR.Proofs.BlockCode
import ShaderIR.Proofs.FloatComparison
import ShaderIR.Proofs.Interning
import ShaderIR.Proofs.StreamWalk
import ShaderIR.Proofs.Literals
import ShaderIR.Proofs.Building
