import ShaderIR.Spirv.Code.Arithmetic
import ShaderIR.Spirv.Code.Composite
import ShaderIR.Spirv.Code.Extended
import ShaderIR.Spirv.Code.Matrix
import ShaderIR.Spirv.Code.Memory
import ShaderIR.Spirv.Code.Phi
import ShaderIR.Spirv.Code.Texture
import ShaderIR.Spirv.Declaration.Variable

/-!
# Instructions of a block

What each instruction in the body of a block puts into the function under construction.
-/

namespace ShaderIR.Spirv.Body

/-- A value that may be anything. -/
def undef (i : RawInstruction) : Emit Unit := do
  let ty ← Lower.typeOperand i 0
  let tree ← Emit.treeOfType (fun lanes => Emit.instruction (.undef lanes)) ty
  Lower.define (← Lower.operand i 1) (.tree tree)

/-- Handles one instruction of a block that continues the block labelled `before`, if any. -/
def instruction (before : Option Id) (i : RawInstruction) : Emit Unit := do
  match i.op with
  | .opNop | .opLine | .opNoLine => pure ()
  | .opUndef => undef i
  | .opVariable => Declaration.variableDeclaration true i
  | .opAccessChain | .opInBoundsAccessChain => Code.accessChain i
  | .opLoad => Code.load i
  | .opStore => Code.store i
  | .opCopyMemory => Code.copyMemory i
  | .opPhi => Code.phi before i
  | .opCompositeConstruct | .opCompositeExtract | .opCompositeInsert | .opVectorShuffle
  | .opVectorExtractDynamic | .opVectorInsertDynamic | .opCopyObject => Code.composite i
  | .opTranspose | .opMatrixTimesScalar | .opVectorTimesMatrix | .opMatrixTimesVector
  | .opMatrixTimesMatrix | .opOuterProduct => Code.matrix i
  | .opImageSampleImplicitLod | .opImageSampleExplicitLod | .opImageSampleDrefImplicitLod
  | .opImageSampleDrefExplicitLod | .opImageFetch => Code.texture i
  | .opExtInst => Code.extended i
  | op =>
    match Code.AluRule.ofOpcode? op with
    | some rule => Code.arithmetic rule i
    | none => throw (.unsupportedOpcode op)

/-- Reports one instruction and handles it. -/
def reported (before : Option Id) (i : RawInstruction) : Emit Unit := do
  Lower.report (.instruction i.op i.length)
  instruction before i

/-- Handles the instructions of a block in order. -/
def instructions (before : Option Id) (is : List RawInstruction) : Emit Unit :=
  is.forM (reported before)

end ShaderIR.Spirv.Body
