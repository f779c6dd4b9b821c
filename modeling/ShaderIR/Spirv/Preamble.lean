import ShaderIR.Spirv.Declaration.Annotation
import ShaderIR.Spirv.Declaration.Constant
import ShaderIR.Spirv.Declaration.Type
import ShaderIR.Spirv.Declaration.Variable

/-!
# The preamble

Everything before the first function: names, annotations, types, constants and the variables of the
module. The preamble ends at the first instruction that does not belong in it.
-/

namespace ShaderIR.Spirv.Preamble

/-- Handles the declaration of an entry point. -/
def entryPoint (i : RawInstruction) : Lower Unit := do
  let some model := ExecutionModel.ofNumber? (← Lower.operand i 0).toNat
    | throw (.invalidOperands i.op)
  let some stage := model.stage?
    | throw (.unsupported (.executionModel model))
  let function ← Lower.operand i 1
  let (name, _) ← Lower.ofExcept (i.literal 2)
  Lower.report (.entryPoint name stage function)
  modify fun c =>
    { c with
      stage := c.stage.or (some stage)
      entryPoints := c.entryPoints ++ [{ name, stage, function }] }

/-- Handles one instruction of the preamble and answers whether it belonged there. -/
def instruction (i : RawInstruction) : Lower Bool := do
  match i.op with
  | .opNop | .opSource | .opSourceContinued | .opSourceExtension | .opExtension | .opCapability
  | .opMemoryModel | .opExecutionMode | .opModuleProcessed | .opLine | .opNoLine =>
    Lower.report (.ignoredInstruction i.op)
    return true
  | .opString =>
    let (text, _) ← Lower.ofExcept (i.literal 1)
    Lower.define (← Lower.operand i 0) (.string text)
    return true
  | .opName =>
    let (name, _) ← Lower.ofExcept (i.literal 1)
    let target ← Lower.operand i 0
    Lower.updateIds (·.setName target name)
    return true
  | .opMemberName =>
    let (name, _) ← Lower.ofExcept (i.literal 2)
    let target ← Lower.operand i 0
    let member ← Lower.operand i 1
    Lower.updateIds (·.setMemberName target member name)
    return true
  | .opExtInstImport =>
    let (name, _) ← Lower.ofExcept (i.literal 1)
    Lower.define (← Lower.operand i 0) (.extensionImport (.ofName name))
    return true
  | .opEntryPoint =>
    entryPoint i
    return true
  | .opDecorate | .opMemberDecorate | .opDecorationGroup | .opGroupDecorate
  | .opGroupMemberDecorate =>
    Declaration.annotation i
    return true
  | .opTypeVoid | .opTypeBool | .opTypeInt | .opTypeFloat | .opTypeVector | .opTypeMatrix
  | .opTypeImage | .opTypeSampledImage | .opTypeArray | .opTypeStruct | .opTypeFunction
  | .opTypePointer =>
    Declaration.type i
    return true
  | .opConstantTrue | .opConstantFalse | .opConstant | .opConstantComposite | .opConstantNull
  | .opSpecConstantTrue | .opSpecConstantFalse | .opSpecConstant | .opSpecConstantComposite =>
    Declaration.constant i
    return true
  | .opUndef =>
    Declaration.zeroConstant i
    return true
  | .opVariable =>
    Declaration.variableDeclaration false i
    return true
  | .opTypeSampler | .opTypeRuntimeArray | .opTypeOpaque | .opTypeForwardPointer
  | .opConstantSampler | .opSpecConstantOp => throw (.unsupportedOpcode i.op)
  | _ => return false

/-- Handles one instruction of the preamble and reports it. -/
def reported (i : RawInstruction) : Lower Bool := do
  let belongs ← instruction i
  if belongs then Lower.report (.instruction i.op i.length)
  return belongs

end ShaderIR.Spirv.Preamble
