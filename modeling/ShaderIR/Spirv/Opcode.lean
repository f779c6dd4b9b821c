import ShaderIR.Spirv.Names

/-!
# Opcodes

The opcodes that have a rule of their own; any other opcode of the standard is kept by its number.
-/

namespace ShaderIR.Spirv

/-- The operation of an instruction. -/
inductive Opcode where
  | opNop
  | opUndef
  | opSourceContinued
  | opSource
  | opSourceExtension
  | opName
  | opMemberName
  | opString
  | opLine
  | opExtension
  | opExtInstImport
  | opExtInst
  | opMemoryModel
  | opEntryPoint
  | opExecutionMode
  | opCapability
  | opTypeVoid
  | opTypeBool
  | opTypeInt
  | opTypeFloat
  | opTypeVector
  | opTypeMatrix
  | opTypeImage
  | opTypeSampler
  | opTypeSampledImage
  | opTypeArray
  | opTypeRuntimeArray
  | opTypeStruct
  | opTypeOpaque
  | opTypePointer
  | opTypeFunction
  | opTypeForwardPointer
  | opConstantTrue
  | opConstantFalse
  | opConstant
  | opConstantComposite
  | opConstantSampler
  | opConstantNull
  | opSpecConstantTrue
  | opSpecConstantFalse
  | opSpecConstant
  | opSpecConstantComposite
  | opSpecConstantOp
  | opFunction
  | opFunctionParameter
  | opFunctionEnd
  | opVariable
  | opLoad
  | opStore
  | opCopyMemory
  | opAccessChain
  | opInBoundsAccessChain
  | opDecorate
  | opMemberDecorate
  | opDecorationGroup
  | opGroupDecorate
  | opGroupMemberDecorate
  | opVectorExtractDynamic
  | opVectorInsertDynamic
  | opVectorShuffle
  | opCompositeConstruct
  | opCompositeExtract
  | opCompositeInsert
  | opCopyObject
  | opTranspose
  | opImageSampleImplicitLod
  | opImageSampleExplicitLod
  | opImageSampleDrefImplicitLod
  | opImageSampleDrefExplicitLod
  | opImageFetch
  | opConvertFToU
  | opConvertFToS
  | opConvertSToF
  | opConvertUToF
  | opUConvert
  | opSConvert
  | opFConvert
  | opBitcast
  | opSNegate
  | opFNegate
  | opIAdd
  | opFAdd
  | opISub
  | opFSub
  | opIMul
  | opFMul
  | opUDiv
  | opSDiv
  | opFDiv
  | opUMod
  | opSRem
  | opSMod
  | opFRem
  | opFMod
  | opVectorTimesScalar
  | opMatrixTimesScalar
  | opVectorTimesMatrix
  | opMatrixTimesVector
  | opMatrixTimesMatrix
  | opOuterProduct
  | opDot
  | opAny
  | opAll
  | opIsNan
  | opLogicalEqual
  | opLogicalNotEqual
  | opLogicalOr
  | opLogicalAnd
  | opLogicalNot
  | opSelect
  | opIEqual
  | opINotEqual
  | opUGreaterThan
  | opSGreaterThan
  | opUGreaterThanEqual
  | opSGreaterThanEqual
  | opULessThan
  | opSLessThan
  | opULessThanEqual
  | opSLessThanEqual
  | opFOrdEqual
  | opFUnordEqual
  | opFOrdNotEqual
  | opFUnordNotEqual
  | opFOrdLessThan
  | opFUnordLessThan
  | opFOrdGreaterThan
  | opFUnordGreaterThan
  | opFOrdLessThanEqual
  | opFUnordLessThanEqual
  | opFOrdGreaterThanEqual
  | opFUnordGreaterThanEqual
  | opShiftRightLogical
  | opShiftRightArithmetic
  | opShiftLeftLogical
  | opBitwiseOr
  | opBitwiseXor
  | opBitwiseAnd
  | opNot
  | opDPdx
  | opDPdy
  | opFwidth
  | opDPdxFine
  | opDPdyFine
  | opFwidthFine
  | opDPdxCoarse
  | opDPdyCoarse
  | opFwidthCoarse
  | opPhi
  | opLoopMerge
  | opSelectionMerge
  | opLabel
  | opBranch
  | opBranchConditional
  | opSwitch
  | opKill
  | opReturn
  | opReturnValue
  | opUnreachable
  | opNoLine
  | opModuleProcessed
  /-- An operation without a rule of its own. -/
  | other (number : Nat)
deriving DecidableEq, Repr

namespace Opcode

/-- The number of an opcode. -/
def number : Opcode → Nat
  | opNop => 0
  | opUndef => 1
  | opSourceContinued => 2
  | opSource => 3
  | opSourceExtension => 4
  | opName => 5
  | opMemberName => 6
  | opString => 7
  | opLine => 8
  | opExtension => 10
  | opExtInstImport => 11
  | opExtInst => 12
  | opMemoryModel => 14
  | opEntryPoint => 15
  | opExecutionMode => 16
  | opCapability => 17
  | opTypeVoid => 19
  | opTypeBool => 20
  | opTypeInt => 21
  | opTypeFloat => 22
  | opTypeVector => 23
  | opTypeMatrix => 24
  | opTypeImage => 25
  | opTypeSampler => 26
  | opTypeSampledImage => 27
  | opTypeArray => 28
  | opTypeRuntimeArray => 29
  | opTypeStruct => 30
  | opTypeOpaque => 31
  | opTypePointer => 32
  | opTypeFunction => 33
  | opTypeForwardPointer => 39
  | opConstantTrue => 41
  | opConstantFalse => 42
  | opConstant => 43
  | opConstantComposite => 44
  | opConstantSampler => 45
  | opConstantNull => 46
  | opSpecConstantTrue => 48
  | opSpecConstantFalse => 49
  | opSpecConstant => 50
  | opSpecConstantComposite => 51
  | opSpecConstantOp => 52
  | opFunction => 54
  | opFunctionParameter => 55
  | opFunctionEnd => 56
  | opVariable => 59
  | opLoad => 61
  | opStore => 62
  | opCopyMemory => 63
  | opAccessChain => 65
  | opInBoundsAccessChain => 66
  | opDecorate => 71
  | opMemberDecorate => 72
  | opDecorationGroup => 73
  | opGroupDecorate => 74
  | opGroupMemberDecorate => 75
  | opVectorExtractDynamic => 77
  | opVectorInsertDynamic => 78
  | opVectorShuffle => 79
  | opCompositeConstruct => 80
  | opCompositeExtract => 81
  | opCompositeInsert => 82
  | opCopyObject => 83
  | opTranspose => 84
  | opImageSampleImplicitLod => 87
  | opImageSampleExplicitLod => 88
  | opImageSampleDrefImplicitLod => 89
  | opImageSampleDrefExplicitLod => 90
  | opImageFetch => 95
  | opConvertFToU => 109
  | opConvertFToS => 110
  | opConvertSToF => 111
  | opConvertUToF => 112
  | opUConvert => 113
  | opSConvert => 114
  | opFConvert => 115
  | opBitcast => 124
  | opSNegate => 126
  | opFNegate => 127
  | opIAdd => 128
  | opFAdd => 129
  | opISub => 130
  | opFSub => 131
  | opIMul => 132
  | opFMul => 133
  | opUDiv => 134
  | opSDiv => 135
  | opFDiv => 136
  | opUMod => 137
  | opSRem => 138
  | opSMod => 139
  | opFRem => 140
  | opFMod => 141
  | opVectorTimesScalar => 142
  | opMatrixTimesScalar => 143
  | opVectorTimesMatrix => 144
  | opMatrixTimesVector => 145
  | opMatrixTimesMatrix => 146
  | opOuterProduct => 147
  | opDot => 148
  | opAny => 154
  | opAll => 155
  | opIsNan => 156
  | opLogicalEqual => 164
  | opLogicalNotEqual => 165
  | opLogicalOr => 166
  | opLogicalAnd => 167
  | opLogicalNot => 168
  | opSelect => 169
  | opIEqual => 170
  | opINotEqual => 171
  | opUGreaterThan => 172
  | opSGreaterThan => 173
  | opUGreaterThanEqual => 174
  | opSGreaterThanEqual => 175
  | opULessThan => 176
  | opSLessThan => 177
  | opULessThanEqual => 178
  | opSLessThanEqual => 179
  | opFOrdEqual => 180
  | opFUnordEqual => 181
  | opFOrdNotEqual => 182
  | opFUnordNotEqual => 183
  | opFOrdLessThan => 184
  | opFUnordLessThan => 185
  | opFOrdGreaterThan => 186
  | opFUnordGreaterThan => 187
  | opFOrdLessThanEqual => 188
  | opFUnordLessThanEqual => 189
  | opFOrdGreaterThanEqual => 190
  | opFUnordGreaterThanEqual => 191
  | opShiftRightLogical => 194
  | opShiftRightArithmetic => 195
  | opShiftLeftLogical => 196
  | opBitwiseOr => 197
  | opBitwiseXor => 198
  | opBitwiseAnd => 199
  | opNot => 200
  | opDPdx => 207
  | opDPdy => 208
  | opFwidth => 209
  | opDPdxFine => 210
  | opDPdyFine => 211
  | opFwidthFine => 212
  | opDPdxCoarse => 213
  | opDPdyCoarse => 214
  | opFwidthCoarse => 215
  | opPhi => 245
  | opLoopMerge => 246
  | opSelectionMerge => 247
  | opLabel => 248
  | opBranch => 249
  | opBranchConditional => 250
  | opSwitch => 251
  | opKill => 252
  | opReturn => 253
  | opReturnValue => 254
  | opUnreachable => 255
  | opNoLine => 317
  | opModuleProcessed => 330
  | other number => number

/-- The opcodes with rules of their own, in the order of their numbers. -/
def ruled : List Opcode :=
  [opNop, opUndef, opSourceContinued, opSource, opSourceExtension, opName, opMemberName,
   opString, opLine, opExtension, opExtInstImport, opExtInst, opMemoryModel, opEntryPoint,
   opExecutionMode, opCapability, opTypeVoid, opTypeBool, opTypeInt, opTypeFloat, opTypeVector,
   opTypeMatrix, opTypeImage, opTypeSampler, opTypeSampledImage, opTypeArray,
   opTypeRuntimeArray, opTypeStruct, opTypeOpaque, opTypePointer, opTypeFunction,
   opTypeForwardPointer, opConstantTrue, opConstantFalse, opConstant, opConstantComposite,
   opConstantSampler, opConstantNull, opSpecConstantTrue, opSpecConstantFalse, opSpecConstant,
   opSpecConstantComposite, opSpecConstantOp, opFunction, opFunctionParameter, opFunctionEnd,
   opVariable, opLoad, opStore, opCopyMemory, opAccessChain, opInBoundsAccessChain, opDecorate,
   opMemberDecorate, opDecorationGroup, opGroupDecorate, opGroupMemberDecorate,
   opVectorExtractDynamic, opVectorInsertDynamic, opVectorShuffle, opCompositeConstruct,
   opCompositeExtract, opCompositeInsert, opCopyObject, opTranspose, opImageSampleImplicitLod,
   opImageSampleExplicitLod, opImageSampleDrefImplicitLod, opImageSampleDrefExplicitLod,
   opImageFetch, opConvertFToU, opConvertFToS, opConvertSToF, opConvertUToF, opUConvert,
   opSConvert, opFConvert, opBitcast, opSNegate, opFNegate, opIAdd, opFAdd, opISub, opFSub,
   opIMul, opFMul, opUDiv, opSDiv, opFDiv, opUMod, opSRem, opSMod, opFRem, opFMod,
   opVectorTimesScalar, opMatrixTimesScalar, opVectorTimesMatrix, opMatrixTimesVector,
   opMatrixTimesMatrix, opOuterProduct, opDot, opAny, opAll, opIsNan, opLogicalEqual,
   opLogicalNotEqual, opLogicalOr, opLogicalAnd, opLogicalNot, opSelect, opIEqual, opINotEqual,
   opUGreaterThan, opSGreaterThan, opUGreaterThanEqual, opSGreaterThanEqual, opULessThan,
   opSLessThan, opULessThanEqual, opSLessThanEqual, opFOrdEqual, opFUnordEqual, opFOrdNotEqual,
   opFUnordNotEqual, opFOrdLessThan, opFUnordLessThan, opFOrdGreaterThan, opFUnordGreaterThan,
   opFOrdLessThanEqual, opFUnordLessThanEqual, opFOrdGreaterThanEqual, opFUnordGreaterThanEqual,
   opShiftRightLogical, opShiftRightArithmetic, opShiftLeftLogical, opBitwiseOr, opBitwiseXor,
   opBitwiseAnd, opNot, opDPdx, opDPdy, opFwidth, opDPdxFine, opDPdyFine, opFwidthFine,
   opDPdxCoarse, opDPdyCoarse, opFwidthCoarse, opPhi, opLoopMerge, opSelectionMerge, opLabel,
   opBranch, opBranchConditional, opSwitch, opKill, opReturn, opReturnValue, opUnreachable,
   opNoLine, opModuleProcessed]

/-- The opcode with a number, if the standard has one. -/
def ofNumber? (n : Nat) : Option Opcode :=
  match opcodeNames.lookup n with
  | none => none
  | some _ => some ((ruled.find? (·.number = n)).getD (other n))

/-- The name of an opcode. -/
def name (op : Opcode) : String := (opcodeNames.lookup op.number).getD ""

end Opcode

end ShaderIR.Spirv
