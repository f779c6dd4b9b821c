/-!
# Names of numbered words

The standard numbers its opcodes, storage classes, decorations, image dimensions and execution
models. A number that is not listed here means nothing.
-/

namespace ShaderIR.Spirv

/-- Names in a row stand for numbers in a row. -/
def numbered (rows : List (Nat × List String)) : List (Nat × String) :=
  rows.flatMap fun (first, names) => (names.zipIdx first).map Prod.swap

/-- The names of the opcodes of the core. -/
def coreOpcodeNames : List (Nat × String) := numbered
  [(0, ["Nop", "Undef", "SourceContinued", "Source", "SourceExtension", "Name", "MemberName",
   "String", "Line"]), (10, ["Extension", "ExtInstImport", "ExtInst"]), (14, ["MemoryModel",
   "EntryPoint", "ExecutionMode", "Capability"]), (19, ["TypeVoid", "TypeBool", "TypeInt",
   "TypeFloat", "TypeVector", "TypeMatrix", "TypeImage", "TypeSampler", "TypeSampledImage",
   "TypeArray", "TypeRuntimeArray", "TypeStruct", "TypeOpaque", "TypePointer", "TypeFunction",
   "TypeEvent", "TypeDeviceEvent", "TypeReserveId", "TypeQueue", "TypePipe", "TypeForwardPointer"]),
   (41, ["ConstantTrue", "ConstantFalse", "Constant", "ConstantComposite", "ConstantSampler",
   "ConstantNull"]), (48, ["SpecConstantTrue", "SpecConstantFalse", "SpecConstant",
   "SpecConstantComposite", "SpecConstantOp"]), (54, ["Function", "FunctionParameter",
   "FunctionEnd", "FunctionCall"]), (59, ["Variable", "ImageTexelPointer", "Load", "Store",
   "CopyMemory", "CopyMemorySized", "AccessChain", "InBoundsAccessChain", "PtrAccessChain",
   "ArrayLength", "GenericPtrMemSemantics", "InBoundsPtrAccessChain", "Decorate", "MemberDecorate",
   "DecorationGroup", "GroupDecorate", "GroupMemberDecorate"]), (77, ["VectorExtractDynamic",
   "VectorInsertDynamic", "VectorShuffle", "CompositeConstruct", "CompositeExtract",
   "CompositeInsert", "CopyObject", "Transpose"]), (86, ["SampledImage", "ImageSampleImplicitLod",
   "ImageSampleExplicitLod", "ImageSampleDrefImplicitLod", "ImageSampleDrefExplicitLod",
   "ImageSampleProjImplicitLod", "ImageSampleProjExplicitLod", "ImageSampleProjDrefImplicitLod",
   "ImageSampleProjDrefExplicitLod", "ImageFetch", "ImageGather", "ImageDrefGather", "ImageRead",
   "ImageWrite", "Image", "ImageQueryFormat", "ImageQueryOrder", "ImageQuerySizeLod",
   "ImageQuerySize", "ImageQueryLod", "ImageQueryLevels", "ImageQuerySamples"]),
   (109, ["ConvertFToU", "ConvertFToS", "ConvertSToF", "ConvertUToF", "UConvert", "SConvert",
   "FConvert", "QuantizeToF16", "ConvertPtrToU", "SatConvertSToU", "SatConvertUToS",
   "ConvertUToPtr", "PtrCastToGeneric", "GenericCastToPtr", "GenericCastToPtrExplicit", "Bitcast"]),
   (126, ["SNegate", "FNegate", "IAdd", "FAdd", "ISub", "FSub", "IMul", "FMul", "UDiv", "SDiv",
   "FDiv", "UMod", "SRem", "SMod", "FRem", "FMod", "VectorTimesScalar", "MatrixTimesScalar",
   "VectorTimesMatrix", "MatrixTimesVector", "MatrixTimesMatrix", "OuterProduct", "Dot",
   "IAddCarry", "ISubBorrow", "UMulExtended", "SMulExtended"]), (154, ["Any", "All", "IsNan",
   "IsInf", "IsFinite", "IsNormal", "SignBitSet", "LessOrGreater", "Ordered", "Unordered",
   "LogicalEqual", "LogicalNotEqual", "LogicalOr", "LogicalAnd", "LogicalNot", "Select", "IEqual",
   "INotEqual", "UGreaterThan", "SGreaterThan", "UGreaterThanEqual", "SGreaterThanEqual",
   "ULessThan", "SLessThan", "ULessThanEqual", "SLessThanEqual", "FOrdEqual", "FUnordEqual",
   "FOrdNotEqual", "FUnordNotEqual", "FOrdLessThan", "FUnordLessThan", "FOrdGreaterThan",
   "FUnordGreaterThan", "FOrdLessThanEqual", "FUnordLessThanEqual", "FOrdGreaterThanEqual",
   "FUnordGreaterThanEqual"]), (194, ["ShiftRightLogical", "ShiftRightArithmetic",
   "ShiftLeftLogical", "BitwiseOr", "BitwiseXor", "BitwiseAnd", "Not", "BitFieldInsert",
   "BitFieldSExtract", "BitFieldUExtract", "BitReverse", "BitCount"]), (207, ["DPdx", "DPdy",
   "Fwidth", "DPdxFine", "DPdyFine", "FwidthFine", "DPdxCoarse", "DPdyCoarse", "FwidthCoarse"]),
   (218, ["EmitVertex", "EndPrimitive", "EmitStreamVertex", "EndStreamPrimitive"]),
   (224, ["ControlBarrier", "MemoryBarrier"]), (227, ["AtomicLoad", "AtomicStore", "AtomicExchange",
   "AtomicCompareExchange", "AtomicCompareExchangeWeak", "AtomicIIncrement", "AtomicIDecrement",
   "AtomicIAdd", "AtomicISub", "AtomicSMin", "AtomicUMin", "AtomicSMax", "AtomicUMax", "AtomicAnd",
   "AtomicOr", "AtomicXor"]), (245, ["Phi", "LoopMerge", "SelectionMerge", "Label", "Branch",
   "BranchConditional", "Switch", "Kill", "Return", "ReturnValue", "Unreachable", "LifetimeStart",
   "LifetimeStop"]), (259, ["GroupAsyncCopy", "GroupWaitEvents", "GroupAll", "GroupAny",
   "GroupBroadcast", "GroupIAdd", "GroupFAdd", "GroupFMin", "GroupUMin", "GroupSMin", "GroupFMax",
   "GroupUMax", "GroupSMax"]), (274, ["ReadPipe", "WritePipe", "ReservedReadPipe",
   "ReservedWritePipe", "ReserveReadPipePackets", "ReserveWritePipePackets", "CommitReadPipe",
   "CommitWritePipe", "IsValidReserveId", "GetNumPipePackets", "GetMaxPipePackets",
   "GroupReserveReadPipePackets", "GroupReserveWritePipePackets", "GroupCommitReadPipe",
   "GroupCommitWritePipe"]), (291, ["EnqueueMarker", "EnqueueKernel",
   "GetKernelNDrangeSubGroupCount", "GetKernelNDrangeMaxSubGroupSize", "GetKernelWorkGroupSize",
   "GetKernelPreferredWorkGroupSizeMultiple", "RetainEvent", "ReleaseEvent", "CreateUserEvent",
   "IsValidEvent", "SetUserEventStatus", "CaptureEventProfilingInfo", "GetDefaultQueue",
   "BuildNDRange", "ImageSparseSampleImplicitLod", "ImageSparseSampleExplicitLod",
   "ImageSparseSampleDrefImplicitLod", "ImageSparseSampleDrefExplicitLod",
   "ImageSparseSampleProjImplicitLod", "ImageSparseSampleProjExplicitLod",
   "ImageSparseSampleProjDrefImplicitLod", "ImageSparseSampleProjDrefExplicitLod",
   "ImageSparseFetch", "ImageSparseGather", "ImageSparseDrefGather", "ImageSparseTexelsResident",
   "NoLine", "AtomicFlagTestAndSet", "AtomicFlagClear", "ImageSparseRead", "SizeOf",
   "TypePipeStorage", "ConstantPipeStorage", "CreatePipeFromPipeStorage",
   "GetKernelLocalSizeForSubgroupCount", "GetKernelMaxNumSubgroups", "TypeNamedBarrier",
   "NamedBarrierInitialize", "MemoryNamedBarrier", "ModuleProcessed", "ExecutionModeId",
   "DecorateId", "GroupNonUniformElect", "GroupNonUniformAll", "GroupNonUniformAny",
   "GroupNonUniformAllEqual", "GroupNonUniformBroadcast", "GroupNonUniformBroadcastFirst",
   "GroupNonUniformBallot", "GroupNonUniformInverseBallot", "GroupNonUniformBallotBitExtract",
   "GroupNonUniformBallotBitCount", "GroupNonUniformBallotFindLSB", "GroupNonUniformBallotFindMSB",
   "GroupNonUniformShuffle", "GroupNonUniformShuffleXor", "GroupNonUniformShuffleUp",
   "GroupNonUniformShuffleDown", "GroupNonUniformIAdd", "GroupNonUniformFAdd",
   "GroupNonUniformIMul", "GroupNonUniformFMul", "GroupNonUniformSMin", "GroupNonUniformUMin",
   "GroupNonUniformFMin", "GroupNonUniformSMax", "GroupNonUniformUMax", "GroupNonUniformFMax",
   "GroupNonUniformBitwiseAnd", "GroupNonUniformBitwiseOr", "GroupNonUniformBitwiseXor",
   "GroupNonUniformLogicalAnd", "GroupNonUniformLogicalOr", "GroupNonUniformLogicalXor",
   "GroupNonUniformQuadBroadcast", "GroupNonUniformQuadSwap"]), (400, ["CopyLogical", "PtrEqual",
   "PtrNotEqual", "PtrDiff"])]

/-- The names of the opcodes of extensions below 5700. -/
def extensionOpcodeNames : List (Nat × String) := numbered
  [(4160, ["ColorAttachmentReadEXT", "DepthAttachmentReadEXT", "StencilAttachmentReadEXT"]),
   (4416, ["TerminateInvocation"]), (4421, ["SubgroupBallotKHR", "SubgroupFirstInvocationKHR"]),
   (4428, ["SubgroupAllKHR", "SubgroupAnyKHR", "SubgroupAllEqualKHR", "GroupNonUniformRotateKHR",
   "SubgroupReadInvocationKHR"]), (4445, ["TraceRayKHR", "ExecuteCallableKHR",
   "ConvertUToAccelerationStructureKHR", "IgnoreIntersectionKHR", "TerminateRayKHR", "SDot", "UDot",
   "SUDot", "SDotAccSat", "UDotAccSat", "SUDotAccSat", "TypeCooperativeMatrixKHR",
   "CooperativeMatrixLoadKHR", "CooperativeMatrixStoreKHR", "CooperativeMatrixMulAddKHR",
   "CooperativeMatrixLengthKHR"]), (4472, ["TypeRayQueryKHR", "RayQueryInitializeKHR",
   "RayQueryTerminateKHR", "RayQueryGenerateIntersectionKHR", "RayQueryConfirmIntersectionKHR",
   "RayQueryProceedKHR"]), (4479, ["RayQueryGetIntersectionTypeKHR", "ImageSampleWeightedQCOM",
   "ImageBoxFilterQCOM", "ImageBlockMatchSSDQCOM", "ImageBlockMatchSADQCOM"]),
   (5000, ["GroupIAddNonUniformAMD", "GroupFAddNonUniformAMD", "GroupFMinNonUniformAMD",
   "GroupUMinNonUniformAMD", "GroupSMinNonUniformAMD", "GroupFMaxNonUniformAMD",
   "GroupUMaxNonUniformAMD", "GroupSMaxNonUniformAMD"]), (5011, ["FragmentMaskFetchAMD",
   "FragmentFetchAMD"]), (5056, ["ReadClockKHR"]), (5075, ["FinalizeNodePayloadsAMDX"]),
   (5078, ["FinishWritingNodePayloadAMDX"]), (5090, ["InitializeNodePayloadsAMDX"]),
   (5249, ["HitObjectRecordHitMotionNV", "HitObjectRecordHitWithIndexMotionNV",
   "HitObjectRecordMissMotionNV", "HitObjectGetWorldToObjectNV", "HitObjectGetObjectToWorldNV",
   "HitObjectGetObjectRayDirectionNV", "HitObjectGetObjectRayOriginNV", "HitObjectTraceRayMotionNV",
   "HitObjectGetShaderRecordBufferHandleNV", "HitObjectGetShaderBindingTableRecordIndexNV",
   "HitObjectRecordEmptyNV", "HitObjectTraceRayNV", "HitObjectRecordHitNV",
   "HitObjectRecordHitWithIndexNV", "HitObjectRecordMissNV", "HitObjectExecuteShaderNV",
   "HitObjectGetCurrentTimeNV", "HitObjectGetAttributesNV", "HitObjectGetHitKindNV",
   "HitObjectGetPrimitiveIndexNV", "HitObjectGetGeometryIndexNV", "HitObjectGetInstanceIdNV",
   "HitObjectGetInstanceCustomIndexNV", "HitObjectGetWorldRayDirectionNV",
   "HitObjectGetWorldRayOriginNV", "HitObjectGetRayTMaxNV", "HitObjectGetRayTMinNV",
   "HitObjectIsEmptyNV", "HitObjectIsHitNV", "HitObjectIsMissNV", "ReorderThreadWithHitObjectNV",
   "ReorderThreadWithHintNV", "TypeHitObjectNV"]), (5283, ["ImageSampleFootprintNV"]),
   (5294, ["EmitMeshTasksEXT", "SetMeshOutputsEXT", "GroupNonUniformPartitionNV"]),
   (5299, ["WritePackedPrimitiveIndices4x8NV", "FetchMicroTriangleVertexPositionNV",
   "FetchMicroTriangleVertexBarycentricNV"]), (5334, ["ReportIntersectionKHR",
   "IgnoreIntersectionNV", "TerminateRayNV", "TraceNV", "TraceMotionNV", "TraceRayMotionNV",
   "RayQueryGetIntersectionTriangleVertexPositionsKHR", "TypeAccelerationStructureKHR"]),
   (5344, ["ExecuteCallableNV"]), (5358, ["TypeCooperativeMatrixNV", "CooperativeMatrixLoadNV",
   "CooperativeMatrixStoreNV", "CooperativeMatrixMulAddNV", "CooperativeMatrixLengthNV"]),
   (5364, ["BeginInvocationInterlockEXT", "EndInvocationInterlockEXT"]),
   (5380, ["DemoteToHelperInvocation", "IsHelperInvocationEXT"]), (5391, ["ConvertUToImageNV",
   "ConvertUToSamplerNV", "ConvertImageToUNV", "ConvertSamplerToUNV", "ConvertUToSampledImageNV",
   "ConvertSampledImageToUNV", "SamplerImageAddressingModeNV"]), (5571, ["SubgroupShuffleINTEL",
   "SubgroupShuffleDownINTEL", "SubgroupShuffleUpINTEL", "SubgroupShuffleXorINTEL",
   "SubgroupBlockReadINTEL", "SubgroupBlockWriteINTEL", "SubgroupImageBlockReadINTEL",
   "SubgroupImageBlockWriteINTEL"]), (5580, ["SubgroupImageMediaBlockReadINTEL",
   "SubgroupImageMediaBlockWriteINTEL"]), (5585, ["UCountLeadingZerosINTEL",
   "UCountTrailingZerosINTEL", "AbsISubINTEL", "AbsUSubINTEL", "IAddSatINTEL", "UAddSatINTEL",
   "IAverageINTEL", "UAverageINTEL", "IAverageRoundedINTEL", "UAverageRoundedINTEL", "ISubSatINTEL",
   "USubSatINTEL", "IMul32x16INTEL", "UMul32x16INTEL"]), (5600, ["ConstantFunctionPointerINTEL",
   "FunctionPointerCallINTEL"]), (5609, ["AsmTargetINTEL", "AsmINTEL", "AsmCallINTEL"]),
   (5614, ["AtomicFMinEXT", "AtomicFMaxEXT"]), (5630, ["AssumeTrueKHR", "ExpectKHR",
   "DecorateString", "MemberDecorateString"])]

/-- The names of the opcodes for motion estimation. -/
def motionOpcodeNames : List (Nat × String) := numbered
  [(5699, ["VmeImageINTEL", "TypeVmeImageINTEL", "TypeAvcImePayloadINTEL", "TypeAvcRefPayloadINTEL",
   "TypeAvcSicPayloadINTEL", "TypeAvcMcePayloadINTEL", "TypeAvcMceResultINTEL",
   "TypeAvcImeResultINTEL", "TypeAvcImeResultSingleReferenceStreamoutINTEL",
   "TypeAvcImeResultDualReferenceStreamoutINTEL", "TypeAvcImeSingleReferenceStreaminINTEL",
   "TypeAvcImeDualReferenceStreaminINTEL", "TypeAvcRefResultINTEL", "TypeAvcSicResultINTEL",
   "SubgroupAvcMceGetDefaultInterBaseMultiReferencePenaltyINTEL",
   "SubgroupAvcMceSetInterBaseMultiReferencePenaltyINTEL",
   "SubgroupAvcMceGetDefaultInterShapePenaltyINTEL", "SubgroupAvcMceSetInterShapePenaltyINTEL",
   "SubgroupAvcMceGetDefaultInterDirectionPenaltyINTEL",
   "SubgroupAvcMceSetInterDirectionPenaltyINTEL",
   "SubgroupAvcMceGetDefaultIntraLumaShapePenaltyINTEL",
   "SubgroupAvcMceGetDefaultInterMotionVectorCostTableINTEL",
   "SubgroupAvcMceGetDefaultHighPenaltyCostTableINTEL",
   "SubgroupAvcMceGetDefaultMediumPenaltyCostTableINTEL",
   "SubgroupAvcMceGetDefaultLowPenaltyCostTableINTEL",
   "SubgroupAvcMceSetMotionVectorCostFunctionINTEL",
   "SubgroupAvcMceGetDefaultIntraLumaModePenaltyINTEL",
   "SubgroupAvcMceGetDefaultNonDcLumaIntraPenaltyINTEL",
   "SubgroupAvcMceGetDefaultIntraChromaModeBasePenaltyINTEL", "SubgroupAvcMceSetAcOnlyHaarINTEL",
   "SubgroupAvcMceSetSourceInterlacedFieldPolarityINTEL",
   "SubgroupAvcMceSetSingleReferenceInterlacedFieldPolarityINTEL",
   "SubgroupAvcMceSetDualReferenceInterlacedFieldPolaritiesINTEL",
   "SubgroupAvcMceConvertToImePayloadINTEL", "SubgroupAvcMceConvertToImeResultINTEL",
   "SubgroupAvcMceConvertToRefPayloadINTEL", "SubgroupAvcMceConvertToRefResultINTEL",
   "SubgroupAvcMceConvertToSicPayloadINTEL", "SubgroupAvcMceConvertToSicResultINTEL",
   "SubgroupAvcMceGetMotionVectorsINTEL", "SubgroupAvcMceGetInterDistortionsINTEL",
   "SubgroupAvcMceGetBestInterDistortionsINTEL", "SubgroupAvcMceGetInterMajorShapeINTEL",
   "SubgroupAvcMceGetInterMinorShapeINTEL", "SubgroupAvcMceGetInterDirectionsINTEL",
   "SubgroupAvcMceGetInterMotionVectorCountINTEL", "SubgroupAvcMceGetInterReferenceIdsINTEL",
   "SubgroupAvcMceGetInterReferenceInterlacedFieldPolaritiesINTEL", "SubgroupAvcImeInitializeINTEL",
   "SubgroupAvcImeSetSingleReferenceINTEL", "SubgroupAvcImeSetDualReferenceINTEL",
   "SubgroupAvcImeRefWindowSizeINTEL", "SubgroupAvcImeAdjustRefOffsetINTEL",
   "SubgroupAvcImeConvertToMcePayloadINTEL", "SubgroupAvcImeSetMaxMotionVectorCountINTEL",
   "SubgroupAvcImeSetUnidirectionalMixDisableINTEL",
   "SubgroupAvcImeSetEarlySearchTerminationThresholdINTEL", "SubgroupAvcImeSetWeightedSadINTEL",
   "SubgroupAvcImeEvaluateWithSingleReferenceINTEL", "SubgroupAvcImeEvaluateWithDualReferenceINTEL",
   "SubgroupAvcImeEvaluateWithSingleReferenceStreaminINTEL",
   "SubgroupAvcImeEvaluateWithDualReferenceStreaminINTEL",
   "SubgroupAvcImeEvaluateWithSingleReferenceStreamoutINTEL",
   "SubgroupAvcImeEvaluateWithDualReferenceStreamoutINTEL",
   "SubgroupAvcImeEvaluateWithSingleReferenceStreaminoutINTEL",
   "SubgroupAvcImeEvaluateWithDualReferenceStreaminoutINTEL",
   "SubgroupAvcImeConvertToMceResultINTEL", "SubgroupAvcImeGetSingleReferenceStreaminINTEL",
   "SubgroupAvcImeGetDualReferenceStreaminINTEL",
   "SubgroupAvcImeStripSingleReferenceStreamoutINTEL",
   "SubgroupAvcImeStripDualReferenceStreamoutINTEL",
   "SubgroupAvcImeGetStreamoutSingleReferenceMajorShapeMotionVectorsINTEL",
   "SubgroupAvcImeGetStreamoutSingleReferenceMajorShapeDistortionsINTEL",
   "SubgroupAvcImeGetStreamoutSingleReferenceMajorShapeReferenceIdsINTEL",
   "SubgroupAvcImeGetStreamoutDualReferenceMajorShapeMotionVectorsINTEL",
   "SubgroupAvcImeGetStreamoutDualReferenceMajorShapeDistortionsINTEL",
   "SubgroupAvcImeGetStreamoutDualReferenceMajorShapeReferenceIdsINTEL",
   "SubgroupAvcImeGetBorderReachedINTEL", "SubgroupAvcImeGetTruncatedSearchIndicationINTEL",
   "SubgroupAvcImeGetUnidirectionalEarlySearchTerminationINTEL",
   "SubgroupAvcImeGetWeightingPatternMinimumMotionVectorINTEL",
   "SubgroupAvcImeGetWeightingPatternMinimumDistortionINTEL", "SubgroupAvcFmeInitializeINTEL",
   "SubgroupAvcBmeInitializeINTEL", "SubgroupAvcRefConvertToMcePayloadINTEL",
   "SubgroupAvcRefSetBidirectionalMixDisableINTEL", "SubgroupAvcRefSetBilinearFilterEnableINTEL",
   "SubgroupAvcRefEvaluateWithSingleReferenceINTEL", "SubgroupAvcRefEvaluateWithDualReferenceINTEL",
   "SubgroupAvcRefEvaluateWithMultiReferenceINTEL",
   "SubgroupAvcRefEvaluateWithMultiReferenceInterlacedINTEL",
   "SubgroupAvcRefConvertToMceResultINTEL", "SubgroupAvcSicInitializeINTEL",
   "SubgroupAvcSicConfigureSkcINTEL", "SubgroupAvcSicConfigureIpeLumaINTEL",
   "SubgroupAvcSicConfigureIpeLumaChromaINTEL", "SubgroupAvcSicGetMotionVectorMaskINTEL",
   "SubgroupAvcSicConvertToMcePayloadINTEL", "SubgroupAvcSicSetIntraLumaShapePenaltyINTEL",
   "SubgroupAvcSicSetIntraLumaModeCostFunctionINTEL",
   "SubgroupAvcSicSetIntraChromaModeCostFunctionINTEL",
   "SubgroupAvcSicSetBilinearFilterEnableINTEL", "SubgroupAvcSicSetSkcForwardTransformEnableINTEL",
   "SubgroupAvcSicSetBlockBasedRawSkipSadINTEL", "SubgroupAvcSicEvaluateIpeINTEL",
   "SubgroupAvcSicEvaluateWithSingleReferenceINTEL", "SubgroupAvcSicEvaluateWithDualReferenceINTEL",
   "SubgroupAvcSicEvaluateWithMultiReferenceINTEL",
   "SubgroupAvcSicEvaluateWithMultiReferenceInterlacedINTEL",
   "SubgroupAvcSicConvertToMceResultINTEL", "SubgroupAvcSicGetIpeLumaShapeINTEL",
   "SubgroupAvcSicGetBestIpeLumaDistortionINTEL", "SubgroupAvcSicGetBestIpeChromaDistortionINTEL",
   "SubgroupAvcSicGetPackedIpeLumaModesINTEL", "SubgroupAvcSicGetIpeChromaModeINTEL",
   "SubgroupAvcSicGetPackedSkcLumaCountThresholdINTEL",
   "SubgroupAvcSicGetPackedSkcLumaSumThresholdINTEL", "SubgroupAvcSicGetInterRawSadsINTEL"])]

/-- The names of the opcodes of extensions from 5818 on. -/
def vendorOpcodeNames : List (Nat × String) := numbered
  [(5818, ["VariableLengthArrayINTEL", "SaveMemoryINTEL", "RestoreMemoryINTEL"]),
   (5840, ["ArbitraryFloatSinCosPiINTEL", "ArbitraryFloatCastINTEL",
   "ArbitraryFloatCastFromIntINTEL", "ArbitraryFloatCastToIntINTEL"]),
   (5846, ["ArbitraryFloatAddINTEL", "ArbitraryFloatSubINTEL", "ArbitraryFloatMulINTEL",
   "ArbitraryFloatDivINTEL", "ArbitraryFloatGTINTEL", "ArbitraryFloatGEINTEL",
   "ArbitraryFloatLTINTEL", "ArbitraryFloatLEINTEL", "ArbitraryFloatEQINTEL",
   "ArbitraryFloatRecipINTEL", "ArbitraryFloatRSqrtINTEL", "ArbitraryFloatCbrtINTEL",
   "ArbitraryFloatHypotINTEL", "ArbitraryFloatSqrtINTEL", "ArbitraryFloatLogINTEL",
   "ArbitraryFloatLog2INTEL", "ArbitraryFloatLog10INTEL", "ArbitraryFloatLog1pINTEL",
   "ArbitraryFloatExpINTEL", "ArbitraryFloatExp2INTEL", "ArbitraryFloatExp10INTEL",
   "ArbitraryFloatExpm1INTEL", "ArbitraryFloatSinINTEL", "ArbitraryFloatCosINTEL",
   "ArbitraryFloatSinCosINTEL", "ArbitraryFloatSinPiINTEL", "ArbitraryFloatCosPiINTEL",
   "ArbitraryFloatASinINTEL", "ArbitraryFloatASinPiINTEL", "ArbitraryFloatACosINTEL",
   "ArbitraryFloatACosPiINTEL", "ArbitraryFloatATanINTEL", "ArbitraryFloatATanPiINTEL",
   "ArbitraryFloatATan2INTEL", "ArbitraryFloatPowINTEL", "ArbitraryFloatPowRINTEL",
   "ArbitraryFloatPowNINTEL"]), (5887, ["LoopControlINTEL"]), (5911, ["AliasDomainDeclINTEL",
   "AliasScopeDeclINTEL", "AliasScopeListDeclINTEL"]), (5923, ["FixedSqrtINTEL", "FixedRecipINTEL",
   "FixedRsqrtINTEL", "FixedSinINTEL", "FixedCosINTEL", "FixedSinCosINTEL", "FixedSinPiINTEL",
   "FixedCosPiINTEL", "FixedSinCosPiINTEL", "FixedLogINTEL", "FixedExpINTEL",
   "PtrCastToCrossWorkgroupINTEL"]), (5938, ["CrossWorkgroupCastToPtrINTEL"]),
   (5946, ["ReadPipeBlockingINTEL", "WritePipeBlockingINTEL"]), (5949, ["FPGARegINTEL"]),
   (6016, ["RayQueryGetRayTMinKHR", "RayQueryGetRayFlagsKHR", "RayQueryGetIntersectionTKHR",
   "RayQueryGetIntersectionInstanceCustomIndexKHR", "RayQueryGetIntersectionInstanceIdKHR",
   "RayQueryGetIntersectionInstanceShaderBindingTableRecordOffsetKHR",
   "RayQueryGetIntersectionGeometryIndexKHR", "RayQueryGetIntersectionPrimitiveIndexKHR",
   "RayQueryGetIntersectionBarycentricsKHR", "RayQueryGetIntersectionFrontFaceKHR",
   "RayQueryGetIntersectionCandidateAABBOpaqueKHR", "RayQueryGetIntersectionObjectRayDirectionKHR",
   "RayQueryGetIntersectionObjectRayOriginKHR", "RayQueryGetWorldRayDirectionKHR",
   "RayQueryGetWorldRayOriginKHR", "RayQueryGetIntersectionObjectToWorldKHR",
   "RayQueryGetIntersectionWorldToObjectKHR"]), (6035, ["AtomicFAddEXT"]),
   (6086, ["TypeBufferSurfaceINTEL"]), (6090, ["TypeStructContinuedINTEL",
   "ConstantCompositeContinuedINTEL", "SpecConstantCompositeContinuedINTEL"]),
   (6116, ["ConvertFToBF16INTEL", "ConvertBF16ToFINTEL"]), (6142, ["ControlBarrierArriveINTEL",
   "ControlBarrierWaitINTEL"]), (6401, ["GroupIMulKHR", "GroupFMulKHR", "GroupBitwiseAndKHR",
   "GroupBitwiseOrKHR", "GroupBitwiseXorKHR", "GroupLogicalAndKHR", "GroupLogicalOrKHR",
   "GroupLogicalXorKHR"])]

/-- The names of all opcodes. -/
def opcodeNames : List (Nat × String) :=
  coreOpcodeNames ++ extensionOpcodeNames ++ motionOpcodeNames ++ vendorOpcodeNames

/-- The names of the storage classes. -/
def storageClassNames : List (Nat × String) := numbered
  [(0, ["UniformConstant", "Input", "Uniform", "Output", "Workgroup", "CrossWorkgroup", "Private",
   "Function", "Generic", "PushConstant", "AtomicCounter", "Image", "StorageBuffer"]),
   (4172, ["TileImageEXT"]), (5068, ["NodePayloadAMDX"]), (5076, ["NodeOutputPayloadAMDX"]),
   (5328, ["CallableDataNV", "IncomingCallableDataNV"]), (5338, ["RayPayloadNV", "HitAttributeNV"]),
   (5342, ["IncomingRayPayloadNV", "ShaderRecordBufferNV"]), (5349, ["PhysicalStorageBuffer"]),
   (5385, ["HitObjectAttributeNV"]), (5402, ["TaskPayloadWorkgroupEXT"]),
   (5605, ["CodeSectionINTEL"]), (5936, ["DeviceOnlyINTEL", "HostOnlyINTEL"])]

/-- The names of the decorations. -/
def decorationNames : List (Nat × String) := numbered
  [(0, ["RelaxedPrecision", "SpecId", "Block", "BufferBlock", "RowMajor", "ColMajor", "ArrayStride",
   "MatrixStride", "GLSLShared", "GLSLPacked", "CPacked", "BuiltIn"]), (13, ["NoPerspective",
   "Flat", "Patch", "Centroid", "Sample", "Invariant", "Restrict", "Aliased", "Volatile",
   "Constant", "Coherent", "NonWritable", "NonReadable", "Uniform", "UniformId",
   "SaturatedConversion", "Stream", "Location", "Component", "Index", "Binding", "DescriptorSet",
   "Offset", "XfbBuffer", "XfbStride", "FuncParamAttr", "FPRoundingMode", "FPFastMathMode",
   "LinkageAttributes", "NoContraction", "InputAttachmentIndex", "Alignment", "MaxByteOffset",
   "AlignmentId", "MaxByteOffsetId"]), (4469, ["NoSignedWrap", "NoUnsignedWrap"]),
   (4487, ["WeightTextureQCOM", "BlockMatchTextureQCOM"]), (4999, ["ExplicitInterpAMD"]),
   (5019, ["NodeSharesPayloadLimitsWithAMDX", "NodeMaxPayloadsAMDX"]),
   (5078, ["TrackFinishWritingAMDX"]), (5091, ["PayloadNodeNameAMDX"]),
   (5248, ["OverrideCoverageNV"]), (5250, ["PassthroughNV"]), (5252, ["ViewportRelativeNV"]),
   (5256, ["SecondaryViewportRelativeNV"]), (5271, ["PerPrimitiveNV", "PerViewNV", "PerTaskNV"]),
   (5285, ["PerVertexKHR"]), (5300, ["NonUniform"]), (5355, ["RestrictPointer", "AliasedPointer"]),
   (5386, ["HitObjectShaderRecordBufferNV"]), (5398, ["BindlessSamplerNV", "BindlessImageNV",
   "BoundSamplerNV", "BoundImageNV"]), (5599, ["SIMTCallINTEL"]),
   (5602, ["ReferencedIndirectlyINTEL"]), (5607, ["ClobberINTEL", "SideEffectsINTEL"]),
   (5624, ["VectorComputeVariableINTEL", "FuncParamIOKindINTEL", "VectorComputeFunctionINTEL",
   "StackCallINTEL", "GlobalVariableOffsetINTEL"]), (5634, ["CounterBuffer", "UserSemantic",
   "UserTypeGOOGLE"]), (5822, ["FunctionRoundingModeINTEL", "FunctionDenormModeINTEL"]),
   (5825, ["RegisterINTEL", "MemoryINTEL", "NumbanksINTEL", "BankwidthINTEL",
   "MaxPrivateCopiesINTEL", "SinglepumpINTEL", "DoublepumpINTEL", "MaxReplicatesINTEL",
   "SimpleDualPortINTEL", "MergeINTEL", "BankBitsINTEL", "ForcePow2DepthINTEL"]),
   (5899, ["BurstCoalesceINTEL", "CacheSizeINTEL", "DontStaticallyCoalesceINTEL", "PrefetchINTEL"]),
   (5905, ["StallEnableINTEL"]), (5907, ["FuseLoopsInFunctionINTEL"]),
   (5909, ["MathOpDSPModeINTEL"]), (5914, ["AliasScopeINTEL", "NoAliasINTEL"]),
   (5917, ["InitiationIntervalINTEL", "MaxConcurrencyINTEL", "PipelineEnableINTEL"]),
   (5921, ["BufferLocationINTEL"]), (5944, ["IOPipeStorageINTEL"]),
   (6080, ["FunctionFloatingPointModeINTEL"]), (6085, ["SingleElementVectorINTEL"]),
   (6087, ["VectorComputeCallableFunctionINTEL"]), (6140, ["MediaBlockIOINTEL"]),
   (6147, ["InitModeINTEL", "ImplementInRegisterMapINTEL"]), (6168, ["HostAccessINTEL"]),
   (6170, ["FPMaxErrorDecorationINTEL"]), (6172, ["LatencyControlLabelINTEL",
   "LatencyControlConstraintINTEL"]), (6175, ["ConduitKernelArgumentINTEL",
   "RegisterMapKernelArgumentINTEL", "MMHostInterfaceAddressWidthINTEL",
   "MMHostInterfaceDataWidthINTEL", "MMHostInterfaceLatencyINTEL",
   "MMHostInterfaceReadWriteModeINTEL", "MMHostInterfaceMaxBurstINTEL",
   "MMHostInterfaceWaitRequestINTEL", "StableKernelArgumentINTEL"]),
   (6442, ["CacheControlLoadINTEL", "CacheControlStoreINTEL"])]

/-- The names of the image dimensions. -/
def dimNames : List (Nat × String) := numbered
  [(0, ["Dim1D", "Dim2D", "Dim3D", "DimCube", "DimRect", "DimBuffer", "DimSubpassData"]),
   (4173, ["DimTileImageDataEXT"])]

/-- The names of the execution models. -/
def executionModelNames : List (Nat × String) := numbered
  [(0, ["Vertex", "TessellationControl", "TessellationEvaluation", "Geometry", "Fragment",
   "GLCompute", "Kernel"]), (5267, ["TaskNV", "MeshNV"]), (5313, ["RayGenerationNV",
   "IntersectionNV", "AnyHitNV", "ClosestHitNV", "MissNV", "CallableNV"]), (5364, ["TaskEXT",
   "MeshEXT"])]

end ShaderIR.Spirv
