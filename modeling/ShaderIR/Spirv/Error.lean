import ShaderIR.Instruction
import ShaderIR.Place
import ShaderIR.QuotedText
import ShaderIR.Spirv.Enumerant
import ShaderIR.Spirv.Opcode

/-!
# Errors

Why a word stream does not become a module. Every error is a cause with what it is about; the
wording is in the `message` functions.
-/

namespace ShaderIR.Spirv

/-- A number that stands for something in a stream. -/
abbrev Id := Word

/-- The one version of the format that is read. -/
def supportedVersion : Word := 99

/-- What an id stands for. -/
inductive Kind where
  | undefined
  | type
  | constant
  | value
  | pointer
  | function
  | block
  | extensionImport
  | decorationGroup
  | string
deriving DecidableEq, Repr

/-- The words for a kind. -/
def Kind.text : Kind → String
  | .undefined => "undefined value"
  | .type => "type"
  | .constant => "constant"
  | .value => "SSA value"
  | .pointer => "pointer"
  | .function => "function"
  | .block => "block"
  | .extensionImport => "extended instruction set"
  | .decorationGroup => "decoration group"
  | .string => "string"

/-- A feature of the format that is not supported. -/
inductive Unsupported where
  | functionParameters
  | executionModel (model : ExecutionModel)
  | imageDimension (dim : ImageDim)
  | scalarWidth (width : Word) (op : Opcode)
  | extendedSet (name : String)
  | extendedInstruction (number : Word)
  | constOffsets
deriving DecidableEq, Repr

/-- The message for an unsupported feature. -/
def Unsupported.message : Unsupported → String
  | functionParameters => "function parameters"
  | executionModel model => s!"execution model {model.name}"
  | imageDimension dim => s!"image dimension {dim.name}"
  | scalarWidth width op => s!"{width}-bit {op.name}"
  | extendedSet name => s!"extended instruction set {quoted name}"
  | extendedInstruction number => s!"GLSL.std.450 instruction {number}"
  | constOffsets => "ConstOffsets image operand"

/-- A stream that can be read but has no meaning as a module. -/
inductive Meaningless where
  | groupNesting (group : Id)
  | notScalar (type : Id)
  | memberDecoration (member : Word) (struct : Id) (members : Nat)
  | noNull (ty : TypeId)
  | notRegister (ty : TypeId)
  | noChild (ty : TypeId) (index : Nat)
  | notValueType (ty : TypeId)
  | expectedRegister
  | chainThroughLane (chain : Id)
  | chainPastLane (chain : Id)
  | chainIntoPlain (chain : Id)
  | cannotLoad (ty : TypeId)
  | cannotCopy (ty : TypeId)
  | copyThroughLane
  | noBlocks (function : Id)
  | reachedAgain (label : Id)
  | valueFromVoid
  | phiWithoutEdge (phi label : Id)
  | phiUnreached (phi : Id)
  | phiUnavailable
  | matrixNotNumeric
  | noMatrixType (columns rows : Nat)
  | mismatchedProduct
  | noColumns
  | compositeIndex (index : Word)
  | laneIndex (index : Word)
  | notSampler (id : Id)
deriving DecidableEq, Repr

/-- The message for a stream without meaning. -/
def Meaningless.message : Meaningless → String
  | groupNesting group => s!"decoration group %{group} nested too deeply"
  | notScalar type => s!"type %{type} is not a scalar"
  | memberDecoration member struct members =>
    s!"decoration on member {member} of struct %{struct} with {members} members"
  | noNull ty => s!"type [{ty}] has no null value"
  | notRegister ty => s!"type [{ty}] is not a scalar or vector"
  | noChild ty index => s!"type [{ty}] has no child {index}"
  | notValueType ty => s!"type [{ty}] cannot hold an SSA value"
  | expectedRegister => "expected a scalar or vector value"
  | chainThroughLane chain => s!"%{chain} indexes into a vector component"
  | chainPastLane chain => s!"%{chain} indexes past a vector component"
  | chainIntoPlain chain => s!"%{chain} indexes into a non-composite type"
  | cannotLoad ty => s!"cannot load a value of type [{ty}]"
  | cannotCopy ty => s!"cannot copy a value of type [{ty}]"
  | copyThroughLane => "copy through a vector component"
  | noBlocks function => s!"function %{function} has no blocks"
  | reachedAgain label => s!"block %{label} is reached again without a loop merge"
  | valueFromVoid => "value returned from a void function"
  | phiWithoutEdge phi label => s!"phi %{phi} has no value for block %{label}"
  | phiUnreached phi => s!"phi %{phi} is in a block that was never reached"
  | phiUnavailable => "phi operand is not available on every incoming edge"
  | matrixNotNumeric => "matrix operand is not numeric"
  | noMatrixType columns rows => s!"no {columns}x{rows} matrix type"
  | mismatchedProduct => "matrix multiply with mismatched dimensions"
  | noColumns => "matrix operand has no columns"
  | compositeIndex index => s!"composite index {index} out of range"
  | laneIndex index => s!"component index {index} out of range"
  | notSampler id => s!"%{id} is not a sampler"

/-- Why a stream does not become a module. -/
inductive Error where
  | invalidMagic (found : Word)
  | unsupportedVersion (found : Word)
  | invalidSchema (found : Word)
  | incompleteHeader (length : Nat)
  | invalidByteLength (length : Nat)
  | invalidWordCount (offset : Nat)
  | instructionOverrun (offset count remaining : Nat)
  | regionMismatch (offset : Nat)
  | unknownOpcode (opcode offset : Nat)
  | unsupportedOpcode (op : Opcode)
  | idOutOfBounds (id : Id) (bound : Nat)
  | idRedefined (id : Id)
  | wrongKind (id : Id) (expected found : Kind)
  | undefinedId (id : Id)
  | nonConstantStructIndex (id : Id)
  | unsupportedStorageClass (storage : StorageClass)
  | invalidOperands (op : Opcode)
  | missingSelectionMerge (label : Id)
  | badString (offset : Nat)
  | unsupported (what : Unsupported)
  | meaningless (why : Meaningless)
  /-- A register that the function under construction does not have. -/
  | foreignRegister (r : Register)
  /-- A block that the function under construction does not have. -/
  | foreignBlock (b : BlockId)
  /-- Selections that are entered again from their own arms without end. -/
  | endlessNesting
deriving DecidableEq, Repr

/-- Whether something of another function was looked for in the function under construction. -/
def Error.isForeign : Error → Bool
  | foreignRegister _ | foreignBlock _ => true
  | _ => false

/-- The message for an error. -/
def Error.message : Error → String
  | invalidMagic found => s!"invalid magic number {found.hex}"
  | unsupportedVersion found =>
    s!"unsupported SPIR-V version {found}, expected {supportedVersion}"
  | invalidSchema found => s!"invalid schema {found}, expected 0"
  | incompleteHeader length => s!"module of {length} words is shorter than its header"
  | invalidByteLength length => s!"byte length {length} is not a multiple of four"
  | invalidWordCount offset => s!"instruction at word {offset} has a word count of zero"
  | instructionOverrun offset count remaining =>
    s!"instruction at word {offset} needs {count} words but only {remaining} remain"
  | regionMismatch offset => s!"region starting at word {offset} is not terminated"
  | unknownOpcode opcode offset => s!"unknown opcode {opcode} at word {offset}"
  | unsupportedOpcode op => s!"unsupported opcode {op.name}"
  | idOutOfBounds id bound => s!"id %{id} is out of bounds (bound {bound})"
  | idRedefined id => s!"id %{id} is defined twice"
  | wrongKind id expected found =>
    s!"id %{id} is a {found.text}, expected a {expected.text}"
  | undefinedId id => s!"id %{id} is used before it is defined"
  | nonConstantStructIndex id => s!"struct index %{id} is not a constant"
  | unsupportedStorageClass storage => s!"unsupported storage class {storage.name}"
  | invalidOperands op => s!"invalid operands for {op.name}"
  | missingSelectionMerge label =>
    s!"block %{label} ends in a two-way branch without a selection merge"
  | badString offset => s!"malformed literal string in instruction at word {offset}"
  | unsupported what => s!"unsupported: {what.message}"
  | meaningless why => s!"lowering: {why.message}"
  | foreignRegister r => s!"register %{r} belongs to another function"
  | foreignBlock b => s!"block b{b} belongs to another function"
  | endlessNesting => "selections are nested without end"

end ShaderIR.Spirv
