import ShaderIR.Spirv.Stream

/-!
# Assembling streams

An assembly hands out ids and collects instructions in order. The stream of an assembly is its
header, with a bound above every id handed out, and the words of its instructions.
-/

namespace ShaderIR.Spirv

/-- An operation with its operands. -/
structure Emitted where
  op : Opcode
  operands : List Word
deriving DecidableEq, Repr

/-- The words of an operation. -/
def Emitted.words (e : Emitted) : List Word :=
  (((e.operands.length + 1).toUInt32 <<< 16) ||| e.op.number.toUInt32) :: e.operands

/-- The instructions collected so far and the next id. -/
structure Assembler where
  code : Array Emitted := #[]
  nextId : Id := 1

namespace Assembler

/-- The number of this assembler in the header. -/
def generator : Word := 0x000B0001

/-- The stream with a given bound. -/
def streamWithBound (a : Assembler) (bound : Word) : List Word :=
  [magicNumber, supportedVersion, generator, bound, 0] ++ a.code.toList.flatMap Emitted.words

/-- The stream, bounded by the ids handed out. -/
def stream (a : Assembler) : List Word := a.streamWithBound a.nextId

/-- The bytes of the stream, the least significant byte of each word first. -/
def bytes (a : Assembler) : List UInt8 := bytesOfWords a.stream

/-- How many words the stream has. -/
def length (a : Assembler) : Nat := a.stream.length

end Assembler

/-- A computation that adds to a stream. -/
abbrev Assembly := StateM Assembler

namespace Assembly

/-- A new id. -/
def freshId : Assembly Id := modifyGet fun a => (a.nextId, { a with nextId := a.nextId + 1 })

/-- Adds an operation with its operands. -/
def emit (op : Opcode) (operands : List Word) : Assembly Unit :=
  modify fun a => { a with code := a.code.push { op, operands } }

/-- Adds an operation with a result of type `type`; the result gets a new id. -/
def result (op : Opcode) (type : Id) (operands : List Word) : Assembly Id := do
  let id ← freshId
  emit op (type :: id :: operands)
  return id

/-- Adds a declaration that starts with its own new id. -/
def declare (op : Opcode) (operands : List Word) : Assembly Id := do
  let id ← freshId
  emit op (id :: operands)
  return id

/-- One for true and zero for false. -/
def flag (b : Bool) : Word := if b then 1 else 0

/-- Pairs of words in a row. -/
def flattenPairs (pairs : List (Word × Word)) : List Word := pairs.flatMap fun (a, b) => [a, b]

/-! ### Modes and names -/

def capability (number : Word) : Assembly Unit := emit .opCapability [number]

def extInstImport (name : String) : Assembly Id := declare .opExtInstImport (wordsOfText name)

/-- Logical addressing and the memory model of shaders. -/
def memoryModel : Assembly Unit := emit .opMemoryModel [0, 1]

def entryPoint (model : ExecutionModel) (function : Id) (name : String) (interface : List Id) :
    Assembly Unit :=
  emit .opEntryPoint (model.number.toUInt32 :: function :: wordsOfText name ++ interface)

def name (target : Id) (name : String) : Assembly Unit :=
  emit .opName (target :: wordsOfText name)

def memberName (target : Id) (member : Word) (name : String) : Assembly Unit :=
  emit .opMemberName (target :: member :: wordsOfText name)

/-! ### Annotations -/

def decorate (target : Id) (kind : DecorationKind) (literals : List Word) : Assembly Unit :=
  emit .opDecorate (target :: kind.number.toUInt32 :: literals)

def memberDecorate (target : Id) (member : Word) (kind : DecorationKind) (literals : List Word) :
    Assembly Unit :=
  emit .opMemberDecorate (target :: member :: kind.number.toUInt32 :: literals)

def decorationGroup (group : Id) : Assembly Unit := emit .opDecorationGroup [group]

def groupDecorate (group : Id) (targets : List Id) : Assembly Unit :=
  emit .opGroupDecorate (group :: targets)

def groupMemberDecorate (group : Id) (targets : List (Id × Word)) : Assembly Unit :=
  emit .opGroupMemberDecorate (group :: flattenPairs targets)

/-! ### Types -/

def typeVoid : Assembly Id := declare .opTypeVoid []

def typeBool : Assembly Id := declare .opTypeBool []

def typeInt (width : Word) (signed : Bool) : Assembly Id :=
  declare .opTypeInt [width, flag signed]

def typeFloat (width : Word) : Assembly Id := declare .opTypeFloat [width]

def typeVector (component : Id) (count : Word) : Assembly Id :=
  declare .opTypeVector [component, count]

def typeMatrix (column : Id) (count : Word) : Assembly Id := declare .opTypeMatrix [column, count]

/-- An array type; its length is the id of a constant. -/
def typeArray (element length : Id) : Assembly Id := declare .opTypeArray [element, length]

def typeStruct (members : List Id) : Assembly Id := declare .opTypeStruct members

def typePointer (storage : StorageClass) (pointee : Id) : Assembly Id :=
  declare .opTypePointer [storage.number.toUInt32, pointee]

def typeFunction (result : Id) (params : List Id) : Assembly Id :=
  declare .opTypeFunction (result :: params)

/-- An image type for use with a sampler, of unknown format. -/
def typeImage (sampled : Id) (dim : ImageDim) (depth arrayed multisampled : Bool) : Assembly Id :=
  declare .opTypeImage
    [sampled, dim.number.toUInt32, flag depth, flag arrayed, flag multisampled, 1, 0]

def typeSampledImage (image : Id) : Assembly Id := declare .opTypeSampledImage [image]

/-! ### Constants and variables -/

def constant (type : Id) (bits : Word) : Assembly Id := result .opConstant type [bits]

def constantFloat (type : Id) (value : Float32) : Assembly Id := constant type value.toBits

def constantBool (type : Id) (value : Bool) : Assembly Id :=
  result (if value then .opConstantTrue else .opConstantFalse) type []

def constantComposite (type : Id) (constituents : List Id) : Assembly Id :=
  result .opConstantComposite type constituents

def constantNull (type : Id) : Assembly Id := result .opConstantNull type []

def variableOf (pointer : Id) (storage : StorageClass) (init : Option Id) : Assembly Id :=
  result .opVariable pointer (storage.number.toUInt32 :: init.toList)

/-! ### Functions and control flow -/

/-- Opens a function that has an id already. -/
def functionWithId (id result type : Id) : Assembly Unit :=
  emit .opFunction [result, id, 0, type]

def function (returns type : Id) : Assembly Id := result .opFunction returns [0, type]

def functionEnd : Assembly Unit := emit .opFunctionEnd []

def label (id : Id) : Assembly Unit := emit .opLabel [id]

def branch (target : Id) : Assembly Unit := emit .opBranch [target]

def branchConditional (condition onTrue onFalse : Id) : Assembly Unit :=
  emit .opBranchConditional [condition, onTrue, onFalse]

def selectionMerge (merge : Id) : Assembly Unit := emit .opSelectionMerge [merge, 0]

def loopMerge (merge continueTarget : Id) : Assembly Unit :=
  emit .opLoopMerge [merge, continueTarget, 0]

def returnVoid : Assembly Unit := emit .opReturn []

def kill : Assembly Unit := emit .opKill []

/-! ### Code -/

def load (type pointer : Id) : Assembly Id := result .opLoad type [pointer]

def store (pointer value : Id) : Assembly Unit := emit .opStore [pointer, value]

def accessChain (type base : Id) (indices : List Id) : Assembly Id :=
  result .opAccessChain type (base :: indices)

/-- A phi with an id of its own and the values by block. -/
def phi (type id : Id) (pairs : List (Id × Id)) : Assembly Unit :=
  emit .opPhi (type :: id :: flattenPairs pairs)

def extInst (type set : Id) (number : Word) (operands : List Id) : Assembly Id :=
  result .opExtInst type (set :: number :: operands)

end Assembly

end ShaderIR.Spirv
