import ShaderIR.Interface
import ShaderIR.Type.Basic
import ShaderIR.Spirv.Names

/-!
# Enumerated operands

Storage classes, decorations, image dimensions, execution models and built-ins by their numbers.
Those with a rule have a name of their own here, the others are kept by number.
-/

namespace ShaderIR.Spirv

/-- Finds a ruled value by its number, or keeps any other number that has a name. -/
def enumerant? {α : Type} (names : List (Nat × String)) (ruled : List α) (number : α → Nat)
    (other : Nat → α) (n : Nat) : Option α :=
  match names.lookup n with
  | none => none
  | some _ => some ((ruled.find? (number · = n)).getD (other n))

/-! ### Storage classes -/

/-- The kind of memory a pointer points into. -/
inductive StorageClass where
  | uniformConstant
  | input
  | uniform
  | output
  | modulePrivate
  | functionLocal
  | pushConstant
  | other (number : Nat)
deriving DecidableEq, Repr

namespace StorageClass

def number : StorageClass → Nat
  | uniformConstant => 0
  | input => 1
  | uniform => 2
  | output => 3
  | modulePrivate => 6
  | functionLocal => 7
  | pushConstant => 9
  | other n => n

def ruled : List StorageClass :=
  [uniformConstant, input, uniform, output, modulePrivate, functionLocal, pushConstant]

/-- The storage class with a number. -/
def ofNumber? : Nat → Option StorageClass := enumerant? storageClassNames ruled number other

def name (c : StorageClass) : String := (storageClassNames.lookup c.number).getD ""

end StorageClass

/-! ### Decorations -/

/-- What a decoration says. -/
inductive DecorationKind where
  | relaxedPrecision
  | block
  | bufferBlock
  | rowMajor
  | colMajor
  | arrayStride
  | matrixStride
  | builtIn
  | noPerspective
  | flat
  | patch
  | centroid
  | sample
  | invariant
  | nonWritable
  | location
  | component
  | index
  | binding
  | descriptorSet
  | offset
  | other (number : Nat)
deriving DecidableEq, Repr

namespace DecorationKind

def number : DecorationKind → Nat
  | relaxedPrecision => 0
  | block => 2
  | bufferBlock => 3
  | rowMajor => 4
  | colMajor => 5
  | arrayStride => 6
  | matrixStride => 7
  | builtIn => 11
  | noPerspective => 13
  | flat => 14
  | patch => 15
  | centroid => 16
  | sample => 17
  | invariant => 18
  | nonWritable => 24
  | location => 30
  | component => 31
  | index => 32
  | binding => 33
  | descriptorSet => 34
  | offset => 35
  | other n => n

def ruled : List DecorationKind :=
  [relaxedPrecision, block, bufferBlock, rowMajor, colMajor, arrayStride, matrixStride, builtIn,
   noPerspective, flat, patch, centroid, sample, invariant, nonWritable, location, component,
   index, binding, descriptorSet, offset]

/-- The decoration with a number. -/
def ofNumber? : Nat → Option DecorationKind := enumerant? decorationNames ruled number other

def name (k : DecorationKind) : String := (decorationNames.lookup k.number).getD ""

end DecorationKind

/-! ### Image dimensions -/

/-- The dimensionality of an image type. -/
inductive ImageDim where
  | d1
  | d2
  | d3
  | cube
  | rect
  | buffer
  | other (number : Nat)
deriving DecidableEq, Repr

namespace ImageDim

def number : ImageDim → Nat
  | d1 => 0
  | d2 => 1
  | d3 => 2
  | cube => 3
  | rect => 4
  | buffer => 5
  | other n => n

def ruled : List ImageDim := [d1, d2, d3, cube, rect, buffer]

/-- The dimensionality with a number. -/
def ofNumber? : Nat → Option ImageDim := enumerant? dimNames ruled number other

def name (d : ImageDim) : String := (dimNames.lookup d.number).getD ""

/-- The dimensionality of a sampler over such images; samples only matter in two dimensions. -/
def sampler? (multisampled : Bool) : ImageDim → Option SamplerDim
  | d1 => some .d1
  | d2 => some (if multisampled then .ms else .d2)
  | d3 => some .d3
  | cube => some .cube
  | rect => some .rect
  | buffer => some .buffer
  | other _ => none

end ImageDim

/-! ### Execution models -/

/-- What an entry point is run for. -/
inductive ExecutionModel where
  | vertex
  | tessellationControl
  | tessellationEvaluation
  | geometry
  | fragment
  | compute
  | other (number : Nat)
deriving DecidableEq, Repr

namespace ExecutionModel

def number : ExecutionModel → Nat
  | vertex => 0
  | tessellationControl => 1
  | tessellationEvaluation => 2
  | geometry => 3
  | fragment => 4
  | compute => 5
  | other n => n

def ruled : List ExecutionModel :=
  [vertex, tessellationControl, tessellationEvaluation, geometry, fragment, compute]

/-- The execution model with a number. -/
def ofNumber? : Nat → Option ExecutionModel := enumerant? executionModelNames ruled number other

def name (m : ExecutionModel) : String := (executionModelNames.lookup m.number).getD ""

/-- The pipeline stage of a model. -/
def stage? : ExecutionModel → Option Stage
  | vertex => some .vertex
  | tessellationControl => some .tessControl
  | tessellationEvaluation => some .tessEval
  | geometry => some .geometry
  | fragment => some .fragment
  | compute => some .compute
  | other _ => none

end ExecutionModel

/-! ### Built-ins -/

/-- The built-in with a number, if the module can express it. -/
def builtInOfNumber? : Nat → Option BuiltIn
  | 0 => some .position
  | 1 => some .pointSize
  | 3 => some .clipDistance
  | 4 => some .cullDistance
  | 5 => some .vertexId
  | 6 => some .instanceId
  | 7 => some .primitiveId
  | 8 => some .invocationId
  | 9 => some .layer
  | 10 => some .viewportIndex
  | 15 => some .fragCoord
  | 16 => some .pointCoord
  | 17 => some .frontFacing
  | 18 => some .sampleId
  | 19 => some .samplePosition
  | 20 => some .sampleMask
  | 22 => some .fragDepth
  | 23 => some .helperInvocation
  | 24 => some .numWorkgroups
  | 26 => some .workgroupId
  | 27 => some .localInvocationId
  | 28 => some .globalInvocationId
  | 29 => some .localInvocationIndex
  | 42 => some .vertexIndex
  | 43 => some .instanceIndex
  | _ => none

end ShaderIR.Spirv
