import ShaderIR.Interface
import ShaderIR.Interner

/-!
# Types

Types are interned and refer to each other by number. A type is a shape with an optional name, and
two declarations are one type exactly when both agree. Vector, matrix and child types that no
declaration mentions are added on demand, without a name.
-/

namespace ShaderIR

/-- The number of a type. -/
abbrev TypeId := Nat

/-- What the bits of a scalar mean. -/
inductive ScalarKind where
  | bool
  | sint
  | uint
  | float
deriving DecidableEq, Repr

namespace ScalarKind

def all : List ScalarKind := [bool, sint, uint, float]

def text : ScalarKind → String
  | bool => "bool"
  | sint => "sint"
  | uint => "uint"
  | float => "float"

/-- The kind written as `s`. -/
def ofText? (s : String) : Option ScalarKind := all.find? (·.text == s)

end ScalarKind

/-- A scalar type: its kind and its width in bytes. -/
structure Scalar where
  kind : ScalarKind
  width : UInt8
deriving DecidableEq, Repr

namespace Scalar

def bool : Scalar := ⟨.bool, 4⟩
def i32 : Scalar := ⟨.sint, 4⟩
def u32 : Scalar := ⟨.uint, 4⟩
def f32 : Scalar := ⟨.float, 4⟩

/-- A boolean is written without its width, a number with its width in bits. -/
def text (s : Scalar) : String :=
  let bits := toString (s.width * 8)
  match s.kind with
  | .bool => "bool"
  | .sint => "i" ++ bits
  | .uint => "u" ++ bits
  | .float => "f" ++ bits

end Scalar

/-- How many lanes a vector has. -/
inductive VectorSize where
  | two
  | three
  | four
deriving DecidableEq, Repr

namespace VectorSize

def lanes : VectorSize → Nat
  | two => 2
  | three => 3
  | four => 4

/-- The size with `n` lanes. -/
def ofLanes? : Nat → Option VectorSize
  | 2 => some two
  | 3 => some three
  | 4 => some four
  | _ => none

def text (s : VectorSize) : String := toString s.lanes

end VectorSize

/-- The dimensionality of a sampled image. -/
inductive SamplerDim where
  | d1
  | d2
  | d3
  | cube
  | rect
  | buffer
  /-- Two dimensions, several samples a texel. -/
  | ms
deriving DecidableEq, Repr

namespace SamplerDim

def all : List SamplerDim := [d1, d2, d3, cube, rect, buffer, ms]

def text : SamplerDim → String
  | d1 => "1d"
  | d2 => "2d"
  | d3 => "3d"
  | cube => "cube"
  | rect => "rect"
  | buffer => "buffer"
  | ms => "ms"

/-- The dimensionality written as `s`. -/
def ofText? (s : String) : Option SamplerDim := all.find? (·.text == s)

/-- How many coordinates address a texel, the array layer left out. -/
def coordinates : SamplerDim → Nat
  | d1 | buffer => 1
  | d2 | rect | ms => 2
  | d3 | cube => 3

end SamplerDim

/-- A member of a structure with its place in the interface. -/
structure Member where
  ty : TypeId
  name : Option String := none
  offset : Option Word := none
  location : Option Word := none
  component : Option Word := none
  interpolation : Option Interpolation := none
  centroid : Bool := false
  sample : Bool := false
  builtIn : Option BuiltIn := none
deriving DecidableEq, Repr

/-- What the values of a type look like. -/
inductive Shape where
  | void
  | scalar (scalar : Scalar)
  | vector (size : VectorSize) (scalar : Scalar)
  /-- A matrix is a row of column vectors. -/
  | matrix (columns rows : VectorSize) (scalar : Scalar)
  | array (base : TypeId) (length : Nat)
  | struct (members : List Member)
  | function (result : TypeId) (params : List TypeId)
  /-- An image combined with its sampler. -/
  | sampler (dim : SamplerDim) (shadow arrayed : Bool) (result : ScalarKind)
deriving DecidableEq, Repr

namespace Shape

/-- The lanes of a scalar or vector, the shapes that fit a register. -/
def lanes? : Shape → Option Nat
  | scalar _ => some 1
  | vector size _ => some size.lanes
  | _ => none

/-- Whether a value of the shape fits a register. -/
def isRegister (s : Shape) : Bool := s.lanes?.isSome

/-- The scalar that scalars, vectors and matrices are made of. -/
def scalar? : Shape → Option Scalar
  | scalar s | vector _ s | matrix _ _ s => some s
  | _ => none

/-- How many children a composite has: elements, members or columns. -/
def childCount? : Shape → Option Nat
  | array _ length => some length
  | struct members => some members.length
  | matrix columns _ _ => some columns.lanes
  | _ => none

end Shape

/-- A shape with an optional name. -/
structure Ty where
  name : Option String := none
  shape : Shape
deriving DecidableEq, Repr

/-- The types of a module. -/
abbrev Types := Interner Ty

namespace Types

/-- The shape of a type. -/
def shape? (types : Types) (ty : TypeId) : Option Shape := (types.get? ty).map (·.shape)

/-- Adds a type without a name. -/
def insertShape (types : Types) (shape : Shape) : TypeId × Types :=
  types.insert { shape }

/-- The type with `lanes` lanes of `scalar`, for one to four lanes. -/
def vector? (types : Types) (scalar : Scalar) (lanes : Nat) : Option (TypeId × Types) :=
  if lanes = 1 then
    some (types.insertShape (.scalar scalar))
  else
    (VectorSize.ofLanes? lanes).map fun size => types.insertShape (.vector size scalar)

/-- The matrix type of `columns` columns with `rows` lanes each; a single column is a vector. -/
def matrix? (types : Types) (scalar : Scalar) (columns rows : Nat) : Option (TypeId × Types) :=
  if columns = 1 then
    types.vector? scalar rows
  else
    match VectorSize.ofLanes? columns, VectorSize.ofLanes? rows with
    | some c, some r => some (types.insertShape (.matrix c r scalar))
    | _, _ => none

/-- The type of child `index` of a composite type: the element of an array, a member of a
structure, the column of a matrix or the lane of a vector. -/
def child? (types : Types) (ty : TypeId) (index : Nat) : Option (TypeId × Types) :=
  match types.shape? ty with
  | some (.array base _) => some (base, types)
  | some (.struct members) => members[index]?.map fun m => (m.ty, types)
  | some (.matrix _ rows scalar) => types.vector? scalar rows.lanes
  | some (.vector _ scalar) => types.vector? scalar 1
  | _ => none

end Types

end ShaderIR
