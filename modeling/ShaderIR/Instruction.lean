import ShaderIR.Alu.Op

/-!
# Instructions

An instruction defines the register of its own number, unless it only has an effect. Phis lead
their block and jumps end it.
-/

namespace ShaderIR

/-- The number of a block of a function. -/
abbrev BlockId := Nat

/-- A jump out of the region that holds it. -/
inductive Jump where
  | break
  | continue
  | return
deriving DecidableEq, Repr

namespace Jump

def all : List Jump := [.break, .continue, .return]

def text : Jump → String
  | .break => "break"
  | .continue => "continue"
  | .return => "return"

/-- The jump written as `s`. -/
def ofText? (s : String) : Option Jump := all.find? (·.text == s)

end Jump

/-- The value a phi takes when control comes from `pred`. -/
structure PhiSource where
  pred : BlockId
  value : Register
deriving DecidableEq, Repr

/-! ### Texture access -/

/-- How a texture is read. -/
inductive TextureOp where
  /-- A sample at an implied level of detail. -/
  | tex
  /-- A sample with a bias to the level of detail. -/
  | txb
  /-- A sample at a given level of detail. -/
  | txl
  /-- A sample with given gradients. -/
  | txd
  /-- A texel without filtering. -/
  | txf
deriving DecidableEq, Repr

namespace TextureOp

def all : List TextureOp := [tex, txb, txl, txd, txf]

def text : TextureOp → String
  | tex => "tex"
  | txb => "txb"
  | txl => "txl"
  | txd => "txd"
  | txf => "txf"

/-- The texture operation written as `s`. -/
def ofText? (s : String) : Option TextureOp := all.find? (·.text == s)

end TextureOp

/-- What a source of a texture access is for. -/
inductive TextureRole where
  | coord
  | projector
  | comparator
  | bias
  | lod
  | ddx
  | ddy
  | offset
  | msIndex
  | minLod
deriving DecidableEq, Repr

namespace TextureRole

def all : List TextureRole :=
  [coord, projector, comparator, bias, lod, ddx, ddy, offset, msIndex, minLod]

def text : TextureRole → String
  | coord => "coord"
  | projector => "projector"
  | comparator => "comparator"
  | bias => "bias"
  | lod => "lod"
  | ddx => "ddx"
  | ddy => "ddy"
  | offset => "offset"
  | msIndex => "ms_index"
  | minLod => "min_lod"

/-- The role written as `s`. -/
def ofText? (s : String) : Option TextureRole := all.find? (·.text == s)

end TextureRole

/-- A register that a texture access reads, with its role. -/
structure TextureSource where
  role : TextureRole
  value : Register
deriving DecidableEq, Repr

/-- An access to the texture of a sampler variable. -/
structure TextureAccess where
  op : TextureOp
  sampler : Place
  dim : SamplerDim
  isArray : Bool
  isShadow : Bool
  result : ScalarKind
  coordinates : Nat
  /-- The sources in the order in which they are read; the coordinate is the first. -/
  sources : List TextureSource
  lanes : Nat
deriving DecidableEq, Repr

/-! ### Instructions -/

/-- One instruction of a function. -/
inductive Instruction where
  /-- A constant vector. -/
  | loadConst (bits : List Word)
  /-- A value that may be anything. -/
  | undef (lanes : Nat)
  | alu (op : AluOp) (sources : List Source) (lanes : Nat)
  /-- The value that belongs to the edge control came by. -/
  | phi (sources : List PhiSource) (lanes : Nat)
  | loadVar (place : Place) (lanes : Nat)
  /-- Writes the lanes of a register whose bits the mask has. -/
  | storeVar (place : Place) (value : Register) (mask : UInt8)
  | copyVar (dst src : Place)
  | texture (access : TextureAccess)
  /-- Drops the fragment. -/
  | discard
  | jump (jump : Jump)
deriving DecidableEq, Repr

namespace Instruction

/-- The lanes of the register the instruction defines; zero if it defines none. -/
def lanes : Instruction → Nat
  | loadConst bits => bits.length
  | undef n | alu _ _ n | phi _ n | loadVar _ n => n
  | texture access => access.lanes
  | storeVar .. | copyVar .. | discard | jump _ => 0

/-- The jump an instruction is. -/
def jump? : Instruction → Option Jump
  | jump j => some j
  | _ => none

def isPhi : Instruction → Bool
  | phi .. => true
  | _ => false

/-- The registers an instruction reads, in order. -/
def reads : Instruction → List Register
  | loadConst _ | undef _ | discard | jump _ => []
  | alu _ sources _ => sources.map (·.value)
  | phi sources _ => sources.map (·.value)
  | loadVar place _ => place.registers
  | storeVar place value _ => place.registers ++ [value]
  | copyVar dst src => dst.registers ++ src.registers
  | texture access => access.sampler.registers ++ access.sources.map (·.value)

/-- The places an instruction accesses, in order. -/
def places : Instruction → List Place
  | loadVar place _ | storeVar place _ _ => [place]
  | copyVar dst src => [dst, src]
  | texture access => [access.sampler]
  | _ => []

end Instruction

end ShaderIR
