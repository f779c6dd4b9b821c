import ShaderIR.Spirv.Lowering

/-!
# Texture access

Samples and texel fetches. Behind the coordinate, and the reference value of a shadow sample, a mask
says which further operands follow.
-/

namespace ShaderIR.Spirv.Code

/-- How an opcode reads a texture when no operand says otherwise. -/
def textureOp? : Opcode → Option TextureOp
  | .opImageSampleImplicitLod | .opImageSampleDrefImplicitLod => some .tex
  | .opImageSampleExplicitLod | .opImageSampleDrefExplicitLod => some .txl
  | .opImageFetch => some .txf
  | _ => none

/-- Whether an opcode compares with a reference value. -/
def hasReference (op : Opcode) : Bool :=
  op = .opImageSampleDrefImplicitLod ∨ op = .opImageSampleDrefExplicitLod

/-- The bits of the operand mask with the operands each stands for, in the order in which the
operands follow. -/
def operandRoles : List (Word × List TextureRole) :=
  [(1, [.bias]), (2, [.lod]), (4, [.ddx, .ddy]), (8, [.offset]), (16, [.offset]),
   (64, [.msIndex]), (128, [.minLod])]

/-- The bit of the operand mask for a list of offsets. -/
def constOffsetsBit : Word := 32

/-- The operands that a mask announces. -/
def rolesOfMask (mask : Word) : List TextureRole :=
  operandRoles.flatMap fun (bit, roles) => if mask &&& bit ≠ 0 then roles else []

/-- How a texture is read, given the mask of its operands: gradients count more than a bias. -/
def opOfMask (mask : Word) (op : TextureOp) : TextureOp :=
  if mask &&& 4 ≠ 0 then .txd else if mask &&& 1 ≠ 0 then .txb else op

/-- Reads the operands that a mask announces, from operand `index` on. -/
def maskedSources (i : RawInstruction) (roles : List TextureRole) (index : Nat) :
    Emit (List TextureSource) :=
  (roles.zipIdx index).mapM fun (role, index) => do
    return { role, value := ← Emit.registerOperand i index }

/-- Handles a texture access. -/
def texture (i : RawInstruction) : Emit Unit := do
  let ty ← Lower.typeOperand i 0
  let id ← Lower.operand i 1
  let image ← Lower.operand i 2
  let sampler ← Lower.lookup (·.pointer image)
  match ← Lower.shape sampler.ty with
  | .sampler dim shadow arrayed result =>
    let coordinate ← Emit.registerOperand i 3
    let some op := textureOp? i.op
      | throw (.unsupportedOpcode i.op)
    let reference ←
      if hasReference i.op then
        pure [{ role := .comparator, value := ← Emit.registerOperand i 4 : TextureSource }]
      else
        pure []
    let next := 4 + reference.length
    let mask := (i.operands[next]?).getD 0
    if mask &&& constOffsetsBit ≠ 0 then throw (.unsupported .constOffsets)
    let further ← maskedSources i (rolesOfMask mask) (next + 1)
    let coordinates ← Lower.registerLanes coordinate
    let lanes ← Lower.lanes ty
    let r ← Emit.instruction (.texture
      { op := opOfMask mask op
        sampler := sampler.place
        dim
        isArray := arrayed
        isShadow := shadow
        result
        coordinates
        sources := { role := .coord, value := coordinate } :: reference ++ further
        lanes })
    Lower.defineRegister id ty r
  | _ => Lower.meaningless (.notSampler image)

end ShaderIR.Spirv.Code
