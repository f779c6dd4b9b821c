import ShaderIR.Spirv.Lowering

/-!
# Type declarations

Only 32-bit scalars exist. A pointer type stands for the type it points to, and an image type for a
sampler over such images.
-/

namespace ShaderIR.Spirv.Declaration

/-- Checks that the width of a scalar type is 32 bits. -/
def checkWidth (i : RawInstruction) : Lower Unit := do
  let width ← Lower.operand i 1
  if width ≠ 32 then throw (.unsupported (.scalarWidth width i.op))

/-- The vector size that an operand gives. -/
def vectorSize (i : RawInstruction) (index : Nat) : Lower VectorSize := do
  match VectorSize.ofLanes? (← Lower.operand i index).toNat with
  | some size => pure size
  | none => throw (.invalidOperands i.op)

/-- The scalar that a type id stands for. -/
def scalarOf (id : Id) : Lower Scalar := do
  match ← Lower.shape (← Lower.typeOf id) with
  | .scalar s => pure s
  | _ => Lower.meaningless (.notScalar id)

/-- The length of an array as a constant gives it. -/
def arrayLength (i : RawInstruction) (index : Nat) : Lower Nat := do
  let id ← Lower.operand i index
  let constant ← Lower.constant (← Lower.lookup (·.constant id))
  match constant.bits?.bind List.head? with
  | some length => pure length.toNat
  | none => throw (.invalidOperands i.op)

/-! ### Structures -/

/-- Applies a decoration to the member it is about. -/
def decorateMember (id : Id) (index : Word) (m : Member) (d : ResolvedDecoration) :
    Lower Member := do
  match d.kind with
  | .offset => return { m with offset := d.literal? }
  | .location => return { m with location := d.literal? }
  | .component => return { m with component := d.literal? }
  | .flat => return { m with interpolation := some .flat }
  | .noPerspective => return { m with interpolation := some .noPerspective }
  | .centroid => return { m with centroid := true }
  | .sample => return { m with sample := true }
  | .builtIn => return { m with builtIn := d.literal?.bind fun n => builtInOfNumber? n.toNat }
  | kind =>
    Lower.report (.droppedMemberDecoration kind index id)
    return m

/-- Applies those decorations of a structure that are about its members. -/
def decorateMembers (id : Id) (members : List Member) (d : ResolvedDecoration) :
    Lower (List Member) := do
  match d.member with
  | none => return members
  | some index =>
    match members[index.toNat]? with
    | none => Lower.meaningless (.memberDecoration index id members.length)
    | some m => return members.set index.toNat (← decorateMember id index m d)

/-- The members of the structure that `id` is to stand for. -/
def structMembers (id : Id) (types : List Id) : Lower (List Member) := do
  let members ← types.zipIdx.mapM fun (type, index) => do
    let ty ← Lower.typeOf type
    return { ty, name := (← get).ids.memberName? id index.toUInt32 : Member }
  (← Lower.lookup (·.decorations id)).foldlM (decorateMembers id) members

/-! ### Images -/

/-- The sampler shape of an image type. -/
def imageShape (i : RawInstruction) : Lower Shape := do
  let result := (← scalarOf (← Lower.operand i 1)).kind
  let some dim := ImageDim.ofNumber? (← Lower.operand i 2).toNat
    | throw (.invalidOperands i.op)
  let multisampled := (← Lower.operand i 5) ≠ 0
  let some sampler := dim.sampler? multisampled
    | throw (.unsupported (.imageDimension dim))
  if result = .bool then throw (.invalidOperands i.op)
  let shadow := (← Lower.operand i 3) = 1
  let arrayed := (← Lower.operand i 4) ≠ 0
  return .sampler sampler shadow arrayed result

/-! ### Declarations -/

/-- The shape that a type declaration gives. -/
def typeShape (i : RawInstruction) (id : Id) : Lower Shape := do
  match i.op with
  | .opTypeVoid => return .void
  | .opTypeBool => return .scalar .bool
  | .opTypeInt =>
    checkWidth i
    return .scalar (if (← Lower.operand i 2) ≠ 0 then .i32 else .u32)
  | .opTypeFloat =>
    checkWidth i
    return .scalar .f32
  | .opTypeVector =>
    let scalar ← scalarOf (← Lower.operand i 1)
    return .vector (← vectorSize i 2) scalar
  | .opTypeMatrix =>
    match ← Lower.shape (← Lower.typeOperand i 1) with
    | .vector rows scalar => return .matrix (← vectorSize i 2) rows scalar
    | _ => throw (.invalidOperands i.op)
  | .opTypeArray =>
    let base ← Lower.typeOperand i 1
    return .array base (← arrayLength i 2)
  | .opTypeStruct => return .struct (← structMembers id (i.operandsFrom 1))
  | .opTypeFunction =>
    let result ← Lower.typeOperand i 1
    return .function result (← (i.operandsFrom 2).mapM Lower.typeOf)
  | .opTypeImage => imageShape i
  | op => throw (.unsupportedOpcode op)

/-- Handles a type declaration. -/
def type (i : RawInstruction) : Lower Unit := do
  let id ← Lower.operand i 0
  match i.op with
  | .opTypePointer =>
    let storage ← Lower.operand i 1
    if (StorageClass.ofNumber? storage.toNat).isNone then throw (.invalidOperands i.op)
    let ty ← Lower.typeOperand i 2
    Lower.define id (.type { ty, isPointer := true })
  | .opTypeSampledImage =>
    let image ← Lower.operand i 1
    Lower.define id (.type (← Lower.lookup (·.typeValue image)))
  | _ =>
    let shape ← typeShape i id
    let ty ← Lower.insertType { name := (← get).ids.name? id, shape }
    Lower.define id (.type { ty })

end ShaderIR.Spirv.Declaration
