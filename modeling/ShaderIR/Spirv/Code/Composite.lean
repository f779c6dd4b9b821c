import ShaderIR.Spirv.Code.Vector

/-!
# Composite values

Putting composites together, taking parts out of them and replacing parts. Only the lanes of vectors
need code; above them the tree is taken apart and put together without any.
-/

namespace ShaderIR.Spirv.Code

/-! ### Construction -/

/-- Puts a composite together. Vectors take the lanes of their constituents in order. -/
def construct (i : RawInstruction) (ty : TypeId) : Emit Tree := do
  let constituents := i.operandsFrom 2
  let shape ← Lower.shape ty
  match shape.lanes? with
  | some lanes =>
    let parts ← constituents.mapM fun id => do
      let r ← Emit.registerOf id
      let width ← Lower.registerLanes r
      return (List.range width).map fun lane => (r, lane.toUInt32)
    if parts.flatten.length ≠ lanes then throw (.invalidOperands i.op)
    Lower.leaf ty (← Emit.gather parts.flatten)
  | none =>
    if shape.childCount? ≠ some constituents.length then throw (.invalidOperands i.op)
    Lower.node ty (← constituents.mapM Emit.treeOf)

/-! ### Parts -/

/-- The part of a composite at an index path. A lane of a vector is copied into a value of type
`ty`. -/
def extract (ty : TypeId) : (path : List Word) → Tree → Emit Tree
  | [], t => pure t
  | i :: rest, .node _ _ children =>
    match children[i.toNat]? with
    | some child => extract ty rest child
    | none => Lower.meaningless (.compositeIndex i)
  | i :: rest, .leaf _ _ r => do
    if ¬ rest.isEmpty then Lower.meaningless (.laneIndex i)
    if (← Lower.registerLanes r) ≤ i.toNat then Lower.meaningless (.laneIndex i)
    Lower.leaf ty (← Emit.lane r i)

/-- A composite with the part at an index path replaced. -/
def insert (object : Tree) : (path : List Word) → Tree → Emit Tree
  | [], _ => pure object
  | i :: rest, .node _ ty children =>
    match children[i.toNat]? with
    | some child => do
      let replaced ← insert object rest child
      Lower.node ty (children.set i.toNat replaced)
    | none => Lower.meaningless (.compositeIndex i)
  | i :: rest, .leaf _ ty r => do
    let lanes ← Lower.registerLanes r
    if ¬ rest.isEmpty || lanes ≤ i.toNat then Lower.meaningless (.laneIndex i)
    let value ← Lower.register object
    Lower.leaf ty (← insertLane r lanes value i)

mutual

/-- A tree of new nodes over the same registers. -/
def copy : Tree → Lower Tree
  | .leaf _ ty r => Lower.leaf ty r
  | .node _ ty children => do Lower.node ty (← copyList children)

/-- Trees of new nodes over the same registers. -/
def copyList : List Tree → Lower (List Tree)
  | [] => pure []
  | t :: ts => do
    let t ← copy t
    let ts ← copyList ts
    return t :: ts

end

/-! ### Shuffles -/

/-- The lane number that stands for a lane of any value. -/
def anyLane : Word := 0xFFFFFFFF

/-- Where the lane with number `c` of two vectors in a row is. -/
def shuffleLane (a b : Register) (widthA widthB : Nat) (c : Word) : Option (Register × Word) :=
  if c.toNat < widthA then some (a, c)
  else if c.toNat - widthA < widthB then some (b, (c.toNat - widthA).toUInt32)
  else none

/-- The lanes of a shuffle. All lanes of any value share one register, which `undef` holds once it
is there. -/
def shuffleLanes (a b : Register) (widthA widthB : Nat) :
    (undef : Option Register) → List Word → Emit (List (Register × Word))
  | _, [] => pure []
  | undef, c :: cs => do
    if c = anyLane then
      let r ←
        match undef with
        | some r => pure r
        | none => Emit.instruction (.undef 1)
      let rest ← shuffleLanes a b widthA widthB (some r) cs
      return (r, 0) :: rest
    else
      match shuffleLane a b widthA widthB c with
      | some lane =>
        let rest ← shuffleLanes a b widthA widthB undef cs
        return lane :: rest
      | none => throw (.invalidOperands .opVectorShuffle)

/-- A vector of chosen lanes of two vectors. -/
def shuffle (a b : Register) (lanes : List Word) : Emit Register := do
  let widthA ← Lower.registerLanes a
  let widthB ← Lower.registerLanes b
  let lanes ← shuffleLanes a b widthA widthB none lanes
  if lanes.isEmpty || lanes.length > 4 then throw (.invalidOperands .opVectorShuffle)
  Emit.gather lanes

/-! ### Instructions -/

/-- The value that an instruction on composites gives. -/
def compositeValue (i : RawInstruction) (ty : TypeId) : Emit Tree := do
  match i.op with
  | .opCompositeConstruct => construct i ty
  | .opCompositeExtract =>
    let composite ← Emit.treeOperand i 2
    extract ty (i.operandsFrom 3) composite
  | .opCompositeInsert =>
    let object ← Emit.treeOperand i 2
    let composite ← Emit.treeOperand i 3
    insert object (i.operandsFrom 4) composite
  | .opVectorShuffle =>
    let a ← Emit.registerOperand i 2
    let b ← Emit.registerOperand i 3
    Lower.leaf ty (← shuffle a b (i.operandsFrom 4))
  | .opVectorExtractDynamic =>
    let vector ← Emit.registerOperand i 2
    let index ← Emit.registerOperand i 3
    let lanes ← Lower.registerLanes vector
    Lower.leaf ty (← extractDynamic vector lanes index)
  | .opVectorInsertDynamic =>
    let vector ← Emit.registerOperand i 2
    let value ← Emit.registerOperand i 3
    let index ← Emit.registerOperand i 4
    let lanes ← Lower.registerLanes vector
    Lower.leaf ty (← insertDynamic vector lanes value index)
  | .opCopyObject => copy (← Emit.treeOperand i 2)
  | op => throw (.unsupportedOpcode op)

/-- Handles an instruction on composites. -/
def composite (i : RawInstruction) : Emit Unit := do
  let ty ← Lower.typeOperand i 0
  let id ← Lower.operand i 1
  Lower.define id (.tree (← compositeValue i ty))

end ShaderIR.Spirv.Code
