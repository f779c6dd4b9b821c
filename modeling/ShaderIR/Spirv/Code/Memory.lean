import ShaderIR.Spirv.Code.Vector

/-!
# Memory access

Memory is read and written one scalar, vector or matrix column at a time, so a load of a structure
gives a tree of loads. A pointer to one lane of a vector reads the whole vector, and writes it back
with the lane replaced.
-/

namespace ShaderIR.Spirv.Code

/-! ### Pointers -/

/-- The first word of the constant that an id stands for, if it stands for one. -/
def constantIndex? (id : Id) : Lower (Option Word) := do
  match ← Lower.lookup (·.constant? id) with
  | none => return none
  | some c => return (← Lower.constant c).bits?.bind List.head?

/-- The index that an id stands for. -/
def indexOf (id : Id) : Option Word → Emit Index
  | some i => return .direct i
  | none => do return .dynamic (← Emit.registerOf id)

/-- The pointer one index further into what a pointer points to. -/
def indexPointer (chain : Id) (p : Pointer) (index : Id) : Emit Pointer := do
  if p.lane.isSome then Lower.meaningless (.chainPastLane chain)
  let known ← constantIndex? index
  match ← Lower.shape p.ty with
  | .struct _ =>
    match known with
    | none => throw (.nonConstantStructIndex index)
    | some member =>
      return { p with
        place := p.place.member member
        ty := ← Lower.childType p.ty member.toNat }
  | .array .. | .matrix .. =>
    let i ← indexOf index known
    return { p with
      place := p.place.extend (.element i)
      ty := ← Lower.childType p.ty 0 }
  | .vector .. =>
    let i ← indexOf index known
    return { p with
      lane := some { index := i, vector := p.ty }
      ty := ← Lower.childType p.ty 0 }
  | _ => Lower.meaningless (.chainIntoPlain chain)

/-- Points to a part of what another pointer points to. -/
def accessChain (i : RawInstruction) : Emit Unit := do
  let id ← Lower.operand i 1
  let base ← Lower.operand i 2
  let pointer ← Lower.lookup (·.pointer base)
  if pointer.lane.isSome then Lower.meaningless (.chainThroughLane id)
  let pointer ← (i.operandsFrom 3).foldlM (indexPointer id) pointer
  Lower.define id (.pointer pointer)

/-! ### Loads -/

/-- Loads one scalar or vector. Booleans of uniforms may have any bits set and are brought to zero
or all ones. -/
def loadRegister (place : Place) (ty : TypeId) : Emit Register := do
  let lanes ← Lower.lanes ty
  let r ← Emit.instruction (.loadVar place lanes)
  let isBool := ((← Lower.shape ty).scalar?).any (·.kind = .bool)
  let isUniform := ((← get).module.vars[place.root]?).any (·.mode = .uniform)
  if isBool && isUniform then
    let nothing ← Emit.loadConst [0]
    Emit.alu .ine [r, nothing] lanes
  else
    return r

/-- Loads a value of a type whose references go at most `depth` deep. -/
def loadTreeWithin : (depth : Nat) → Place → TypeId → Emit Tree
  | 0, _, _ => throw .endlessNesting
  | depth + 1, place, ty => do
    let shape ← Lower.shape ty
    if shape.isRegister then
      Lower.leaf ty (← loadRegister place ty)
    else
      match shape.childCount? with
      | none => Lower.meaningless (.cannotLoad ty)
      | some count =>
        let children ← (List.range count).mapM fun i => do
          let child ← Lower.childType ty i
          loadTreeWithin depth (place.child shape i.toUInt32) child
        Lower.node ty children

/-- Loads a value. -/
def loadTree (place : Place) (ty : TypeId) : Emit Tree := do
  loadTreeWithin (← Lower.typeDepth) place ty

/-- Gives an id the value behind a pointer. -/
def loadThrough (id : Id) (src : Pointer) : Emit Unit := do
  match src.lane with
  | some { index, vector } =>
    let lanes ← Lower.lanes vector
    let whole ← loadRegister src.place vector
    let r ←
      match index with
      | .direct i => Emit.lane whole i
      | .dynamic index => extractDynamic whole lanes index
    Lower.defineRegister id src.ty r
  | none => Lower.define id (.tree (← loadTree src.place src.ty))

/-- Loads what a pointer points to. A sampler is not loaded: the result points to it too. -/
def load (i : RawInstruction) : Emit Unit := do
  let id ← Lower.operand i 1
  let source ← Lower.operand i 2
  let src ← Lower.lookup (·.pointer source)
  match ← Lower.shape src.ty with
  | .sampler .. => Lower.define id (.pointer src)
  | _ => loadThrough id src

/-! ### Stores and copies -/

/-- The mask of the first `lanes` lanes. -/
def laneMask (lanes : Nat) : UInt8 := ((1 : Word) <<< lanes.toUInt32 - 1).toUInt8

mutual

/-- Stores a value. -/
def storeTree (place : Place) : Tree → Emit Unit
  | .leaf _ ty r => do
    let lanes ← Lower.lanes ty
    let _ ← Emit.instruction (.storeVar place r (laneMask lanes))
  | .node _ ty children => do
    let shape ← Lower.shape ty
    storeChildren place shape 0 children

/-- Stores the children of a value of shape `shape` from child `index` on. -/
def storeChildren (place : Place) (shape : Shape) (index : Nat) : List Tree → Emit Unit
  | [] => pure ()
  | t :: ts => do
    storeTree (place.child shape index.toUInt32) t
    storeChildren place shape (index + 1) ts

end

/-- Stores a value where a pointer points to. -/
def store (i : RawInstruction) : Emit Unit := do
  let target ← Lower.operand i 0
  let dst ← Lower.lookup (·.pointer target)
  let value ← Lower.operand i 1
  match dst.lane with
  | some { index, vector } =>
    let lanes ← Lower.lanes vector
    let scalar ← Emit.registerOf value
    let whole ← Emit.instruction (.loadVar dst.place lanes)
    let updated ←
      match index with
      | .direct i => insertLane whole lanes scalar i
      | .dynamic index => insertDynamic whole lanes scalar index
    let _ ← Emit.instruction (.storeVar dst.place updated (laneMask lanes))
  | none => storeTree dst.place (← Emit.treeOf value)

/-- Copies a value of a type whose references go at most `depth` deep. -/
def copyTreeWithin : (depth : Nat) → (dst src : Place) → TypeId → Emit Unit
  | 0, _, _, _ => throw .endlessNesting
  | depth + 1, dst, src, ty => do
    let shape ← Lower.shape ty
    if shape.isRegister then
      let _ ← Emit.instruction (.copyVar dst src)
    else
      match shape.childCount? with
      | none => Lower.meaningless (.cannotCopy ty)
      | some count =>
        (List.range count).forM fun i => do
          let child ← Lower.childType ty i
          copyTreeWithin depth (dst.child shape i.toUInt32) (src.child shape i.toUInt32) child

/-- Copies what one pointer points to where another points to. -/
def copyMemory (i : RawInstruction) : Emit Unit := do
  let target ← Lower.operand i 0
  let dst ← Lower.lookup (·.pointer target)
  let source ← Lower.operand i 1
  let src ← Lower.lookup (·.pointer source)
  if dst.lane.isSome || src.lane.isSome then Lower.meaningless .copyThroughLane
  copyTreeWithin (← Lower.typeDepth) dst.place src.place src.ty

end ShaderIR.Spirv.Code
