import ShaderIR.Spirv.Lowering

/-!
# Constant declarations

Specialization constants keep the value they are declared with.
-/

namespace ShaderIR.Spirv.Declaration

/-- The words of a constituent of a vector or a matrix. -/
def partWords (c : ConstantId) : Lower (List Word) := do
  match (← Lower.constant c).bits? with
  | some bits => pure bits
  | none => throw (.invalidOperands .opConstantComposite)

/-- The value of a constant that is put together from others. Vectors and matrices are flat. -/
def compositeValue (ty : TypeId) (constituents : List Id) : Lower ConstantValue := do
  let children ← constituents.mapM fun id => Lower.lookup (·.constant id)
  let shape ← Lower.shape ty
  if shape.childCount?.or shape.lanes? ≠ some children.length then
    throw (.invalidOperands .opConstantComposite)
  match shape with
  | .vector .. | .matrix .. =>
    let parts ← children.mapM partWords
    return .flat parts.flatten
  | _ => return .composite children

/-- Adds a constant of zeros of a type whose references go at most `depth` deep; the children come
before it. -/
def zeroWithin : (depth : Nat) → TypeId → (name : Option String) → Lower ConstantId
  | 0, _, _ => throw .endlessNesting
  | depth + 1, ty, name => do
    let value : ConstantValue ←
      match ← Lower.shape ty with
      | .scalar _ => pure (.flat [0])
      | .vector size _ => pure (.flat (List.replicate size.lanes 0))
      | .matrix columns rows _ => pure (.flat (List.replicate (columns.lanes * rows.lanes) 0))
      | .array base length =>
        pure (.composite (← (List.replicate length base).mapM fun ty => zeroWithin depth ty none))
      | .struct members =>
        pure (.composite (← members.mapM fun m => zeroWithin depth m.ty none))
      | _ => Lower.meaningless (.noNull ty)
    Lower.addConstant { name, ty, value }

/-- Adds a constant of zeros. -/
def zero (ty : TypeId) (name : Option String) : Lower ConstantId := do
  zeroWithin (← Lower.typeDepth) ty name

/-- Handles the declaration of a constant of zeros, or of one that may be anything. -/
def zeroConstant (i : RawInstruction) : Lower Unit := do
  let ty ← Lower.typeOperand i 0
  let id ← Lower.operand i 1
  Lower.define id (.constant (← zero ty ((← get).ids.name? id)))

/-- Handles a constant declaration. -/
def constant (i : RawInstruction) : Lower Unit := do
  let ty ← Lower.typeOperand i 0
  let id ← Lower.operand i 1
  let add (value : ConstantValue) : Lower Unit := do
    let c ← Lower.addConstant { name := (← get).ids.name? id, ty, value }
    Lower.define id (.constant c)
  match i.op with
  | .opConstantTrue | .opSpecConstantTrue => add (.flat [Word.allOnes])
  | .opConstantFalse | .opSpecConstantFalse => add (.flat [0])
  | .opConstant | .opSpecConstant => add (.flat [← Lower.operand i 2])
  | .opConstantComposite | .opSpecConstantComposite =>
    add (← compositeValue ty (i.operandsFrom 2))
  | .opConstantNull => zeroConstant i
  | op => throw (.unsupportedOpcode op)

end ShaderIR.Spirv.Declaration
