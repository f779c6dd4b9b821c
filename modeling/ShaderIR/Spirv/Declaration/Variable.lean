import ShaderIR.Spirv.Lowering

/-!
# Variable declarations

The storage class of a variable decides its mode; an input that hardware supplies is a system value.
Decorations place the variable in the interface of the shader.
-/

namespace ShaderIR.Spirv.Declaration

/-- Whether a decoration names a built-in that hardware supplies. -/
def isSystemValue (d : ResolvedDecoration) : Bool :=
  d.kind = .builtIn && ((d.literal?.bind fun n => builtInOfNumber? n.toNat).any (·.isSystemValue))

/-- The mode of a variable with a storage class and decorations. -/
def modeOf (decorations : List ResolvedDecoration) : StorageClass → Except Error Mode
  | .uniformConstant | .uniform | .pushConstant => .ok .uniform
  | .input => .ok (if decorations.any isSystemValue then .systemValue else .shaderIn)
  | .output => .ok .shaderOut
  | .modulePrivate => .ok .global
  | .functionLocal => .ok .functionLocal
  | .other n => .error (.unsupportedStorageClass (.other n))

/-- Applies a decoration to the variable that `id` is to stand for. -/
def decorateVariable (id : Id) (v : Variable) (d : ResolvedDecoration) : Lower Variable := do
  let binding := v.binding.getD ⟨0, 0⟩
  match d.kind with
  | .binding => return { v with binding := some { binding with binding := d.literal?.getD 0 } }
  | .descriptorSet => return { v with binding := some { binding with set := d.literal?.getD 0 } }
  | .builtIn =>
    let number := d.literal?.getD 0xFFFFFFFF
    let builtIn := builtInOfNumber? number.toNat
    if builtIn.isNone then Lower.report (.droppedBuiltIn number id)
    return { v with builtIn }
  | .location =>
    let base := locationBase (← get).stage v.mode
    return { v with location := d.literal?.map (· + base) }
  | .component => return { v with component := d.literal? }
  | .index => return { v with index := d.literal? }
  | .flat => return { v with interpolation := some .flat }
  | .noPerspective => return { v with interpolation := some .noPerspective }
  | .centroid => return { v with centroid := true }
  | .sample => return { v with sample := true }
  | .invariant => return { v with invariant := true }
  | .patch => return { v with patch := true }
  | .nonWritable => return { v with readOnly := true }
  | .relaxedPrecision | .block | .bufferBlock | .arrayStride | .matrixStride | .rowMajor
  | .colMajor =>
    Lower.report (.ignoredDecoration d.kind id)
    return v
  | kind =>
    Lower.report (.droppedDecoration kind id)
    return v

/-- Handles the declaration of a variable, in the module or in the function under construction. -/
def variableDeclaration (inFunction : Bool) (i : RawInstruction) : Lower Unit := do
  let pointer ← Lower.operand i 0
  let type ← Lower.lookup (·.typeValue pointer)
  if ¬ type.isPointer then throw (.invalidOperands i.op)
  let id ← Lower.operand i 1
  let some storage := StorageClass.ofNumber? (← Lower.operand i 2).toNat
    | throw (.invalidOperands i.op)
  let decorations ← Lower.lookup (·.decorations id)
  let mode ← Lower.ofExcept (modeOf decorations storage)
  let plain : Variable := { name := (← get).ids.name? id, ty := type.ty, mode }
  let var ← (decorations.filter (·.member.isNone)).foldlM (decorateVariable id) plain
  let init ← (i.operands[3]?).mapM fun c => Lower.lookup (·.constant c)
  let v ← Lower.addVariable { var with init } (inFunction && mode = .functionLocal)
  Lower.define id (.pointer { place := { root := v }, ty := type.ty })

end ShaderIR.Spirv.Declaration
