import ShaderIR.Spirv.Lowering

/-!
# Annotations

Instructions that decorate ids, members of structures, and groups that stand for the decorations
recorded on them.
-/

namespace ShaderIR.Spirv.Declaration

/-- Records the decoration whose number is the operand at `index`, with the literals behind it. A
number that means nothing is passed over. -/
def recordDecoration (i : RawInstruction) (target : Id) (member : Option Word) (index : Nat) :
    Lower Unit := do
  let number ← Lower.operand i index
  match DecorationKind.ofNumber? number.toNat with
  | none => Lower.report (.unknownDecoration number target)
  | some kind =>
    let literals := i.operandsFrom (index + 1)
    Lower.updateIds (·.decorate target { member, item := .direct kind literals })

/-- Handles an instruction that annotates. -/
def annotation (i : RawInstruction) : Lower Unit := do
  match i.op with
  | .opDecorate =>
    let target ← Lower.operand i 0
    recordDecoration i target none 1
  | .opMemberDecorate =>
    let target ← Lower.operand i 0
    let member ← Lower.operand i 1
    recordDecoration i target (some member) 2
  | .opDecorationGroup => Lower.define (← Lower.operand i 0) .decorationGroup
  | .opGroupDecorate =>
    let group ← Lower.operand i 0
    Lower.lookup (·.checkGroup group)
    (i.operandsFrom 1).forM fun target =>
      Lower.updateIds (·.decorate target { member := none, item := .group group })
  | .opGroupMemberDecorate =>
    let group ← Lower.operand i 0
    Lower.lookup (·.checkGroup group)
    let targets ← Lower.ofExcept (i.pairsFrom 1)
    targets.forM fun (target, member) =>
      Lower.updateIds (·.decorate target { member := some member, item := .group group })
  | op => throw (.unsupportedOpcode op)

end ShaderIR.Spirv.Declaration
