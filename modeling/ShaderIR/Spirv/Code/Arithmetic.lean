import ShaderIR.Spirv.Lowering

/-!
# Arithmetic, logic and conversions

Most opcodes have an operation of their own. Comparisons by greater exchange the operands of a
comparison by less, and the remainders of signed and unsigned division share one operation.
-/

namespace ShaderIR.Spirv.Code

/-- How an opcode is computed. -/
inductive AluRule where
  /-- One operation over the operands in order. -/
  | op (op : AluOp)
  /-- One operation over the two operands in reverse. -/
  | swapped (op : AluOp)
  | dot
  | any
  | all
  /-- Whether a number differs from itself. -/
  | isNan
  /-- The sum of the magnitudes of two derivatives. -/
  | fwidth (dx dy : AluOp)
deriving DecidableEq, Repr

namespace AluRule

/-- The rule for an opcode. -/
def ofOpcode? : Opcode → Option AluRule
  | .opSNegate => some (op .ineg)
  | .opFNegate => some (op .fneg)
  | .opNot | .opLogicalNot => some (op .inot)
  | .opIAdd => some (op .iadd)
  | .opFAdd => some (op .fadd)
  | .opISub => some (op .isub)
  | .opFSub => some (op .fsub)
  | .opIMul => some (op .imul)
  | .opFMul | .opVectorTimesScalar => some (op .fmul)
  | .opUDiv => some (op .udiv)
  | .opSDiv => some (op .idiv)
  | .opFDiv => some (op .fdiv)
  | .opUMod | .opSRem | .opSMod => some (op .umod)
  | .opFRem | .opFMod => some (op .fmod)
  | .opShiftRightLogical => some (op .ushr)
  | .opShiftRightArithmetic => some (op .ishr)
  | .opShiftLeftLogical => some (op .ishl)
  | .opBitwiseOr | .opLogicalOr => some (op .ior)
  | .opBitwiseXor => some (op .ixor)
  | .opBitwiseAnd | .opLogicalAnd => some (op .iand)
  | .opLogicalEqual | .opIEqual => some (op .ieq)
  | .opLogicalNotEqual | .opINotEqual => some (op .ine)
  | .opULessThan => some (op .ult)
  | .opSLessThan => some (op .ilt)
  | .opUGreaterThan => some (swapped .ult)
  | .opSGreaterThan => some (swapped .ilt)
  | .opUGreaterThanEqual => some (op .uge)
  | .opSGreaterThanEqual => some (op .ige)
  | .opULessThanEqual => some (swapped .uge)
  | .opSLessThanEqual => some (swapped .ige)
  | .opFOrdEqual | .opFUnordEqual => some (op .feq)
  | .opFOrdNotEqual | .opFUnordNotEqual => some (op .fne)
  | .opFOrdLessThan | .opFUnordLessThan => some (op .flt)
  | .opFOrdGreaterThan | .opFUnordGreaterThan => some (swapped .flt)
  | .opFOrdLessThanEqual | .opFUnordLessThanEqual => some (swapped .fge)
  | .opFOrdGreaterThanEqual | .opFUnordGreaterThanEqual => some (op .fge)
  | .opConvertFToU => some (op .f2u)
  | .opConvertFToS => some (op .f2i)
  | .opConvertSToF => some (op .i2f)
  | .opConvertUToF => some (op .u2f)
  | .opUConvert | .opSConvert | .opFConvert | .opBitcast => some (op .imov)
  | .opSelect => some (op .bcsel)
  | .opDPdx => some (op .fddx)
  | .opDPdy => some (op .fddy)
  | .opDPdxFine => some (op .fddxFine)
  | .opDPdyFine => some (op .fddyFine)
  | .opDPdxCoarse => some (op .fddxCoarse)
  | .opDPdyCoarse => some (op .fddyCoarse)
  | .opFwidth => some (fwidth .fddx .fddy)
  | .opFwidthFine => some (fwidth .fddxFine .fddyFine)
  | .opFwidthCoarse => some (fwidth .fddxCoarse .fddyCoarse)
  | .opDot => some dot
  | .opAny => some any
  | .opAll => some all
  | .opIsNan => some isNan
  | _ => none

/-- How many operands a rule takes. -/
def arity : AluRule → Nat
  | op o | swapped o => o.arity
  | dot => 2
  | any | all | isNan | fwidth .. => 1

end AluRule

/-- The dot product of registers of a width; registers that no vector type has are moved. -/
def dotOfWidth : Nat → AluOp
  | 1 => .fmul
  | 2 => .fdot2
  | 3 => .fdot3
  | 4 => .fdot4
  | _ => .imov

/-- The derivative that is added to the derivative along x. -/
def secondDerivative (dx dy : AluOp) : FwidthExpansion → AluOp
  | .legacy => dx
  | .derivatives => dy

/-- The sum of the magnitudes of two derivatives. -/
def fwidth (dx dy : AluOp) (r : Register) (lanes : Nat) : Emit Register := do
  let second := secondDerivative dx dy (← get).options.fwidth
  let a ← Emit.alu dx [r] lanes
  let b ← Emit.alu second [r] lanes
  let a ← Emit.alu .fabs [a] lanes
  let b ← Emit.alu .fabs [b] lanes
  Emit.alu .fadd [a, b] lanes

/-- Applies a rule to registers, for a result of `lanes` lanes. -/
def applyRule (op : Opcode) (lanes : Nat) : AluRule → List Register → Emit Register
  | .op o, rs => Emit.alu o rs lanes
  | .swapped o, [a, b] => Emit.alu o [b, a] lanes
  | .dot, [a, b] => do Emit.alu (dotOfWidth (← Lower.registerLanes a)) [a, b] 1
  | .any, [a] => do Emit.alu (.anyOf (← Lower.registerLanes a)) [a] 1
  | .all, [a] => do Emit.alu (.allOf (← Lower.registerLanes a)) [a] 1
  | .isNan, [a] => Emit.alu .fne [a, a] lanes
  | .fwidth dx dy, [a] => fwidth dx dy a lanes
  | _, _ => throw (.invalidOperands op)

/-- Computes a scalar or vector from others. -/
def arithmetic (rule : AluRule) (i : RawInstruction) : Emit Unit := do
  let ty ← Lower.typeOperand i 0
  let id ← Lower.operand i 1
  let lanes ← Lower.lanes ty
  let registers ← (i.operandsFrom 2).mapM Emit.registerOf
  if registers.length ≠ rule.arity then throw (.invalidOperands i.op)
  Lower.defineRegister id ty (← applyRule i.op lanes rule registers)

end ShaderIR.Spirv.Code
