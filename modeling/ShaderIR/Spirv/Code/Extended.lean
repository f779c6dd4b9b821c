import ShaderIR.Spirv.Lowering

/-!
# Extended instructions

The instructions of the set `GLSL.std.450`. Rounding goes to even, angles are scaled by a constant,
and lengths come from dot products.
-/

namespace ShaderIR.Spirv.Code

/-- How an extended instruction is computed. -/
inductive ExtendedRule where
  | op (op : AluOp)
  /-- A product with a constant. -/
  | scale (factor : Word)
  /-- The value brought between two bounds. -/
  | clamp (min max : AluOp)
  | length
  | distance
  | normalize
deriving DecidableEq, Repr

namespace ExtendedRule

/-- One degree in radians, as a float. -/
def radiansPerDegree : Word := 0x3C8EFA35

/-- One radian in degrees, as a float. -/
def degreesPerRadian : Word := 0x42652EE0

/-- The rule for an extended instruction. -/
def ofNumber? : Nat → Option ExtendedRule
  | 1 | 2 => some (op .froundEven)
  | 3 => some (op .ftrunc)
  | 4 => some (op .fabs)
  | 5 => some (op .iabs)
  | 6 => some (op .fsign)
  | 7 => some (op .isign)
  | 8 => some (op .ffloor)
  | 9 => some (op .fceil)
  | 10 => some (op .ffract)
  | 11 => some (scale radiansPerDegree)
  | 12 => some (scale degreesPerRadian)
  | 13 => some (op .fsin)
  | 14 => some (op .fcos)
  | 26 => some (op .fpow)
  | 29 => some (op .fexp2)
  | 30 => some (op .flog2)
  | 31 => some (op .fsqrt)
  | 32 => some (op .frsq)
  | 37 => some (op .fmin)
  | 38 => some (op .umin)
  | 39 => some (op .imin)
  | 40 => some (op .fmax)
  | 41 => some (op .umax)
  | 42 => some (op .imax)
  | 43 => some (clamp .fmin .fmax)
  | 44 => some (clamp .umin .umax)
  | 45 => some (clamp .imin .imax)
  | 46 => some (op .flrp)
  | 50 => some (op .ffma)
  | 66 => some length
  | 67 => some distance
  | 69 => some normalize
  | _ => none

/-- How many operands a rule takes. -/
def arity : ExtendedRule → Nat
  | op o => o.arity
  | clamp .. => 3
  | distance => 2
  | scale _ | length | normalize => 1

end ExtendedRule

/-- The length of a vector. -/
def vectorLength (v : Register) : Emit Register := do
  let dot ← Emit.alu (.dot (← Lower.registerLanes v)) [v, v] 1
  Emit.alu .fsqrt [dot] 1

/-- Applies a rule to registers, for a result of `lanes` lanes. -/
def applyExtended (lanes : Nat) : ExtendedRule → List Register → Emit Register
  | .op o, rs => Emit.alu o rs lanes
  | .scale factor, [x] => do
    let factor ← Emit.loadConst [factor]
    Emit.alu .fmul [x, factor] lanes
  | .clamp min max, [x, low, high] => do
    let raised ← Emit.alu max [x, low] lanes
    Emit.alu min [raised, high] lanes
  | .length, [x] => vectorLength x
  | .distance, [x, y] => do
    let delta ← Emit.alu .fsub [x, y] (← Lower.registerLanes x)
    vectorLength delta
  | .normalize, [x] => do
    let dot ← Emit.alu (.dot (← Lower.registerLanes x)) [x, x] 1
    let scale ← Emit.alu .frsq [dot] 1
    Emit.alu .fmul [x, scale] lanes
  | _, _ => throw (.invalidOperands .opExtInst)

/-- Handles an extended instruction. -/
def extended (i : RawInstruction) : Emit Unit := do
  let ty ← Lower.typeOperand i 0
  let id ← Lower.operand i 1
  let set ← Lower.operand i 2
  match ← Lower.lookup (·.extendedSet set) with
  | .unknown name => throw (.unsupported (.extendedSet name))
  | .glsl450 =>
    let number ← Lower.operand i 3
    match ExtendedRule.ofNumber? number.toNat with
    | none => throw (.unsupported (.extendedInstruction number))
    | some rule =>
      let registers ← (i.operandsFrom 4).mapM Emit.registerOf
      if registers.length ≠ rule.arity then throw (.invalidOperands .opExtInst)
      let lanes ← Lower.lanes ty
      Lower.defineRegister id ty (← applyExtended lanes rule registers)

end ShaderIR.Spirv.Code
