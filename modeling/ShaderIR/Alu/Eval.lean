import ShaderIR.Alu.Float
import ShaderIR.Alu.Op

/-!
# Results of arithmetic operations

Integers wrap around, shifts take the low five bits of the amount, and a division that has no result
gives zero. Derivatives are zero, since a single run knows no neighbours.
-/

namespace ShaderIR

namespace AluOp

/-- A lane of a unary float operation. -/
def floatUnary (f : Float32 → Float32) (a : Word) : Word := (f (.ofBits a)).toBits

/-- A lane of a binary float operation. -/
def floatBinary (f : Float32 → Float32 → Float32) (a b : Word) : Word :=
  (f (.ofBits a) (.ofBits b)).toBits

/-- A lane of a comparison of floats. -/
def floatCompare (p : Float32 → Float32 → Bool) (a b : Word) : Word :=
  .ofBool (p (.ofBits a) (.ofBits b))

/-- The quotient of signed integers towards zero; zero where it does not exist or fit. -/
def signedQuotient (a b : Word) : Word :=
  if b = 0 ∨ (a = 0x80000000 ∧ b = 0xFFFFFFFF) then 0 else (a.toInt32 / b.toInt32).toUInt32

/-- The sign of a signed integer as one, zero or minus one. -/
def signedSign (a : Word) : Word :=
  if a.toInt32 < 0 then 0xFFFFFFFF else if a = 0 then 0 else 1

/-- One lane of an operation that works lane by lane, over one lane of each source. -/
def lane (op : AluOp) (a b c : Word) : Word :=
  match op with
  | fmov | imov => a
  | fneg => floatUnary (- ·) a
  | ineg => -a
  | inot => ~~~a
  | fabs => floatUnary Float32.abs a
  | iabs => if a.toInt32 < 0 then -a else a
  | fsign => floatUnary FloatLane.sign a
  | isign => signedSign a
  | fadd => floatBinary (· + ·) a b
  | iadd => a + b
  | fsub => floatBinary (· - ·) a b
  | isub => a - b
  | fmul => floatBinary (· * ·) a b
  | imul => a * b
  | fdiv => floatBinary (· / ·) a b
  | idiv => signedQuotient a b
  | udiv => if b = 0 then 0 else a / b
  | umod => if b = 0 then 0 else a % b
  | fmod => floatBinary FloatLane.mod a b
  | flt => floatCompare (fun x y => x < y) a b
  | fge => floatCompare (fun x y => x ≥ y) a b
  | feq => floatCompare (fun x y => x == y) a b
  | fne => floatCompare (fun x y => x != y) a b
  | ilt => .ofBool (a.toInt32 < b.toInt32)
  | ige => .ofBool (a.toInt32 ≥ b.toInt32)
  | ult => .ofBool (a < b)
  | uge => .ofBool (a ≥ b)
  | ieq => .ofBool (a = b)
  | ine => .ofBool (a ≠ b)
  | iand => a &&& b
  | ior => a ||| b
  | ixor => a ^^^ b
  | ishl => a <<< (b &&& 31)
  | ishr => (a.toInt32 >>> (b &&& 31).toInt32).toUInt32
  | ushr => a >>> (b &&& 31)
  | f2i => FloatLane.toSigned (.ofBits a)
  | f2u => (Float32.ofBits a).toUInt32
  | i2f => (FloatLane.ofSigned a).toBits
  | u2f => a.toFloat32.toBits
  | bcsel => if a ≠ 0 then b else c
  | fddx | fddy | fddxFine | fddyFine | fddxCoarse | fddyCoarse => 0
  | ffloor => floatUnary Float32.floor a
  | fceil => floatUnary Float32.ceil a
  | ffract => floatUnary FloatLane.fract a
  | ftrunc => floatUnary FloatLane.trunc a
  | froundEven => floatUnary FloatLane.roundEven a
  | fsqrt => floatUnary Float32.sqrt a
  | frsq => floatUnary (fun x => 1 / x.sqrt) a
  | fexp2 => floatUnary (FloatLane.viaDouble Float.exp2) a
  | flog2 => floatUnary (FloatLane.viaDouble Float.log2) a
  | fsin => floatUnary (FloatLane.viaDouble Float.sin) a
  | fcos => floatUnary (FloatLane.viaDouble Float.cos) a
  | fpow => floatBinary FloatLane.pow a b
  | fmin => floatBinary FloatLane.min a b
  | fmax => floatBinary FloatLane.max a b
  | imin => if b.toInt32 < a.toInt32 then b else a
  | imax => if a.toInt32 < b.toInt32 then b else a
  | umin => min a b
  | umax => max a b
  | flrp => (FloatLane.lerp (.ofBits a) (.ofBits b) (.ofBits c)).toBits
  | ffma => (FloatLane.mulAdd (.ofBits a) (.ofBits b) (.ofBits c)).toBits
  -- reductions and vector builds do not work lane by lane
  | fdot2 | fdot3 | fdot4 | bany2 | bany3 | bany4 | ball2 | ball3 | ball4
  | vec2 | vec3 | vec4 => 0

/-- The products of the first `width` lanes of two sources, summed. -/
def dotProduct (width : Nat) (x y : Lanes) : Word :=
  let products := (x.toList.zip y.toList).take width |>.map fun (a, b) =>
    Float32.ofBits a * Float32.ofBits b
  (FloatLane.sum products).toBits

/-- The result of an operation over the lanes read from its sources. Missing sources read as zero,
and lanes past the number asked for, or past what a reduction gives, are zero. -/
def eval (op : AluOp) (inputs : List Lanes) (lanes : Nat) : Lanes :=
  let input (i : Nat) : Lanes := (inputs[i]?).getD .zero
  let scalar (w : Word) : Lanes := { Lanes.zero with x := w }
  match op.inputWidth? with
  | some width =>
    match op with
    | vec2 | vec3 | vec4 => .ofWords (inputs.map (·.x))
    | fdot2 | fdot3 | fdot4 => scalar (dotProduct width (input 0) (input 1))
    | bany2 | bany3 | bany4 => scalar (.ofBool (((input 0).toList.take width).any (· ≠ 0)))
    | _ => scalar (.ofBool (((input 0).toList.take width).all (· ≠ 0)))
  | none =>
    .ofFn fun i =>
      if i < lanes then op.lane ((input 0).get i) ((input 1).get i) ((input 2).get i) else 0

end AluOp

end ShaderIR
