import ShaderIR.Place

/-!
# Arithmetic operations

An operation works lane by lane, unless it has a fixed input width: reductions read that many lanes
of each source, and the operations that build a vector read one lane of each.
-/

namespace ShaderIR

/-- An arithmetic or logic operation. -/
inductive AluOp where
  | fmov
  | imov
  | fneg
  | ineg
  | inot
  | fabs
  | iabs
  | fsign
  | isign
  | fadd
  | iadd
  | fsub
  | isub
  | fmul
  | imul
  | fdiv
  | idiv
  | udiv
  | umod
  | fmod
  | flt
  | fge
  | feq
  | fne
  | ilt
  | ige
  | ult
  | uge
  | ieq
  | ine
  | iand
  | ior
  | ixor
  | ishl
  | ishr
  | ushr
  | f2i
  | f2u
  | i2f
  | u2f
  /-- The second source where the first is not zero, the third elsewhere. -/
  | bcsel
  | fdot2
  | fdot3
  | fdot4
  | bany2
  | bany3
  | bany4
  | ball2
  | ball3
  | ball4
  | vec2
  | vec3
  | vec4
  | fddx
  | fddy
  | fddxFine
  | fddyFine
  | fddxCoarse
  | fddyCoarse
  | ffloor
  | fceil
  | ffract
  | ftrunc
  /-- Rounds to the nearest whole number, halves to the even one. -/
  | froundEven
  | fsqrt
  | frsq
  | fexp2
  | flog2
  | fsin
  | fcos
  | fpow
  | fmin
  | fmax
  | imin
  | imax
  | umin
  | umax
  /-- Blends the first two sources by the third. -/
  | flrp
  | ffma
deriving DecidableEq, Repr

namespace AluOp

def all : List AluOp :=
  [fmov, imov, fneg, ineg, inot, fabs, iabs, fsign, isign, fadd, iadd, fsub, isub, fmul, imul,
   fdiv, idiv, udiv, umod, fmod, flt, fge, feq, fne, ilt, ige, ult, uge, ieq, ine, iand, ior, ixor,
   ishl, ishr, ushr, f2i, f2u, i2f, u2f, bcsel, fdot2, fdot3, fdot4, bany2, bany3, bany4, ball2,
   ball3, ball4, vec2, vec3, vec4, fddx, fddy, fddxFine, fddyFine, fddxCoarse, fddyCoarse, ffloor,
   fceil, ffract, ftrunc, froundEven, fsqrt, frsq, fexp2, flog2, fsin, fcos, fpow, fmin, fmax,
   imin, imax, umin, umax, flrp, ffma]

def text : AluOp → String
  | fmov => "fmov"
  | imov => "imov"
  | fneg => "fneg"
  | ineg => "ineg"
  | inot => "inot"
  | fabs => "fabs"
  | iabs => "iabs"
  | fsign => "fsign"
  | isign => "isign"
  | fadd => "fadd"
  | iadd => "iadd"
  | fsub => "fsub"
  | isub => "isub"
  | fmul => "fmul"
  | imul => "imul"
  | fdiv => "fdiv"
  | idiv => "idiv"
  | udiv => "udiv"
  | umod => "umod"
  | fmod => "fmod"
  | flt => "flt"
  | fge => "fge"
  | feq => "feq"
  | fne => "fne"
  | ilt => "ilt"
  | ige => "ige"
  | ult => "ult"
  | uge => "uge"
  | ieq => "ieq"
  | ine => "ine"
  | iand => "iand"
  | ior => "ior"
  | ixor => "ixor"
  | ishl => "ishl"
  | ishr => "ishr"
  | ushr => "ushr"
  | f2i => "f2i"
  | f2u => "f2u"
  | i2f => "i2f"
  | u2f => "u2f"
  | bcsel => "bcsel"
  | fdot2 => "fdot2"
  | fdot3 => "fdot3"
  | fdot4 => "fdot4"
  | bany2 => "bany2"
  | bany3 => "bany3"
  | bany4 => "bany4"
  | ball2 => "ball2"
  | ball3 => "ball3"
  | ball4 => "ball4"
  | vec2 => "vec2"
  | vec3 => "vec3"
  | vec4 => "vec4"
  | fddx => "fddx"
  | fddy => "fddy"
  | fddxFine => "fddx_fine"
  | fddyFine => "fddy_fine"
  | fddxCoarse => "fddx_coarse"
  | fddyCoarse => "fddy_coarse"
  | ffloor => "ffloor"
  | fceil => "fceil"
  | ffract => "ffract"
  | ftrunc => "ftrunc"
  | froundEven => "fround_even"
  | fsqrt => "fsqrt"
  | frsq => "frsq"
  | fexp2 => "fexp2"
  | flog2 => "flog2"
  | fsin => "fsin"
  | fcos => "fcos"
  | fpow => "fpow"
  | fmin => "fmin"
  | fmax => "fmax"
  | imin => "imin"
  | imax => "imax"
  | umin => "umin"
  | umax => "umax"
  | flrp => "flrp"
  | ffma => "ffma"

/-- The operation written as `s`. -/
def ofText? (s : String) : Option AluOp := all.find? (·.text == s)

/-- How many sources the operation takes. -/
def arity : AluOp → Nat
  | fmov | imov | fneg | ineg | inot | fabs | iabs | fsign | isign | f2i | f2u | i2f | u2f
  | bany2 | bany3 | bany4 | ball2 | ball3 | ball4 | fddx | fddy | fddxFine | fddyFine
  | fddxCoarse | fddyCoarse | ffloor | fceil | ffract | ftrunc | froundEven | fsqrt | frsq
  | fexp2 | flog2 | fsin | fcos => 1
  | vec3 | bcsel | flrp | ffma => 3
  | vec4 => 4
  | _ => 2

/-- The lanes read from each source by an operation that does not work lane by lane. -/
def inputWidth? : AluOp → Option Nat
  | fdot2 | bany2 | ball2 => some 2
  | fdot3 | bany3 | ball3 => some 3
  | fdot4 | bany4 | ball4 => some 4
  | vec2 | vec3 | vec4 => some 1
  | _ => none

/-- The operation that builds a vector of `lanes` lanes; a single lane is a move. -/
def ofLanes : Nat → AluOp
  | 2 => vec2
  | 3 => vec3
  | 4 => vec4
  | _ => imov

/-- The dot product of vectors of `lanes` lanes; a single lane is a product. -/
def dot : Nat → AluOp
  | 2 => fdot2
  | 3 => fdot3
  | 4 => fdot4
  | _ => fmul

/-- Whether any of `lanes` lanes is true; a single lane is a move. -/
def anyOf : Nat → AluOp
  | 2 => bany2
  | 3 => bany3
  | 4 => bany4
  | _ => imov

/-- Whether all of `lanes` lanes are true; a single lane is a move. -/
def allOf : Nat → AluOp
  | 2 => ball2
  | 3 => ball3
  | 4 => ball4
  | _ => imov

end AluOp

/-- The lane of a source that each lane of the operation reads. -/
abbrev Swizzle := Quad UInt8

/-- A source of an operation: a register and the lanes read from it. -/
structure Source where
  value : Register
  swizzle : Swizzle
deriving DecidableEq, Repr

namespace Source

/-- Reads the lanes in order. -/
def whole (value : Register) : Source := ⟨value, 0, 1, 2, 3⟩

/-- Reads one lane for every lane of the operation. -/
def lane (value : Register) (i : UInt8) : Source := ⟨value, Quad.splat i⟩

/-- Reads a register of `lanes` lanes, its last lane wherever it has no more. -/
def fit (value : Register) (lanes : Nat) : Source :=
  let last := (min (max lanes 1) 4 - 1).toUInt8
  ⟨value, 0, min 1 last, min 2 last, min 3 last⟩

/-- The lanes that a source reads out of the contents of its register. -/
def select (s : Source) (contents : Lanes) : Lanes :=
  s.swizzle.map fun i => contents.get (i &&& 3).toNat

end Source

end ShaderIR
