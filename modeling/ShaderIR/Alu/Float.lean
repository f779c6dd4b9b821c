import ShaderIR.Word

/-!
# Float lanes

Float lanes are IEEE binary32 numbers given by their bits. Sums, products, quotients and roots are
rounded once each, to the nearest number and to the even one of two; longer formulas are rounded
after every operation, except the product and sum that are fused.
-/

namespace ShaderIR

namespace FloatLane

open Float.Model (UnpackedFloat Format)

/-- The larger of two numbers; a number is preferred to what is none. -/
def max (a b : Float32) : Float32 :=
  if a.isNaN then b else if b.isNaN then a else if a < b then b else a

/-- The smaller of two numbers; a number is preferred to what is none. -/
def min (a b : Float32) : Float32 :=
  if a.isNaN then b else if b.isNaN then a else if b < a then b else a

/-- One with the sign of a number, zero for zero and for what is no number. -/
def sign (a : Float32) : Float32 :=
  if a > 0 then 1 else if a < 0 then -1 else 0

/-- The whole number next to `a` on the side of zero. -/
def trunc (a : Float32) : Float32 := if a < 0 then a.ceil else a.floor

/-- The bits of `magnitude` with the sign bit of `sign`. -/
def withSign (magnitude sign : Word) : Word := (magnitude &&& 0x7FFFFFFF) ||| (sign &&& 0x80000000)

/-- The nearest whole number, of two the even one. From `2 ^ 23` on every number is whole; below,
adding `2 ^ 23` leaves no place for a fraction. -/
def roundEven (a : Float32) : Float32 :=
  let limit : Float32 := 8388608
  let magnitude := a.abs
  if magnitude < limit then
    .ofBits (withSign ((magnitude + limit) - limit).toBits a.toBits)
  else
    a

/-- The part of a number above the whole number below it. -/
def fract (a : Float32) : Float32 := a - a.floor

/-- The remainder of a division whose quotient is rounded down. -/
def mod (a b : Float32) : Float32 := a - b * (a / b).floor

/-- The blend of `a` and `b` by `t`. -/
def lerp (a b t : Float32) : Float32 := a * (1 - t) + b * t

/-- The product of `a` and `b` plus `c` over exact mantissas, rounded once. -/
def mulAddUnpacked : (a b c : UnpackedFloat) → UnpackedFloat
  | .finite s₁ m₁ e₁ _, .finite s₂ m₂ e₂ _, .finite s₃ m₃ e₃ _ =>
    let e := Min.min (e₁ + e₂) e₃
    let product := (s₁ * s₂).apply ((m₁ * m₂) <<< (e₁ + e₂ - e).toNat)
    let addend := s₃.apply (m₃ <<< (e₃ - e).toNat)
    UnpackedFloat.normalize .binary32 (product + addend) e .positive
  | .finite .., .finite .., .infinity s => .infinity s
  | a@(.finite ..), b@(.finite ..), .zero _ => UnpackedFloat.mul .binary32 a b
  -- a product with an operand that is not finite, or zero, is exact
  | a, b, c => UnpackedFloat.add .binary32 (UnpackedFloat.mul .binary32 a b) c

/-- The product of `a` and `b` plus `c`, rounded once. -/
def mulAdd (a b c : Float32) : Float32 :=
  .ofModel (.pack (mulAddUnpacked a.toModel.unpack b.toModel.unpack c.toModel.unpack))

/-- The sum of a list of numbers from left to right, begun with negative zero. -/
def sum (l : List Float32) : Float32 := l.foldl (· + ·) (-0.0)

/-- A signed integer as a number. -/
def ofSigned (a : Word) : Float32 :=
  if a.toInt32 < 0 then -((-a).toFloat32) else a.toFloat32

/-- The whole part of a number as a signed integer, the nearest one if it is out of range, and zero
for what is no number. -/
def toSigned (a : Float32) : Word :=
  if a < 0 then -(Min.min (-a).toUInt32 0x80000000) else Min.min a.toUInt32 0x7FFFFFFF

/-- A function of binary64 numbers, on binary32 numbers. -/
def viaDouble (f : Float → Float) (a : Float32) : Float32 := (f a.toFloat).toFloat32

/-- The power of a number, computed in binary64. -/
def pow (a b : Float32) : Float32 := (Float.pow a.toFloat b.toFloat).toFloat32

end FloatLane

end ShaderIR
