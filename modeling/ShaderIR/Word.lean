/-!
# Words and lanes

A word is the 32-bit unit of a stream, of a register lane and of a memory slot. Registers and slots
hold four words; a shorter list of words is padded with zeros.
-/

namespace ShaderIR

/-- The 32-bit unit of streams, registers and memory. -/
abbrev Word := UInt32

namespace Word

/-- The bit pattern of boolean truth; falsity is zero. -/
def allOnes : Word := 0xFFFFFFFF

/-- The bit pattern of a truth value. -/
def ofBool (b : Bool) : Word := if b then allOnes else 0

/-- The word whose bytes, least significant first, are `a b c d`. -/
def ofBytes (a b c d : UInt8) : Word :=
  a.toUInt32 ||| (b.toUInt32 <<< 8) ||| (c.toUInt32 <<< 16) ||| (d.toUInt32 <<< 24)

/-- The four bytes of a word, least significant first. -/
def toBytes (w : Word) : List UInt8 :=
  [w.toUInt8, (w >>> 8).toUInt8, (w >>> 16).toUInt8, (w >>> 24).toUInt8]

/-- Cuts a list of bytes into words, least significant byte first; a last group that is too short
to fill a word is left out. -/
def ofByteList : List UInt8 → List Word
  | a :: b :: c :: d :: rest => ofBytes a b c d :: ofByteList rest
  | _ => []

/-- Cuts a list of bytes into words, most significant byte first. -/
def ofByteListRev : List UInt8 → List Word
  | a :: b :: c :: d :: rest => ofBytes d c b a :: ofByteListRev rest
  | _ => []

end Word

/-! ### Numbers as text -/

/-- A number in lower-case hexadecimal, with at least `width` digits. -/
def hexDigits (width n : Nat) : String :=
  let digits := Nat.toDigits 16 n
  String.ofList (List.replicate (width - digits.length) '0' ++ digits)

/-- A word as `0x` and eight hexadecimal digits. -/
def Word.hex (w : Word) : String := "0x" ++ hexDigits 8 w.toNat

/-! ### Groups of four -/

/-- Four values, one per lane. -/
structure Quad (α : Type) where
  x : α
  y : α
  z : α
  w : α
deriving DecidableEq, Repr

namespace Quad

variable {α β : Type}

/-- The same value in every lane. -/
def splat (a : α) : Quad α := ⟨a, a, a, a⟩

/-- The value of lane `i`; lanes past the last read as the last. -/
def get (q : Quad α) : Nat → α
  | 0 => q.x
  | 1 => q.y
  | 2 => q.z
  | _ => q.w

/-- The four lanes that a function of the lane number gives. -/
def ofFn (f : Nat → α) : Quad α := ⟨f 0, f 1, f 2, f 3⟩

/-- Applies a function to every lane. -/
def map (f : α → β) (q : Quad α) : Quad β := ⟨f q.x, f q.y, f q.z, f q.w⟩

/-- The lanes in order. -/
def toList (q : Quad α) : List α := [q.x, q.y, q.z, q.w]

/-- The first four values of a list, the missing ones taken from `fill`. -/
def ofList (fill : Quad α) : List α → Quad α
  | [] => fill
  | [a] => { fill with x := a }
  | [a, b] => { fill with x := a, y := b }
  | [a, b, c] => { fill with x := a, y := b, z := c }
  | a :: b :: c :: d :: _ => ⟨a, b, c, d⟩

end Quad

/-- The contents of a register or of a memory slot. -/
abbrev Lanes := Quad Word

namespace Lanes

/-- Four zero words. -/
def zero : Lanes := Quad.splat 0

/-- The first four words of a list, padded with zeros. -/
def ofWords (ws : List Word) : Lanes := Quad.ofList zero ws

end Lanes

end ShaderIR
