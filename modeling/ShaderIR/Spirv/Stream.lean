import ShaderIR.Spirv.Error

/-!
# Word streams

A module is a stream of words: five header words, then instructions, each as long as the upper half
of its first word says. The lower half is the opcode.
-/

namespace ShaderIR.Spirv

/-! ### Header -/

/-- The first word of every stream. -/
def magicNumber : Word := 0x07230203

/-- How many words the header has. -/
def headerLength : Nat := 5

/-- What the header says about a stream. -/
structure Header where
  version : Word
  generator : Word
  /-- Every id is below this. -/
  bound : Word
  schema : Word
deriving DecidableEq, Repr

/-- Reads the header of a stream. -/
def Header.read : List Word → Except Error Header
  | magic :: version :: generator :: bound :: schema :: _ =>
    if magic ≠ magicNumber then .error (.invalidMagic magic)
    else if version ≠ supportedVersion then .error (.unsupportedVersion version)
    else if schema ≠ 0 then .error (.invalidSchema schema)
    else .ok { version, generator, bound, schema }
  | words => .error (.incompleteHeader words.length)

/-! ### Bytes -/

/-- Cuts bytes into words, in the byte order in which the first word is the magic number. -/
def wordsOfBytes (bytes : List UInt8) : Except Error (List Word) :=
  if bytes.length % 4 ≠ 0 then .error (.invalidByteLength bytes.length)
  else
    match Word.ofByteList bytes with
    | [] => .error (.incompleteHeader 0)
    | first :: rest =>
      if first = magicNumber then .ok (first :: rest)
      else if (Word.ofByteListRev bytes).head? = some magicNumber then
        .ok (Word.ofByteListRev bytes)
      else .error (.invalidMagic first)

/-- The bytes of words, the least significant byte of each first. -/
def bytesOfWords (words : List Word) : List UInt8 := words.flatMap Word.toBytes

/-! ### Literal text -/

/-- A text as words: its bytes, a zero byte, and as many more as fill the last word. -/
def wordsOfText (text : String) : List Word :=
  let bytes := text.toUTF8.data.toList
  let padding := 4 - bytes.length % 4
  Word.ofByteList (bytes ++ List.replicate padding 0)

/-- The bytes before the first zero byte of a list of words, and the number of words up to and with
that byte; nothing if no byte is zero. -/
def bytesUntilZero : List Word → Option (List UInt8 × Nat)
  | [] => none
  | w :: ws =>
    let bytes := w.toBytes
    if bytes.contains 0 then some (bytes.takeWhile (· ≠ 0), 1)
    else (bytesUntilZero ws).map fun (rest, used) => (bytes ++ rest, used + 1)

/-- The text at the start of a list of words, with the number of words it takes. -/
def textOfWords? (words : List Word) : Option (String × Nat) := do
  let (bytes, used) ← bytesUntilZero words
  let text ← String.fromUTF8? ⟨bytes.toArray⟩
  return (text, used)

/-! ### Instructions -/

/-- An instruction of a stream. -/
structure RawInstruction where
  op : Opcode
  /-- Where in the stream the instruction starts. -/
  offset : Nat
  operands : List Word
deriving DecidableEq, Repr

namespace RawInstruction

/-- How many words the instruction takes. -/
def length (i : RawInstruction) : Nat := i.operands.length + 1

/-- The words of the instruction. -/
def words (i : RawInstruction) : List Word :=
  ((i.length.toUInt32 <<< 16) ||| i.op.number.toUInt32) :: i.operands

/-- The operand with an index. -/
def operand (i : RawInstruction) (index : Nat) : Except Error Word :=
  match i.operands[index]? with
  | some w => .ok w
  | none => .error (.invalidOperands i.op)

/-- The operands from an index on. -/
def operandsFrom (i : RawInstruction) (index : Nat) : List Word := i.operands.drop index

/-- The text that starts at an operand, with the number of words it takes. -/
def literal (i : RawInstruction) (index : Nat) : Except Error (String × Nat) :=
  match textOfWords? (i.operandsFrom index) with
  | some result => .ok result
  | none => .error (.badString i.offset)

/-- The operands from an index on in pairs; there must be an even number of them. -/
def pairsFrom (i : RawInstruction) (index : Nat) : Except Error (List (Word × Word)) :=
  go (i.operandsFrom index)
where
  go : List Word → Except Error (List (Word × Word))
    | [] => .ok []
    | [_] => .error (.invalidOperands i.op)
    | a :: b :: rest => (go rest).map ((a, b) :: ·)

end RawInstruction

/-! ### Tilings -/

/-- A stretch of a stream cut into instructions. -/
structure Tiling where
  instructions : List RawInstruction
  /-- What is wrong behind the last instruction, if the stretch does not end there. -/
  fault : Option Error
  /-- Where the stretch ends, or where the fault is. -/
  stop : Nat
deriving Repr

namespace Tiling

/-- Cuts words into instructions, where `skip` more words belong to the one before. -/
def cut : (offset skip : Nat) → List Word → Tiling
  | offset, _, [] => ⟨[], none, offset⟩
  | offset, skip + 1, _ :: rest => cut (offset + 1) skip rest
  | offset, 0, first :: rest =>
    let count := (first >>> 16).toNat
    let number := (first &&& 0xFFFF).toNat
    let remaining := rest.length + 1
    if count = 0 then ⟨[], some (.invalidWordCount offset), offset⟩
    else if remaining < count then
      ⟨[], some (.instructionOverrun offset count remaining), offset⟩
    else
      match Opcode.ofNumber? number with
      | none => ⟨[], some (.unknownOpcode number offset), offset⟩
      | some op =>
        let behind := cut (offset + 1) (count - 1) rest
        { behind with
          instructions := { op, offset, operands := rest.take (count - 1) } :: behind.instructions }

/-- The words of a stream from `start` up to `stop`, cut into instructions. -/
def ofStream (words : List Word) (start stop : Nat) : Tiling :=
  cut start 0 ((words.take stop).drop start)

end Tiling

/-- Hands over instructions until the handler answers no, and answers where it ended: at the
instruction it did not go past, or at the end of the stretch. -/
def handleAll {σ : Type} (handler : RawInstruction → EStateM Error σ Bool) (fault : Option Error)
    (stop : Nat) : List RawInstruction → EStateM Error σ Nat
  | [] =>
    match fault with
    | some e => throw e
    | none => pure stop
  | i :: rest => do
    if ← handler i then handleAll handler fault stop rest else pure i.offset

/-- Walks over the instructions of a stream from `start` up to `stop`. -/
def walk {σ : Type} (words : List Word) (start stop : Nat)
    (handler : RawInstruction → EStateM Error σ Bool) : EStateM Error σ Nat :=
  let tiling := Tiling.ofStream words start stop
  handleAll handler tiling.fault tiling.stop tiling.instructions

end ShaderIR.Spirv
