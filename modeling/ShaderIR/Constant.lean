import ShaderIR.Type.Basic

/-!
# Constants

A constant of scalar, vector or matrix type is flat: its lanes in order, matrices column by column.
Constants of arrays and structures are composite and name one child constant per element or member.
-/

namespace ShaderIR

/-- The number of a constant. -/
abbrev ConstantId := Nat

/-- The contents of a constant. -/
inductive ConstantValue where
  | flat (bits : List Word)
  | composite (children : List ConstantId)
deriving DecidableEq, Repr

/-- A constant with its type and an optional name. -/
structure Constant where
  name : Option String := none
  ty : TypeId
  value : ConstantValue
deriving DecidableEq, Repr

/-- The constants of a module. -/
abbrev Constants := Array Constant

namespace Constant

/-- The lanes of a flat constant. -/
def bits? (c : Constant) : Option (List Word) :=
  match c.value with
  | .flat bits => some bits
  | .composite _ => none

/-- How many children a constant names itself. -/
def childCount (c : Constant) : Nat :=
  match c.value with
  | .flat _ => 0
  | .composite children => children.length

end Constant

namespace Constants

/-- The flat constants below a constant, counted to a depth of `depth`. -/
def leavesWithin (constants : Constants) : (depth : Nat) → ConstantId → Nat
  | 0, _ => 0
  | depth + 1, c =>
    match constants[c]? with
    | none => 0
    | some { value := .flat _, .. } => 1
    | some { value := .composite children, .. } =>
      (children.map (leavesWithin constants depth)).foldr (· + ·) 0

/-- How many flat constants a constant is made of. -/
def leaves (constants : Constants) (c : ConstantId) : Nat :=
  constants.leavesWithin (constants.size + 1) c

/-- The text of a constant whose children go at most `depth` deep. -/
def textWithin (constants : Constants) : (depth : Nat) → ConstantId → String
  | 0, _ => ""
  | depth + 1, c =>
    match constants[c]? with
    | none => ""
    | some { value := .flat bits, .. } => "(" ++ String.intercalate ", " (bits.map Word.hex) ++ ")"
    | some { value := .composite children, .. } =>
      "\x7b" ++ String.intercalate ", " (children.map (textWithin constants depth)) ++ "\x7d"

/-- The text of a constant: its lanes in parentheses, or its children in braces. -/
def text (constants : Constants) (c : ConstantId) : String :=
  constants.textWithin (constants.size + 1) c

end Constants

end ShaderIR
