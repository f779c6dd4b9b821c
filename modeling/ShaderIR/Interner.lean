/-!
# Interned values

An interner keeps each value once and names it by the place where it was first put, so that two
values are equal exactly when their numbers are. Types are kept this way.
-/

namespace ShaderIR

/-- Distinct values in the order in which they were first inserted. -/
structure Interner (α : Type) where
  items : Array α := #[]

namespace Interner

variable {α : Type}

/-- How many values are kept. -/
def size (s : Interner α) : Nat := s.items.size

/-- Whether nothing is kept. -/
def isEmpty (s : Interner α) : Bool := s.items.isEmpty

/-- The value with number `i`. -/
def get? (s : Interner α) (i : Nat) : Option α := s.items[i]?

/-- The values in the order of their numbers. -/
def toList (s : Interner α) : List α := s.items.toList

/-- The number of a value that is kept. -/
def find? [BEq α] (s : Interner α) (a : α) : Option Nat := s.items.toList.idxOf? a

/-- The number of a value, which is appended unless it is already kept. -/
def insert [BEq α] (s : Interner α) (a : α) : Nat × Interner α :=
  match s.find? a with
  | some i => (i, s)
  | none => (s.items.size, ⟨s.items.push a⟩)

end Interner

end ShaderIR
