import ShaderIR.Variable

/-!
# Places

A place is a location in memory: a variable and the links that lead from it to a part. Extending a
place gives a new one and leaves the old one as it was.
-/

namespace ShaderIR

/-- The number of an instruction of a function, which is also the register it defines. -/
abbrev Register := Nat

/-- An index known when a place is built, or held in the first lane of a register. -/
inductive Index where
  | direct (i : Word)
  | dynamic (r : Register)
deriving DecidableEq, Repr

/-- One step from a place to a part of it. -/
inductive Link where
  /-- An element of an array or a column of a matrix. -/
  | element (i : Index)
  /-- A member of a structure. -/
  | member (i : Word)
deriving DecidableEq, Repr

/-- A variable and the links that lead to a part of it. -/
structure Place where
  root : VariableId
  path : List Link := []
deriving DecidableEq, Repr

namespace Place

/-- The place one link further. -/
def extend (p : Place) (l : Link) : Place := { p with path := p.path ++ [l] }

/-- The element or column with a known index. -/
def element (p : Place) (i : Word) : Place := p.extend (.element (.direct i))

/-- The member with index `i`. -/
def member (p : Place) (i : Word) : Place := p.extend (.member i)

/-- The registers that dynamic indices read, in path order. -/
def registers (p : Place) : List Register :=
  p.path.filterMap fun
    | .element (.dynamic r) => some r
    | _ => none

/-- The place of child `index` of a value of shape `shape` that is stored at `p`. -/
def child (p : Place) (shape : Shape) (index : Word) : Place :=
  match shape with
  | .struct _ => p.member index
  | _ => p.element index

end Place

end ShaderIR
