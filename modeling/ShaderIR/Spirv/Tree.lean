import ShaderIR.Place

/-!
# Value trees

A register holds one vector, so the value of a matrix, an array or a structure is a tree with a
register at every scalar, vector and matrix column. Each node has a key of its own, by which what is
known about it, such as its transpose, can be found again: two trees may hold the same registers and
still be different values.
-/

namespace ShaderIR.Spirv

/-- A value of any type as a tree over registers. -/
inductive Tree where
  | leaf (key : Nat) (ty : TypeId) (register : Register)
  | node (key : Nat) (ty : TypeId) (children : List Tree)
deriving Repr

namespace Tree

/-- Induction over a tree: a node has what all its children have. -/
@[elab_as_elim]
theorem inductionOn {P : Tree → Prop} (t : Tree)
    (leaf : ∀ key ty register, P (.leaf key ty register))
    (node : ∀ key ty children, (∀ t ∈ children, P t) → P (.node key ty children)) : P t :=
  @Tree.rec P (fun ts => ∀ t ∈ ts, P t) leaf node (fun _ h => nomatch h)
    (fun _ _ ht hts _ h => (List.mem_cons.mp h).elim (fun h => h ▸ ht) (hts _)) t

def key : Tree → Nat
  | leaf key _ _ | node key _ _ => key

def ty : Tree → TypeId
  | leaf _ ty _ | node _ ty _ => ty

mutual

/-- The registers of a tree from left to right. -/
def leaves : Tree → List Register
  | leaf _ _ r => [r]
  | node _ _ children => leavesOfList children

/-- The registers of several trees from left to right. -/
def leavesOfList : List Tree → List Register
  | [] => []
  | t :: ts => t.leaves ++ leavesOfList ts

end

/-- The register of a tree that is a single leaf. -/
def register? : Tree → Option Register
  | leaf _ _ r => some r
  | node .. => none

end Tree

end ShaderIR.Spirv
