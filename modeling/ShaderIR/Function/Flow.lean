import ShaderIR.Function.Basic

/-!
# The edges of a function

Control leaves a block by its jump, or else goes on to what the region puts behind the block. A
conditional is entered by the first blocks of its arms and a loop by the first block of its body;
the last block of an arm leads behind the conditional and the last block of a body back to its
first.
-/

namespace ShaderIR

/-- The innermost loop around a block: where it starts and what stands behind it. -/
structure LoopScope where
  head : BlockId
  after : BlockId
deriving DecidableEq, Repr

/-- Where control goes from a block that ends in `jump`, or in no jump with `next` behind it. -/
def targets (jump : Option Jump) (loop : Option LoopScope) (next : List BlockId) : List BlockId :=
  match jump with
  | some .break => (loop.map (·.after)).toList
  | some .continue => (loop.map (·.head)).toList
  | some .return => []
  | none => next

namespace Region

/-- The edges out of the blocks of a region, in the order of its blocks, where `follow` is the block
that stands behind the region. -/
def edges (jump : BlockId → Option Jump) (loop : Option LoopScope) (follow : Option BlockId) :
    Region → List (BlockId × BlockId)
  | last b => (targets (jump b) loop follow.toList).map (b, ·)
  | cond b _ _ onTrue onFalse rest =>
    (targets (jump b) loop [onTrue.head, onFalse.head]).map (b, ·)
      ++ onTrue.edges jump loop (some rest.head)
      ++ onFalse.edges jump loop (some rest.head)
      ++ rest.edges jump loop follow
  | Region.loop b _ body rest =>
    (targets (jump b) loop [body.head]).map (b, ·)
      ++ body.edges jump (some ⟨body.head, rest.head⟩) (some body.head)
      ++ rest.edges jump loop follow

end Region

/-- Appends a value unless the list has it. -/
def appendNew {α : Type} [BEq α] (l : List α) (a : α) : List α :=
  if l.contains a then l else l ++ [a]

namespace Function

/-- The edges of a function. -/
def edges (f : Function) : List (BlockId × BlockId) := f.body.edges f.jump? none none

/-- Records an edge at both of its ends. -/
def addEdge (blocks : Array Block) (edge : BlockId × BlockId) : Array Block :=
  (blocks.modify edge.1 fun b => { b with successors := appendNew b.successors edge.2 }).modify
    edge.2 fun b => { b with predecessors := appendNew b.predecessors edge.1 }

/-- Computes the successors and predecessors of every block anew. -/
def withFlow (f : Function) : Function :=
  let cleared := f.blocks.toList.map fun b => { b with successors := [], predecessors := [] }
  { f with blocks := f.edges.foldl addEdge cleared.toArray }

end Function

end ShaderIR
