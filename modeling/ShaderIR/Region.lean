import ShaderIR.Instruction

/-!
# Regions

A region is straight-line control flow with structure in it: it starts with a block and ends with
one, and between two of its blocks stands a conditional or a loop. The arms of a conditional and the
body of a loop are regions again, so a function body is a tree whose shape the type enforces.

Conditionals and loops carry numbers, by which their arms and bodies are named.
-/

namespace ShaderIR

/-- Structured control flow, from its first block to its last. -/
inductive Region where
  /-- A block that ends the region. -/
  | last (block : BlockId)
  /-- A block, the conditional that follows it, and what follows the conditional. -/
  | cond (block : BlockId) (node : Nat) (condition : Register) (onTrue onFalse rest : Region)
  /-- A block, the loop that follows it, and what follows the loop. -/
  | loop (block : BlockId) (node : Nat) (body rest : Region)
deriving DecidableEq, Repr

/-- Names a region of a function. -/
inductive RegionRef where
  | body
  | onTrue (node : Nat)
  | onFalse (node : Nat)
  | loopBody (node : Nat)
deriving DecidableEq, Repr

/-- A part of a region as seen from outside. -/
inductive RegionNode where
  | block (block : BlockId)
  | cond (node : Nat)
  | loop (node : Nat)
deriving DecidableEq, Repr

namespace Region

/-- The block by which control enters. -/
def head : Region → BlockId
  | last b | cond b .. | loop b .. => b

/-- The block that ends the region. -/
def tail : Region → BlockId
  | last b => b
  | cond _ _ _ _ _ rest => rest.tail
  | loop _ _ _ rest => rest.tail

/-- The parts of the region itself, those of arms and bodies left out. -/
def nodes : Region → List RegionNode
  | last b => [.block b]
  | cond b node _ _ _ rest => .block b :: .cond node :: rest.nodes
  | loop b node _ rest => .block b :: .loop node :: rest.nodes

/-- All blocks, in the order in which a reader meets them. -/
def blocks : Region → List BlockId
  | last b => [b]
  | cond b _ _ onTrue onFalse rest => b :: (onTrue.blocks ++ onFalse.blocks ++ rest.blocks)
  | loop b _ body rest => b :: (body.blocks ++ rest.blocks)

/-- A conditional: its number, its condition and its arms. -/
structure Conditional where
  node : Nat
  condition : Register
  onTrue : Region
  onFalse : Region

/-- All conditionals, in the order in which a reader meets them. -/
def conditionals : Region → List Conditional
  | last _ => []
  | cond _ node condition onTrue onFalse rest =>
    ⟨node, condition, onTrue, onFalse⟩ ::
      (onTrue.conditionals ++ onFalse.conditionals ++ rest.conditionals)
  | loop _ _ body rest => body.conditionals ++ rest.conditionals

/-- All loops with their numbers, in the order in which a reader meets them. -/
def loops : Region → List (Nat × Region)
  | last _ => []
  | cond _ _ _ onTrue onFalse rest => onTrue.loops ++ onFalse.loops ++ rest.loops
  | loop _ node body rest => (node, body) :: (body.loops ++ rest.loops)

/-- The arm or body that a name refers to, looked for below a region. -/
def below? (ref : RegionRef) : Region → Option Region
  | last _ => none
  | cond _ node _ onTrue onFalse rest =>
    if ref = .onTrue node then some onTrue
    else if ref = .onFalse node then some onFalse
    else (onTrue.below? ref).or ((onFalse.below? ref).or (rest.below? ref))
  | loop _ node body rest =>
    if ref = .loopBody node then some body
    else (body.below? ref).or (rest.below? ref)

/-- The region that a name refers to. -/
def find? (r : Region) : RegionRef → Option Region
  | .body => some r
  | ref => r.below? ref

/-- Lets the region go on: its last block `b` becomes the region `f b`. -/
def extend (f : BlockId → Region) : Region → Region
  | last b => f b
  | cond b node condition onTrue onFalse rest =>
    cond b node condition onTrue onFalse (rest.extend f)
  | loop b node body rest => loop b node body (rest.extend f)

/-- Changes the arm or body that a name refers to, looked for below a region. -/
def updateBelow (ref : RegionRef) (f : Region → Region) : Region → Region
  | last b => last b
  | cond b node condition onTrue onFalse rest =>
    cond b node condition
      (if ref = .onTrue node then f onTrue else onTrue.updateBelow ref f)
      (if ref = .onFalse node then f onFalse else onFalse.updateBelow ref f)
      (rest.updateBelow ref f)
  | loop b node body rest =>
    loop b node (if ref = .loopBody node then f body else body.updateBelow ref f)
      (rest.updateBelow ref f)

/-- Changes the region that a name refers to. -/
def update (ref : RegionRef) (f : Region → Region) (r : Region) : Region :=
  match ref with
  | .body => f r
  | ref => r.updateBelow ref f

end Region

end ShaderIR
