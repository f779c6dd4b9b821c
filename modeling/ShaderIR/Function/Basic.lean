import ShaderIR.Region

/-!
# Functions

A function owns its instructions and blocks and arranges the blocks in a region. It grows by putting
instructions into blocks and by continuing a region with a conditional or a loop; what is put in
is numbered in order of arrival and never moves.
-/

namespace ShaderIR

/-- The number of a function. -/
abbrev FunctionId := Nat

/-- A straight run of instructions and the edges that lead into and out of it. -/
structure Block where
  instructions : List Register := []
  predecessors : List BlockId := []
  successors : List BlockId := []
deriving DecidableEq, Repr

/-- Where an instruction goes. -/
inductive Spot where
  /-- Behind everything in the block. -/
  | append (block : BlockId)
  /-- Behind everything in the block but a jump that ends it. -/
  | beforeJump (block : BlockId)
  /-- Before everything in the block. -/
  | front (block : BlockId)
deriving DecidableEq, Repr

/-- The block of a spot. -/
def Spot.block : Spot → BlockId
  | append b | beforeJump b | front b => b

/-- A function with its instructions, its blocks and their arrangement. -/
structure Function where
  name : Option String := none
  /-- The type of the result; nothing for a function without one. -/
  result : Option TypeId := none
  locals : List VariableId := []
  /-- The local variable that holds the result on return. -/
  returnVar : Option VariableId := none
  instructions : Array Instruction := #[]
  blocks : Array Block := #[{}]
  body : Region := .last 0

namespace Function

/-- The jump that ends a block. -/
def jump? (f : Function) (b : BlockId) : Option Jump := do
  let block ← f.blocks[b]?
  let last ← block.instructions.getLast?
  let instruction ← f.instructions[last]?
  instruction.jump?

/-- Numbers an instruction and puts it at a spot. -/
def insert (f : Function) (spot : Spot) (i : Instruction) : Register × Function :=
  let r := f.instructions.size
  let place (rs : List Register) : List Register :=
    match spot with
    | .append _ => rs ++ [r]
    | .beforeJump b =>
      if (f.jump? b).isSome then rs.dropLast ++ r :: rs.getLast?.toList else rs ++ [r]
    | .front _ => r :: rs
  (r, { f with
    instructions := f.instructions.push i
    blocks := f.blocks.modify spot.block fun b => { b with instructions := place b.instructions } })

/-- Adds an empty block that no region holds yet. -/
def addBlock (f : Function) : BlockId × Function :=
  (f.blocks.size, { f with blocks := f.blocks.push {} })

/-- Continues a region with a conditional and an empty block behind it. The blocks of the two arms
are numbered before that block. -/
def insertCond (f : Function) (ref : RegionRef) (condition : Register) : Nat × Function :=
  let node := f.body.conditionals.length
  let (onTrue, f) := f.addBlock
  let (onFalse, f) := f.addBlock
  let (after, f) := f.addBlock
  let continued := Region.extend fun b =>
    .cond b node condition (.last onTrue) (.last onFalse) (.last after)
  (node, { f with body := f.body.update ref continued })

/-- Continues a region with a loop and an empty block behind it. The block of the body is numbered
before that block. -/
def insertLoop (f : Function) (ref : RegionRef) : Nat × Function :=
  let node := f.body.loops.length
  let (body, f) := f.addBlock
  let (after, f) := f.addBlock
  let continued := Region.extend fun b => .loop b node (.last body) (.last after)
  (node, { f with body := f.body.update ref continued })

/-- The conditionals in the order of their numbers. -/
def conditionals (f : Function) : List Region.Conditional :=
  let found := f.body.conditionals
  (List.range found.length).filterMap fun n => found.find? (·.node = n)

/-- The bodies of the loops in the order of their numbers. -/
def loops (f : Function) : List Region :=
  let found := f.body.loops
  (List.range found.length).filterMap fun n => found.lookup n

/-- Overwrites an instruction where it stands. -/
def replace (f : Function) (r : Register) (i : Instruction) : Function :=
  { f with instructions := f.instructions.setIfInBounds r i }

end Function

end ShaderIR
