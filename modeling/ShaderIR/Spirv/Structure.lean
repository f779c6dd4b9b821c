import ShaderIR.Spirv.Body

/-!
# Structure from branches

The blocks of a function become a region again: merge annotations say which blocks head a selection
or a loop and where it comes together. Walking from block to block, code is made for each in turn.
At a loop header or a two-way branch the walk goes into the body or the arms first, and then on
from where they come together. A branch to the merge block of the innermost loop is a break and a
branch to its header is a continue.

A walk from a block is determined by the block and by where branches out of its region go. If a walk
goes into itself from the same block with the same scope, either its code defines an id, and the
second time that fails, or nothing ever stops it. So a bound on how far the walk goes, counted in
blocks and scopes, ends only walks without end.
-/

namespace ShaderIR.Spirv

/-- Where branches out of the region that is being walked go. -/
structure Scope where
  /-- Behind the innermost loop. -/
  breakTo : Option Nat := none
  /-- To the header of the innermost loop. -/
  continueTo : Option Nat := none
  /-- To where the selection comes together. -/
  stop : Option Nat := none
deriving DecidableEq, Repr

namespace Scope

/-- The jump that leaves the innermost loop, or starts it again, for a branch to a block. -/
def jump? (scope : Scope) (target : Nat) : Option Jump :=
  if scope.breakTo = some target then some .break
  else if scope.continueTo = some target then some .continue
  else none

end Scope

/-- The merge block and the continue target of the loop that a block opens: a header opens one unless
it is the header of the loop that is being walked. -/
def SourceBlock.loop? (code : SourceBlock) (scope : Scope) (source : Nat) : Option (Id × Id) :=
  match code.merge with
  | .loop merge continueTarget =>
    if scope.continueTo = some source then none else some (merge, continueTarget)
  | _ => none

namespace Structure

/-- Where the walk goes from the last block of a region: to another block, or nowhere. A branch out
of the innermost loop, or back to its start, becomes a jump. -/
def follow (scope : Scope) (block : BlockId) (target : Nat) : Lower (Option Nat) := do
  if scope.stop = some target then return none
  match scope.jump? target with
  | some jump =>
    let _ ← Lower.insertAt (.append block) (.jump jump)
    return none
  | none => return some target

/-- Records that control leaves a block as a block of the stream. -/
def markEnd (block : BlockId) (source : Nat) : Lower Unit :=
  modify fun c => { c with ends := (block, source) :: c.ends }

/-- The number of the next conditional. -/
def nextConditional : Lower Nat :=
  modifyGet fun c => (c.conditionals, { c with conditionals := c.conditionals + 1 })

/-- The number of the next loop. -/
def nextLoop : Lower Nat := modifyGet fun c => (c.loops, { c with loops := c.loops + 1 })

/-- Makes the code of a block of the stream at the end of `block`. -/
def emitBody (block : BlockId) (source : Nat) (code : SourceBlock) (before : Option Nat) :
    Lower Unit := do
  modify fun c => { c with placed := (source, block) :: c.placed }
  let blocks := (← get).blocks
  let before := (before.bind fun b => blocks[b]?).map (·.label)
  (Body.instructions before code.body).run (.append block)
  markEnd block source

/-- Returns a value: it is stored in the variable for the result. -/
def returnValue (block : BlockId) (terminator : RawInstruction) : Lower Unit := do
  match (← get).function.returnVar with
  | none => Lower.meaningless .valueFromVoid
  | some v =>
    let store : Emit Unit := do
      let value ← Emit.treeOperand terminator 0
      Code.storeTree { root := v } value
      let _ ← Emit.instruction (.jump .return)
    store.run (.append block)

/-- A walk from a block of the stream to the end of its region, putting code into `block` first.

Here `before` is the block of the stream that `block` already holds and that `source` continues, and
`visited` are the blocks this walk has been at. -/
abbrev Walker := (block : BlockId) → (source : Nat) → (before : Option Nat) →
  (visited : List Nat) → Scope → Lower Region

/-- Goes on from a block to where a branch leads, unless the branch leaves the region. -/
def goOn (walk : Walker) (block : BlockId) (target : Nat) (before : Option Nat)
    (visited : List Nat) (scope : Scope) : Lower Region := do
  match ← follow scope block target with
  | some next => walk block next before visited scope
  | none => return .last block

/-- Walks the loop that a block of the stream heads, and then on from behind it. -/
def walkLoop (walk : Walker) (block : BlockId) (source : Nat) (label merge continueTarget : Id)
    (visited : List Nat) (scope : Scope) : Lower Region := do
  Lower.report (.loop label merge continueTarget)
  let node ← nextLoop
  let inside ← Lower.addBlock
  let after ← Lower.addBlock
  let mergeBlock ← Lower.lookup (·.block merge)
  let body ← walk inside source none []
    { breakTo := some mergeBlock, continueTo := some source }
  let rest ← walk after mergeBlock none visited scope
  return .loop block node body rest

/-- Reads a two-way branch at the end of `block`: the register of its condition, and where it leads. -/
def fork (block : BlockId) (branch : RawInstruction) : Lower (Register × Nat × Nat) := do
  let condition ← (Emit.registerOperand branch 0).run (.append block)
  let trueLabel ← Lower.operand branch 1
  let onTrue ← Lower.lookup (·.block trueLabel)
  let falseLabel ← Lower.operand branch 2
  let onFalse ← Lower.lookup (·.block falseLabel)
  return (condition, onTrue, onFalse)

/-- Walks the arms of a conditional, whose code goes into `trueBlock` and `falseBlock` first, and then on
from where they come together, putting code into `after`. -/
def walkArms (walk : Walker) (code : SourceBlock) (trueBlock falseBlock after : BlockId)
    (onTrue onFalse : Nat) (visited : List Nat) (scope : Scope)
    (region : Region → Region → Region → Region) : Lower Region := do
  -- an arm that only jumps is closed at once, and the other goes on behind the conditional
  let jumping : Option (BlockId × Jump × Nat) :=
    match scope.jump? onTrue, scope.jump? onFalse with
    | some jump, _ => some (trueBlock, jump, onFalse)
    | none, some jump => some (falseBlock, jump, onTrue)
    | none, none => none
  match jumping with
  | some (arm, jump, other) =>
    let _ ← Lower.insertAt (.append arm) (.jump jump)
    let rest ← goOn walk after other none visited scope
    return region (.last trueBlock) (.last falseBlock) rest
  | none =>
    let .selection merge := code.merge | throw (.missingSelectionMerge code.label)
    let mergeBlock ← Lower.lookup (·.block merge)
    let arms := { scope with stop := some mergeBlock }
    let trueArm ← walk trueBlock onTrue none [] arms
    let falseArm ← walk falseBlock onFalse none [] arms
    let rest ← goOn walk after mergeBlock none visited scope
    return region trueArm falseArm rest

/-- Opens a conditional for a two-way branch and walks its arms. -/
def walkCond (walk : Walker) (block : BlockId) (source : Nat) (code : SourceBlock)
    (visited : List Nat) (scope : Scope) : Lower Region := do
  let (condition, onTrue, onFalse) ← fork block code.terminator
  let node ← nextConditional
  let trueBlock ← Lower.addBlock
  let falseBlock ← Lower.addBlock
  let after ← Lower.addBlock
  markEnd trueBlock source
  markEnd falseBlock source
  walkArms walk code trueBlock falseBlock after onTrue onFalse visited scope
    (.cond block node condition)

/-- Goes on from a block of the stream whose code was made, as the instruction that ends it says. -/
def walkTerminator (walk : Walker) (block : BlockId) (source : Nat) (code : SourceBlock)
    (visited : List Nat) (scope : Scope) : Lower Region := do
  match code.terminator.op with
  | .opBranch =>
    let label ← Lower.operand code.terminator 0
    let target ← Lower.lookup (·.block label)
    goOn walk block target (some source) visited scope
  | .opBranchConditional => walkCond walk block source code visited scope
  | .opReturn =>
    let _ ← Lower.insertAt (.append block) (.jump .return)
    return .last block
  | .opReturnValue =>
    returnValue block code.terminator
    return .last block
  | .opKill =>
    let _ ← Lower.insertAt (.append block) .discard
    return .last block
  | op => throw (.unsupportedOpcode op)

/-- Walks at a block of the stream, and further with `walk`. A loop header that is not the one being
walked opens a loop. -/
def walkBlock (walk : Walker) : Walker := fun block source before visited scope => do
  if scope.stop = some source then return .last block
  else
    match (← get).blocks[source]? with
    | none => throw .endlessNesting
    | some code =>
      if visited.contains source then Lower.meaningless (.reachedAgain code.label)
      else
        match code.loop? scope source with
        | some (merge, continueTarget) =>
          walkLoop walk block source code.label merge continueTarget (source :: visited) scope
        | none =>
          emitBody block source code before
          walkTerminator walk block source code (source :: visited) scope

/-- Walks at most `bound` blocks and scopes far. -/
def walkFrom : (bound : Nat) → Walker
  | 0 => fun _ _ _ _ _ => throw .endlessNesting
  | bound + 1 => walkBlock (walkFrom bound)

/-- How far a walk over `blocks` blocks can go that ends: between two blocks whose code defines an id it
goes into every block in every scope, with every block in turn each time. -/
def walkBound (blocks : Nat) : Nat :=
  let n := blocks + 1
  (blocks * (n * n * n) + 1) * (n * n)

/-- The region of the function whose first block of the stream is `entry`. -/
def walk (entry : Nat) : Lower Region := do
  walkFrom (walkBound (← get).blocks.size) 0 entry none [] {}

end Structure

end ShaderIR.Spirv
