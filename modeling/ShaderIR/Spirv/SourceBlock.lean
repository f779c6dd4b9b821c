import ShaderIR.Spirv.Stream

/-!
# Functions and blocks of a stream

A block of the stream runs from its label to the instruction that ends it. Among its instructions
may be one that says where the selection or loop it heads comes together again.
-/

namespace ShaderIR.Spirv

/-- Where the construct that a block heads comes together again. -/
inductive Merge where
  | none
  | selection (merge : Id)
  | loop (merge continueTarget : Id)
deriving DecidableEq, Repr

namespace RawInstruction

/-- Whether an instruction says where a construct comes together. -/
def isMerge (i : RawInstruction) : Bool := i.op = .opSelectionMerge ∨ i.op = .opLoopMerge

/-- What an instruction says about where a construct comes together. -/
def merge (i : RawInstruction) : Except Error Merge := do
  match i.op with
  | .opSelectionMerge => return .selection (← i.operand 0)
  | .opLoopMerge => return .loop (← i.operand 0) (← i.operand 1)
  | _ => return .none

/-- Whether an instruction ends a block. -/
def isTerminator (i : RawInstruction) : Bool :=
  match i.op with
  | .opBranch | .opBranchConditional | .opSwitch | .opReturn | .opReturnValue | .opKill
  | .opUnreachable => true
  | _ => false

end RawInstruction

/-- Splits instructions at the last that says where a construct comes together. -/
def splitAtMerge : List RawInstruction →
    Option (List RawInstruction × RawInstruction × List RawInstruction)
  | [] => none
  | i :: rest =>
    match splitAtMerge rest with
    | some (before, merge, after) => some (i :: before, merge, after)
    | none => if i.isMerge then some ([], i, rest) else none

/-- A block of a stream. -/
structure SourceBlock where
  label : Id
  /-- The instructions between the label and the one that ends the block. -/
  code : List RawInstruction
  terminator : RawInstruction
deriving Repr

namespace SourceBlock

/-- The instructions that are carried out: those before the merge instruction, or all. -/
def body (b : SourceBlock) : List RawInstruction :=
  match splitAtMerge b.code with
  | some (before, _, _) => before
  | none => b.code

/-- Where the construct that the block heads comes together. -/
def merge (b : SourceBlock) : Merge :=
  match splitAtMerge b.code with
  | some (_, i, _) =>
    match i.merge with
    | .ok m => m
    | .error _ => .none
  | none => .none

end SourceBlock

/-- A function of a stream with its blocks in order, by number. -/
structure SourceFunction where
  id : Id
  blocks : List Nat := []
deriving Repr

end ShaderIR.Spirv
