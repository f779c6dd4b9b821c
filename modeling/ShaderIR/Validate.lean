import ShaderIR.Module

/-!
# Structural problems of a module

A check of what later passes rely on: every number names something, phis lead their block and have
one source per predecessor, jumps end their block, and only a loop is left by a break or a continue.
The predecessors of the blocks must have been computed before.
-/

namespace ShaderIR

/-- What a number that names nothing was meant to name. -/
inductive Referent where
  | type
  | constant
  | instruction
  | variable
deriving DecidableEq, Repr

/-- The word for a referent. -/
def Referent.text : Referent → String
  | .type => "type"
  | .constant => "constant"
  | .instruction => "instruction"
  | .variable => "variable"

/-- Something wrong with a module. -/
inductive Problem where
  | dangling (what : Referent) (index size : Nat)
  | jumpNotLast (function : String) (block : BlockId)
  | jumpOutsideLoop (function : String) (block : BlockId)
  | phiNotLeading (function : String) (block : BlockId)
  | phiSourceMismatch (function : String) (block : BlockId) (sources predecessors : Nat)
  | missingEntryFunction (entryPoint : String)
deriving DecidableEq, Repr

namespace Problem

/-- The message for a problem. -/
def message : Problem → String
  | dangling what index size =>
    s!"{what.text} handle index {index} out of bounds (arena size: {size})"
  | jumpNotLast function block =>
    s!"function '{function}': jump in block {block} is not the last instruction"
  | jumpOutsideLoop function block =>
    s!"function '{function}': block {block} jumps out of a loop it is not in"
  | phiNotLeading function block =>
    s!"function '{function}': phi in block {block} does not lead the block"
  | phiSourceMismatch function block sources predecessors =>
    s!"function '{function}': phi in block {block} has {sources} sources " ++
      s!"for {predecessors} predecessors"
  | missingEntryFunction entryPoint =>
    s!"entry point '{entryPoint}' references a missing function"

end Problem

/-- The problem of an index that is not below the size of what it indexes. -/
def boundProblems (what : Referent) (index size : Nat) : List Problem :=
  if index < size then [] else [.dangling what index size]

/-- The problems of a variable; its initial value is looked at only if its type exists. -/
def Variable.problems (m : Module) (v : Variable) : List Problem :=
  if v.ty < m.types.size then
    match v.init with
    | some c => boundProblems .constant c m.constants.size
    | none => []
  else
    boundProblems .type v.ty m.types.size

namespace Function

/-- The problems of the numbers an instruction refers to. -/
def referenceProblems (f : Function) (m : Module) (i : Instruction) : List Problem :=
  i.reads.flatMap (boundProblems .instruction · f.instructions.size)
    ++ i.places.flatMap fun p => boundProblems .variable p.root m.vars.size

/-- The problems of the instructions `rs` of block `b`, where `led` says whether only phis have come
before them. -/
def orderProblems (f : Function) (name : String) (b : BlockId) (predecessors : Nat)
    (inLoop : Bool) : (led : Bool) → (rs : List Register) → List Problem
  | _, [] => []
  | led, r :: rs =>
    match f.instructions[r]? with
    | none => f.orderProblems name b predecessors inLoop led rs
    | some (.phi sources _) =>
      (if led then [] else [.phiNotLeading name b])
        ++ (if sources.length = predecessors then []
          else [.phiSourceMismatch name b sources.length predecessors])
        ++ f.orderProblems name b predecessors inLoop led rs
    | some (.jump j) =>
      (if rs.isEmpty then [] else [.jumpNotLast name b])
        ++ (if j = .return ∨ inLoop then [] else [.jumpOutsideLoop name b])
        ++ f.orderProblems name b predecessors inLoop false rs
    | some _ => f.orderProblems name b predecessors inLoop false rs

/-- The problems of one block. -/
def blockProblems (f : Function) (name : String) (inLoop : Bool) (b : BlockId) : List Problem :=
  match f.blocks[b]? with
  | some block =>
    f.orderProblems name b block.predecessors.length inLoop true block.instructions
  | none => []

/-- The problems of the blocks of a region. -/
def regionProblems (f : Function) (name : String) (inLoop : Bool) : Region → List Problem
  | .last b => f.blockProblems name inLoop b
  | .cond b _ _ onTrue onFalse rest =>
    f.blockProblems name inLoop b ++ f.regionProblems name inLoop onTrue
      ++ f.regionProblems name inLoop onFalse ++ f.regionProblems name inLoop rest
  | .loop b _ body rest =>
    f.blockProblems name inLoop b ++ f.regionProblems name true body
      ++ f.regionProblems name inLoop rest

/-- The problems of a function: first those of its references, then those of its blocks. -/
def problems (f : Function) (m : Module) : List Problem :=
  f.instructions.toList.flatMap (f.referenceProblems m)
    ++ f.regionProblems (f.name.getD "<unnamed>") false f.body

end Function

namespace Module

/-- Everything wrong with a module: variables first, then entry points, then functions. -/
def problems (m : Module) : List Problem :=
  m.vars.toList.flatMap (·.problems m)
    ++ (m.entryPoints.filter fun e => m.functions.size ≤ e.function).map
      (.missingEntryFunction ·.name)
    ++ m.functions.toList.flatMap (·.problems m)

/-- The first thing wrong with a module. -/
def firstProblem? (m : Module) : Option Problem := m.problems.head?

end Module

end ShaderIR
