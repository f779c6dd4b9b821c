import ShaderIR.Spirv.Code.Phi
import ShaderIR.Function.Flow

/-!
# The sources of phis

Once a function has all its blocks and edges, every phi gets a source for each predecessor of its
block. A block that ends a listed block of the stream supplies the listed value. Any other block
gets a phi of its own, whose sources come from its predecessors in turn; it is made once for each
phi of the stream.
-/

namespace ShaderIR.Spirv.PhiSources

/-- The phi trees that were made in blocks on the way. -/
abbrev Made := List (BlockId × Tree)

/-- The blocks that lead to a block of the function under construction. -/
def predecessors (block : BlockId) : Lower (List BlockId) := do
  match (← get).function.blocks[block]? with
  | some b => return b.predecessors
  | none => throw (.foreignBlock block)

/-- Adds a source to one phi. -/
def addSource (pred : BlockId) (f : Function) (phi value : Register) : Function :=
  match f.instructions[phi]? with
  | some (.phi sources lanes) => f.replace phi (.phi (sources ++ [⟨pred, value⟩]) lanes)
  | _ => f

/-- Adds the registers of `source` as the sources for `pred` of the phis of a tree. -/
def addSources (phi : Tree) (pred : BlockId) (source : Tree) : Lower Unit :=
  modify fun c =>
    { c with
      function := (phi.leaves.zip source.leaves).foldl
        (fun f (phi, value) => addSource pred f phi value) c.function }

/-- The value listed for a block of the function under construction, if it ends a listed block of
the stream. -/
def listedAt? (pairs : List (Id × Id)) (block : BlockId) : Lower (Option Id) := do
  let c ← get
  return do
    let source ← c.ends.lookup block
    let code ← c.blocks[source]?
    Code.listedValue? pairs code.label

/-- Adds sources to a phi for some blocks, with the values that `find` gives at their ends. -/
def fill (find : BlockId → Made → Lower (Tree × Made)) (phi : Tree) (preds : List BlockId)
    (made : Made) : Lower Made :=
  preds.foldlM (fun made pred => do
    let (source, made) ← find pred made
    addSources phi pred source
    return made) made

/-- The value of a phi of type `ty` at the end of a block, going at most `depth` blocks back. -/
def valueAt (pairs : List (Id × Id)) (ty : TypeId) :
    (depth : Nat) → BlockId → Made → Lower (Tree × Made)
  | 0, _, _ => throw .endlessNesting
  | depth + 1, block, made => do
    match ← listedAt? pairs block with
    | some value => return (← (Emit.treeOf value).run (.beforeJump block), made)
    | none =>
      match made.lookup block with
      | some known => return (known, made)
      | none =>
        let phi ← (Code.phiTree ty).run (.front block)
        let preds ← predecessors block
        if preds.isEmpty then Lower.meaningless .phiUnavailable
        let made ← fill (valueAt pairs ty depth) phi preds ((block, phi) :: made)
        return (phi, made)

/-- Fills in the sources of one phi of a block of the stream, unless it has none to fill in. -/
def resolve (source : Nat) (i : RawInstruction) : Lower Unit := do
  let id ← Lower.operand i 1
  match (← get).pendingPhis.lookup id with
  | none => pure ()
  | some tree =>
    modify fun c => { c with pendingPhis := c.pendingPhis.filter (·.1 ≠ id) }
    let ty ← Lower.typeOperand i 0
    let pairs ← Lower.ofExcept (Code.phiPairs i)
    match (← get).placed.lookup source with
    | none => Lower.meaningless (.phiUnreached id)
    | some block =>
      Lower.report (.phi id)
      let depth := (← get).function.blocks.size + 1
      let _ ← fill (valueAt pairs ty depth) tree (← predecessors block) []

/-- Fills in the sources of the phis of a function of the stream. -/
def resolveAll (f : SourceFunction) : Lower Unit :=
  f.blocks.forM fun source => do
    match (← get).blocks[source]? with
    | none => pure ()
    | some code => (code.code.filter (·.op = .opPhi)).forM (resolve source)

end ShaderIR.Spirv.PhiSources
