import ShaderIR.Spirv.Lowering

/-!
# Phis in the code

A phi whose block continues the block before it takes the value listed for that block. Any other phi
is put in place without sources, which are filled in once the whole function is there.
-/

namespace ShaderIR.Spirv.Code

/-- The values of a phi, each with the label of the block it belongs to. -/
def phiPairs (i : RawInstruction) : Except Error (List (Id × Id)) := do
  let pairs ← i.pairsFrom 2
  if pairs.isEmpty then .error (.invalidOperands i.op) else .ok pairs

/-- The value that is listed first for a block. -/
def listedValue? (pairs : List (Id × Id)) (label : Id) : Option Id :=
  (pairs.find? fun (_, parent) => parent = label).map (·.1)

/-- A tree of phis without sources. -/
def phiTree (ty : TypeId) : Emit Tree :=
  Emit.treeOfType (fun lanes => Emit.instruction (.phi [] lanes)) ty

/-- Handles a phi in a block that continues the block labelled `before`, if any. -/
def phi (before : Option Id) (i : RawInstruction) : Emit Unit := do
  let ty ← Lower.typeOperand i 0
  let id ← Lower.operand i 1
  let pairs ← Lower.ofExcept (phiPairs i)
  match before with
  | some label =>
    match listedValue? pairs label with
    | some value => Lower.define id (.tree (← Emit.treeOf value))
    | none => Lower.meaningless (.phiWithoutEdge id label)
  | none =>
    let tree ← phiTree ty
    Lower.define id (.tree tree)
    modify fun c => { c with pendingPhis := (id, tree) :: c.pendingPhis }

end ShaderIR.Spirv.Code
