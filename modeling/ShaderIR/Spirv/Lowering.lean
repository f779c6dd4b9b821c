import ShaderIR.Module
import ShaderIR.Spirv.Event
import ShaderIR.Spirv.IdTable
import ShaderIR.Spirv.SourceBlock

/-!
# The state of lowering

Turning a stream into a module is a computation over one state: what ids stand for, the parts of the
module that are done, and the function under construction. A failure ends it and keeps the state, so
that what was reported before is not lost.

Code is put into the function under construction at a spot that computations of type `Emit` carry
along.
-/

namespace ShaderIR.Spirv

/-- What the width of a derivative is made of. -/
inductive FwidthExpansion where
  /-- Twice the derivative along x. -/
  | legacy
  /-- The derivatives along x and y. -/
  | derivatives
deriving DecidableEq, Repr

/-- Choices that a caller makes. -/
structure Options where
  fwidth : FwidthExpansion := .legacy
deriving DecidableEq, Repr

/-- An entry point whose function is not known yet. -/
structure PendingEntryPoint where
  name : String
  stage : Stage
  function : Id
deriving DecidableEq, Repr

/-- The state of lowering. -/
structure Context where
  options : Options
  ids : IdTable
  module : Module := {}
  /-- The entry points in order of declaration. -/
  entryPoints : List PendingEntryPoint := []
  /-- The stage of the first entry point. -/
  stage : Option Stage := none
  blocks : Array SourceBlock := #[]
  functions : Array SourceFunction := #[]
  /-- The function under construction. -/
  function : Function := {}
  /-- The block of the stream in which control leaves a block of the function under construction;
  the most recent entry counts. -/
  ends : List (BlockId × Nat) := []
  /-- The block into which the code of a block of the stream went; the most recent entry counts. -/
  placed : List (Nat × BlockId) := []
  /-- Phis that have no sources yet. -/
  pendingPhis : List (Id × Tree) := []
  /-- The conditionals and loops of the function under construction so far. -/
  conditionals : Nat := 0
  loops : Nat := 0
  /-- The key of the next tree. -/
  nextKey : Nat := 0
  /-- Known transposes by the key of the tree. -/
  transposes : List (Nat × Tree) := []
  /-- What was reported, the most recent first. -/
  events : List Event := []

/-- A computation that takes part in turning a stream into a module. -/
abbrev Lower := EStateM Error Context

/-- A computation that may put code at a spot of the function under construction. -/
abbrev Emit := ReaderT Spot Lower

namespace Lower

/-- The result of a look-up, or its failure. -/
def ofExcept {α : Type} : Except Error α → Lower α
  | .ok a => pure a
  | .error e => throw e

/-- Fails because the stream has no meaning as a module. -/
def meaningless {α : Type} (why : Meaningless) : Lower α := throw (.meaningless why)

/-- Reports an event. -/
def report (e : Event) : Lower Unit := modify fun c => { c with events := e :: c.events }

/-! ### Operands and ids -/

/-- The operand of an instruction with an index. -/
def operand (i : RawInstruction) (index : Nat) : Lower Word := ofExcept (i.operand index)

/-- Looks something up in the table of ids. -/
def lookup {α : Type} (f : IdTable → Except Error α) : Lower α := do
  ofExcept (f (← get).ids)

/-- Changes the table of ids. -/
def updateIds (f : IdTable → Except Error IdTable) : Lower Unit := do
  let ids ← lookup f
  modify fun c => { c with ids }

/-- Gives an id its meaning. -/
def define (id : Id) (value : Value) : Lower Unit := updateIds (·.define id value)

/-- The type that an id stands for. -/
def typeOf (id : Id) : Lower TypeId := do return (← lookup (·.typeValue id)).ty

/-- The type that an operand names. -/
def typeOperand (i : RawInstruction) (index : Nat) : Lower TypeId := do
  typeOf (← operand i index)

/-! ### Types -/

/-- The shape of a type. -/
def shape (ty : TypeId) : Lower Shape := do
  return ((← get).module.types.shape? ty).getD .void

/-- The lanes of a scalar or vector type. -/
def lanes (ty : TypeId) : Lower Nat := do
  match (← shape ty).lanes? with
  | some n => pure n
  | none => meaningless (.notRegister ty)

/-- Adds a type, or finds it. -/
def insertType (t : Ty) : Lower TypeId :=
  modifyGet fun c =>
    let (ty, types) := c.module.types.insert t
    (ty, { c with module := { c.module with types } })

/-- Keeps the types that a look-up of a type leaves. -/
def keepTypes (found : Option (TypeId × Types)) (otherwise : Meaningless) : Lower TypeId :=
  match found with
  | some (ty, types) => do
    modify fun c => { c with module := { c.module with types } }
    return ty
  | none => meaningless otherwise

/-- The type of a child of a composite type. -/
def childType (ty : TypeId) (index : Nat) : Lower TypeId := do
  keepTypes ((← get).module.types.child? ty index) (.noChild ty index)

/-- How deep a type can go: types only refer to types before them. -/
def typeDepth : Lower Nat := do return (← get).module.types.size + 1

/-! ### Constants and variables -/

/-- Adds a constant. -/
def addConstant (constant : Constant) : Lower ConstantId :=
  modifyGet fun c =>
    let constants := c.module.constants
    (constants.size, { c with module := { c.module with constants := constants.push constant } })

/-- The constant with a number. -/
def constant (id : ConstantId) : Lower Constant := do
  return ((← get).module.constants[id]?).getD { ty := 0, value := .flat [] }

/-- Adds a variable, which `owned` lists with the function under construction. -/
def addVariable (var : Variable) (owned : Bool) : Lower VariableId :=
  modifyGet fun c =>
    let (v, module) := c.module.addVariable var none
    let function :=
      if owned then { c.function with locals := c.function.locals ++ [v] } else c.function
    (v, { c with module, function })

/-! ### Trees -/

/-- A key that no tree has yet. -/
def freshKey : Lower Nat := modifyGet fun c => (c.nextKey, { c with nextKey := c.nextKey + 1 })

/-- A new tree with one register. -/
def leaf (ty : TypeId) (r : Register) : Lower Tree := do return .leaf (← freshKey) ty r

/-- A new tree over other trees. -/
def node (ty : TypeId) (children : List Tree) : Lower Tree := do
  return .node (← freshKey) ty children

/-- The register of a tree that must be a single one. -/
def register (t : Tree) : Lower Register :=
  match t.register? with
  | some r => pure r
  | none => meaningless .expectedRegister

/-- Gives an id a value of one register. -/
def defineRegister (id : Id) (ty : TypeId) (r : Register) : Lower Unit := do
  define id (.tree (← leaf ty r))

/-! ### The function under construction -/

/-- Changes the function under construction. -/
def modifyFunction {α : Type} (f : Function → α × Function) : Lower α :=
  modifyGet fun c =>
    let (a, function) := f c.function
    (a, { c with function })

/-- Adds an empty block. -/
def addBlock : Lower BlockId := modifyFunction (·.addBlock)

/-- Puts an instruction at a spot. -/
def insertAt (spot : Spot) (i : Instruction) : Lower Register := modifyFunction (·.insert spot i)

/-- The lanes of a register. -/
def registerLanes (r : Register) : Lower Nat := do
  match (← get).function.instructions[r]? with
  | some i => pure i.lanes
  | none => throw (.foreignRegister r)

end Lower

namespace Emit

/-- Puts an instruction at the spot. -/
def instruction (i : Instruction) : Emit Register := fun spot => Lower.insertAt spot i

/-- Puts an operation over given sources at the spot. -/
def aluWith (op : AluOp) (sources : List Source) (lanes : Nat) : Emit Register :=
  instruction (.alu op sources lanes)

/-- Puts an operation over whole registers at the spot; the last lane of a narrower register stands
in for the lanes it lacks. -/
def alu (op : AluOp) (registers : List Register) (lanes : Nat) : Emit Register := do
  let sources ← registers.mapM fun r => do return Source.fit r (← Lower.registerLanes r)
  aluWith op sources lanes

/-- Loads a constant vector. -/
def loadConst (bits : List Word) : Emit Register := instruction (.loadConst bits)

/-- Copies one lane of a register. -/
def lane (r : Register) (i : Word) : Emit Register := aluWith .imov [.lane r i.toUInt8] 1

/-- Builds a vector from single lanes of registers. -/
def gather (lanes : List (Register × Word)) : Emit Register :=
  aluWith (.ofLanes lanes.length) (lanes.map fun (r, i) => .lane r i.toUInt8) lanes.length

/-! ### Trees -/

/-- A tree of a type whose references go at most `depth` deep, with registers that `make` gives for
a number of lanes. -/
def treeWithin (make : Nat → Emit Register) : (depth : Nat) → TypeId → Emit Tree
  | 0, _ => throw .endlessNesting
  | depth + 1, ty => do
    let shape ← Lower.shape ty
    match shape.lanes? with
    | some lanes => Lower.leaf ty (← make lanes)
    | none =>
      match shape.childCount? with
      | none => Lower.meaningless (.notValueType ty)
      | some count =>
        let children ← (List.range count).mapM fun i => do
          treeWithin make depth (← Lower.childType ty i)
        Lower.node ty children

/-- A tree of a type, with registers that `make` gives for a number of lanes. -/
def treeOfType (make : Nat → Emit Register) (ty : TypeId) : Emit Tree := do
  treeWithin make (← Lower.typeDepth) ty

/-- Cuts words into pieces of `size` words, the last of which may be shorter. -/
def pieces (size : Nat) : (count : Nat) → List Word → List (List Word)
  | 0, _ | _, [] => []
  | count + 1, words => words.take size :: pieces size count (words.drop size)

/-- Loads a constant whose children go at most `depth` deep as a tree. -/
def constantTreeWithin : (depth : Nat) → ConstantId → Emit Tree
  | 0, _ => throw .endlessNesting
  | depth + 1, c => do
    let constant ← Lower.constant c
    match constant.value with
    | .flat bits =>
      match ← Lower.shape constant.ty with
      | .matrix columns rows _ =>
        let columnType ← Lower.childType constant.ty 0
        let children ← (pieces rows.lanes columns.lanes bits).mapM fun column => do
          Lower.leaf columnType (← loadConst column)
        Lower.node constant.ty children
      | _ => Lower.leaf constant.ty (← loadConst bits)
    | .composite children => Lower.node constant.ty (← children.mapM (constantTreeWithin depth))

/-- Loads a constant as a tree. -/
def constantTree (c : ConstantId) : Emit Tree := do
  constantTreeWithin ((← get).module.constants.size + 1) c

/-- The value that an id stands for; constants are loaded at the spot. -/
def treeOf (id : Id) : Emit Tree := do
  match ← Lower.lookup (·.get id) with
  | .tree t => return t
  | .constant c => constantTree c
  | v => throw (.wrongKind id .value v.kind)

/-- The register that an id stands for; constants are loaded at the spot. -/
def registerOf (id : Id) : Emit Register := do Lower.register (← treeOf id)

/-- The value that an operand names. -/
def treeOperand (i : RawInstruction) (index : Nat) : Emit Tree := do
  treeOf (← Lower.operand i index)

/-- The register that an operand names. -/
def registerOperand (i : RawInstruction) (index : Nat) : Emit Register := do
  registerOf (← Lower.operand i index)

end Emit

end ShaderIR.Spirv
