import ShaderIR.Alu.Eval
import ShaderIR.Module

/-!
# Running a function

A run interprets one function against a memory of four-lane slots, one per variable and index path;
a slot that was never written reads as zero. Textures and derivatives give zero.

A run enters block after block. What remains to be done behind the region it is in is kept as a
list, so a run is a recursion on how many more blocks may be entered: every entry costs one step,
and a run that has none left fails.
-/

namespace ShaderIR

/-! ### Memory -/

/-- The slots that were written, the most recently written first. -/
structure Memory where
  slots : List ((VariableId × List Word) × Lanes) := []

namespace Memory

/-- The contents of the slot of a variable at an index path. -/
def read (m : Memory) (v : VariableId) (path : List Word) : Lanes :=
  (m.slots.lookup (v, path)).getD .zero

/-- Replaces the contents of a slot. -/
def write (m : Memory) (v : VariableId) (path : List Word) (lanes : Lanes) : Memory :=
  ⟨((v, path), lanes) :: m.slots.filter fun slot => slot.1 != (v, path)⟩

/-- Fills the part of a variable at `path` from a constant whose children go at most `depth` deep.
A flat constant of matrix type fills one slot per column. -/
def fillWithin (types : Types) (constants : Constants) (v : VariableId) :
    (depth : Nat) → (path : List Word) → ConstantId → Memory → Memory
  | 0, _, _, m => m
  | depth + 1, path, c, m =>
    match constants[c]? with
    | none => m
    | some { ty, value := .flat bits, .. } =>
      match types.shape? ty with
      | some (.matrix columns rows _) =>
        (List.range columns.lanes).foldl (fun m column =>
          m.write v (path ++ [column.toUInt32])
            (.ofWords ((bits.drop (column * rows.lanes)).take rows.lanes))) m
      | _ => m.write v path (.ofWords bits)
    | some { value := .composite children, .. } =>
      (children.zipIdx).foldl (fun m (child, i) =>
        fillWithin types constants v depth (path ++ [i.toUInt32]) child m) m

/-- Fills a variable from a constant. -/
def fill (types : Types) (constants : Constants) (v : VariableId) (c : ConstantId)
    (m : Memory) : Memory :=
  fillWithin types constants v (constants.size + 1) [] c m

end Memory

/-- The memory before a run: every initial value is in place. -/
def Module.initialMemory (m : Module) : Memory :=
  (m.vars.toList.zipIdx).foldl (fun memory (v, id) =>
    match v.init with
    | some c => memory.fill m.types m.constants id c
    | none => memory) {}

/-! ### Runs -/

/-- Why a run stopped before its end. -/
inductive EvalError where
  /-- More blocks were entered than the limit allows. -/
  | stepLimit (limit : Nat)
  /-- A register was read that nothing had defined. -/
  | undefined (r : Register)
  /-- A phi has no source for the block that control came from. -/
  | missingPhiSource (r : Register) (pred : Option BlockId)
  /-- A break or continue outside of any loop. -/
  | strayJump (j : Jump)
deriving DecidableEq, Repr

namespace EvalError

/-- The message for an error. -/
def message : EvalError → String
  | stepLimit limit => s!"block step limit of {limit} exceeded"
  | undefined r => s!"%{r} read before it was defined"
  | missingPhiSource r pred =>
    let shown :=
      match pred with
      | some b => s!"Some({b})"
      | none => "None"
    s!"phi %{r} has no source for predecessor {shown}"
  | strayJump j => s!"{j.text} executed outside of a loop"

end EvalError

/-- The state of a run. -/
structure RunState where
  memory : Memory := {}
  /-- Whether a fragment was dropped. -/
  discarded : Bool := false
  registers : Array (Option Lanes) := #[]
  /-- The block that control came from. -/
  previous : Option BlockId := none

/-- A computation that changes the state of a run and may fail; a failure keeps the changes. -/
abbrev Exec := EStateM EvalError RunState

namespace Exec

/-- The contents of a register. -/
def register (r : Register) : Exec Lanes := do
  match ((← get).registers[r]?).join with
  | some lanes => pure lanes
  | none => throw (.undefined r)

/-- Defines a register. -/
def define (r : Register) (lanes : Lanes) : Exec Unit :=
  modify fun s => { s with registers := s.registers.setIfInBounds r (some lanes) }

/-- The lanes that a source reads. -/
def source (s : Source) : Exec Lanes := do
  return s.select (← register s.value)

/-- The value of an index. -/
def index : Index → Exec Word
  | .direct i => pure i
  | .dynamic r => do return (← register r).x

/-- The index path of a place. -/
def path (p : Place) : Exec (List Word) :=
  p.path.mapM fun
    | .element i => index i
    | .member i => pure i

/-- The contents of a slot. -/
def readSlot (v : VariableId) (path : List Word) : Exec Lanes := do
  return (← get).memory.read v path

/-- Replaces the contents of a slot. -/
def writeSlot (v : VariableId) (path : List Word) (lanes : Lanes) : Exec Unit :=
  modify fun s => { s with memory := s.memory.write v path lanes }

end Exec

/-- The lanes of `new` whose bits the mask has, and those of `old` elsewhere. -/
def maskedLanes (mask : UInt8) (new old : Lanes) : Lanes :=
  .ofFn fun i => if (mask >>> i.toUInt8) &&& 1 = 1 then new.get i else old.get i

/-- Carries out an instruction that is neither a phi nor ends its block. -/
def Instruction.perform (r : Register) : Instruction → Exec Unit
  | .loadConst bits => Exec.define r (.ofWords bits)
  | .undef _ | .texture _ => Exec.define r .zero
  | .alu op sources lanes => do
    let inputs ← sources.mapM Exec.source
    Exec.define r (op.eval inputs lanes)
  | .loadVar place _ => do
    let path ← Exec.path place
    Exec.define r (← Exec.readSlot place.root path)
  | .storeVar place value mask => do
    let path ← Exec.path place
    let new ← Exec.register value
    let old ← Exec.readSlot place.root path
    Exec.writeSlot place.root path (maskedLanes mask new old)
  | .copyVar dst src => do
    let srcPath ← Exec.path src
    let dstPath ← Exec.path dst
    Exec.writeSlot dst.root dstPath (← Exec.readSlot src.root srcPath)
  | .phi .. | .discard | .jump _ => pure ()

namespace Function

/-- The values of the phis that lead a block, read together before any of them changes. -/
def incoming (f : Function) (previous : Option BlockId) :
    List Register → Exec (List (Register × Lanes))
  | [] => pure []
  | r :: rs =>
    match f.instructions[r]? with
    | some (.phi sources _) => do
      match sources.find? fun s => some s.pred == previous with
      | none => throw (.missingPhiSource r previous)
      | some s =>
        let lanes ← Exec.register s.value
        let rest ← f.incoming previous rs
        return (r, lanes) :: rest
    | _ => pure []

/-- Carries out instructions until one leaves the block; the answer is the jump it leaves by. -/
def execInstructions (f : Function) : List Register → Exec (Option Jump)
  | [] => pure none
  | r :: rs =>
    match f.instructions[r]? with
    | none | some (.phi ..) => f.execInstructions rs
    | some (.jump j) => pure (some j)
    | some .discard => do
      modify fun s => { s with discarded := true }
      return some .return
    | some i => do
      i.perform r
      f.execInstructions rs

/-- Carries out a block; the answer is the jump it leaves by. -/
def execBlock (f : Function) (b : BlockId) : Exec (Option Jump) := do
  let instructions := ((f.blocks[b]?).map (·.instructions)).getD []
  let phis ← f.incoming (← get).previous instructions
  phis.forM fun (r, lanes) => Exec.define r lanes
  let jump ← f.execInstructions instructions
  modify fun s => { s with previous := some b }
  return jump

end Function

/-- What remains to be done behind the region that is running. -/
inductive Pending where
  /-- The arm of a conditional is running; go on with what follows the conditional. -/
  | resume (rest : Region)
  /-- The body of a loop is running; run it again, or go on with `rest` after a break. -/
  | again (body rest : Region)

/-- The innermost loop that is running, with what remains to be done around it. -/
def innermostLoop? : List Pending → Option (Region × Region × List Pending)
  | [] => none
  | .resume _ :: stack => innermostLoop? stack
  | .again body rest :: stack => some (body, rest, stack)

/-- Where a run is: about to enter a region, with what is pending behind it. -/
structure Position where
  region : Region
  stack : List Pending := []

/-- Where a run goes from the first block of its region, which it leaves by `jump`; nowhere at the
end. -/
def Position.next (p : Position) (jump : Option Jump) : Exec (Option Position) :=
  match jump with
  | none =>
    match p.region with
    | .last _ =>
      match p.stack with
      | [] => return none
      | .resume rest :: stack => return some ⟨rest, stack⟩
      | .again body rest :: stack => return some ⟨body, .again body rest :: stack⟩
    | .cond _ _ condition onTrue onFalse rest => do
      let lanes ← Exec.register condition
      return some ⟨if lanes.x ≠ 0 then onTrue else onFalse, .resume rest :: p.stack⟩
    | .loop _ _ body rest => return some ⟨body, .again body rest :: p.stack⟩
  | some .return => return none
  | some .break =>
    match innermostLoop? p.stack with
    | some (_, rest, stack) => return some ⟨rest, stack⟩
    | none => throw (.strayJump .break)
  | some .continue =>
    match innermostLoop? p.stack with
    | some (body, rest, stack) => return some ⟨body, .again body rest :: stack⟩
    | none => throw (.strayJump .continue)

namespace Function

/-- Enters one block; the answer is where the run goes from there. -/
def enter (f : Function) (p : Position) : Exec (Option Position) := do
  p.next (← f.execBlock p.region.head)

/-- Runs on from a position, entering at most `steps` blocks. -/
def execFrom (f : Function) (limit : Nat) : (steps : Nat) → Position → Exec Unit
  | 0, _ => throw (.stepLimit limit)
  | steps + 1, p => do
    match ← f.enter p with
    | none => pure ()
    | some q => f.execFrom limit steps q

end Function

/-- A module that is being run: its memory and flags last from one run to the next. -/
structure Machine where
  memory : Memory := {}
  discarded : Bool := false
  stepLimit : Nat := 100000

namespace Machine

/-- The machine of a module before any run. -/
def ofModule (m : Module) : Machine := { memory := m.initialMemory }

/-- The state before a run: no register is defined. -/
def start (machine : Machine) (f : Function) : RunState :=
  { memory := machine.memory
    discarded := machine.discarded
    registers := (List.replicate f.instructions.size none).toArray }

/-- Runs a function from its first block. -/
def run (machine : Machine) (f : Function) : Option EvalError × Machine :=
  match f.execFrom machine.stepLimit machine.stepLimit { region := f.body } (machine.start f) with
  | .ok _ s => (none, { machine with memory := s.memory, discarded := s.discarded })
  | .error e s => (some e, { machine with memory := s.memory, discarded := s.discarded })

end Machine

end ShaderIR
