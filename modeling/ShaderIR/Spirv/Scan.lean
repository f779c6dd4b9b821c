import ShaderIR.Spirv.Lowering

/-!
# Finding functions and blocks

One pass over the stream behind the preamble finds every function and every block and gives their
ids a meaning, so that branches can name blocks that come later. No code is made yet.
-/

namespace ShaderIR.Spirv

/-- Where a scan is. -/
inductive ScanState where
  /-- Between functions. -/
  | outside
  /-- In a function, between blocks. -/
  | inFunction
  /-- In a block, after the instructions `code`, the last of them first. -/
  | inBlock (label : Id) (code : List RawInstruction)
deriving Repr

namespace Scan

/-- Starts a function. -/
def openFunction (i : RawInstruction) : Lower ScanState := do
  let result ← Lower.typeOperand i 0
  let id ← Lower.operand i 1
  let _ ← Lower.typeOperand i 3
  let isVoid := (← Lower.shape result) = .void
  let index := (← get).functions.size
  modify fun c =>
    let function : Function :=
      { name := c.ids.name? id, result := if isVoid then none else some result }
    { c with
      module := { c.module with functions := c.module.functions.push function }
      functions := c.functions.push { id } }
  Lower.define id (.function index)
  return .inFunction

/-- Starts a block of the last function. -/
def openBlock (i : RawInstruction) : Lower ScanState := do
  let label ← Lower.operand i 0
  let index := (← get).blocks.size
  Lower.define label (.block index)
  modify fun c =>
    { c with
      functions := c.functions.modify (c.functions.size - 1) fun f =>
        { f with blocks := f.blocks ++ [index] } }
  return .inBlock label []

/-- Ends a block. -/
def closeBlock (label : Id) (code : List RawInstruction) (terminator : RawInstruction) :
    Lower ScanState := do
  modify fun c =>
    { c with blocks := c.blocks.push { label, code := code.reverse, terminator } }
  return .inFunction

/-- Goes past one instruction. -/
def step (state : ScanState) (i : RawInstruction) : Lower ScanState := do
  let mismatch : Error := .regionMismatch i.offset
  match i.op, state with
  | .opFunction, .outside => openFunction i
  | .opFunction, _ => throw mismatch
  | .opFunctionParameter, _ => throw (.unsupported .functionParameters)
  | .opFunctionEnd, .inFunction => return .outside
  | .opFunctionEnd, _ => throw mismatch
  | .opLabel, .inFunction => openBlock i
  | .opLabel, _ => throw mismatch
  | _, state =>
    if i.isMerge then
      match state with
      | .inBlock label code =>
        let _ ← Lower.ofExcept i.merge
        return .inBlock label (i :: code)
      | _ => throw mismatch
    else if i.isTerminator then
      match state with
      | .inBlock label code => closeBlock label code i
      | _ => throw mismatch
    else
      match state with
      | .outside => throw (.unsupportedOpcode i.op)
      | .inFunction => throw mismatch
      | .inBlock label code => return .inBlock label (i :: code)

/-- Goes past instructions, behind which the stream ends at `stop` or has a fault. -/
def steps (fault : Option Error) (stop : Nat) :
    ScanState → List RawInstruction → Lower Unit
  | state, [] =>
    match fault, state with
    | some e, _ => throw e
    | none, .outside => pure ()
    | none, _ => throw (.regionMismatch stop)
  | state, i :: is => do steps fault stop (← step state i) is

end Scan

/-- Finds the functions and blocks of a stream from `start` on. -/
def scan (words : List Word) (start : Nat) : Lower Unit :=
  let tiling := Tiling.ofStream words start words.length
  Scan.steps tiling.fault words.length .outside tiling.instructions

end ShaderIR.Spirv
