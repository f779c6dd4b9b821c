import ShaderIR.Spirv.PhiSources
import ShaderIR.Spirv.Preamble
import ShaderIR.Spirv.Scan
import ShaderIR.Spirv.Structure

/-!
# Reading a module

A stream is read in passes: the preamble, the functions and blocks behind it, then the code of each
function followed by the sources of its phis, and at last the entry points. A failure in any of them
fails the whole, with what was reported until then.
-/

namespace ShaderIR.Spirv

/-- Starts on the function with number `index`: it has no code yet, and a variable for its result if
it has one. -/
def beginFunction (index : Nat) (source : SourceFunction) : Lower Unit := do
  let function := ((← get).module.functions[index]?).getD {}
  Lower.report (.function source.id function.name)
  modify fun c =>
    { c with function, ends := [], pendingPhis := [], conditionals := 0, loops := 0 }
  if let some ty := function.result then
    let var : Variable := { name := some "return_value", ty, mode := .functionLocal }
    let v ← Lower.addVariable var true
    modify fun c => { c with function := { c.function with returnVar := some v } }

/-- Finishes the function with number `index`, whose code is arranged as `body`: its edges and the
sources of its phis are filled in. -/
def finishFunction (index : Nat) (source : SourceFunction) (body : Region) : Lower Unit := do
  modify fun c => { c with function := { c.function with body }.withFlow }
  PhiSources.resolveAll source
  modify fun c =>
    { c with
      module :=
        { c.module with functions := c.module.functions.setIfInBounds index c.function } }

/-- Makes the function with number `index`. -/
def readFunction (index : Nat) (source : SourceFunction) : Lower Unit := do
  let some entry := source.blocks.head? | Lower.meaningless (.noBlocks source.id)
  beginFunction index source
  let body ← Structure.walk entry
  finishFunction index source body

/-- Looks up the functions of the entry points. -/
def readEntryPoints : Lower Unit := do
  let entryPoints ← (← get).entryPoints.mapM fun e => do
    let function ← Lower.lookup (·.function e.function)
    return { name := e.name, stage := e.stage, function : EntryPoint }
  modify fun c => { c with module := { c.module with entryPoints } }

/-- Reads what the code of the functions builds on: the preamble, and which functions and blocks there
are. -/
def readOutline (words : List Word) : Lower Unit := do
  let start ← walk words headerLength words.length Preamble.reported
  scan words start

/-- Makes a module from a stream whose header was read. -/
def readBody (words : List Word) : Lower Module := do
  readOutline words
  (← get).functions.toList.zipIdx.forM fun (source, index) => readFunction index source
  readEntryPoints
  return (← get).module

/-- The state before anything behind the header was read. -/
def Context.start (options : Options) (header : Header) : Context :=
  { options
    ids := .ofBound header.bound.toNat
    events := [.module header.generator header.bound] }

/-- A module or an error, with what was reported on the way. -/
structure Reading where
  result : Except Error Module
  events : List Event := []

/-- Reads a module from a stream of words. -/
def readModule (options : Options) (words : List Word) : Reading :=
  match Header.read words with
  | .error e => { result := .error e }
  | .ok header =>
    match readBody words (.start options header) with
    | .ok m c => { result := .ok m, events := c.events.reverse }
    | .error e c => { result := .error e, events := c.events.reverse }

/-- Reads a module from bytes in either byte order. -/
def readModuleBytes (options : Options) (bytes : List UInt8) : Reading :=
  match wordsOfBytes bytes with
  | .error e => { result := .error e }
  | .ok words => readModule options words

end ShaderIR.Spirv
