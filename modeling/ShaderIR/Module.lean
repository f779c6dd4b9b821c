import ShaderIR.Function.Flow

/-!
# Modules

A module holds the types, constants, variables and functions of a shader, each under its number, and
the entry points by which a pipeline calls it.
-/

namespace ShaderIR

/-- A function that a stage of the pipeline can call. -/
structure EntryPoint where
  name : String
  stage : Stage
  function : FunctionId
deriving DecidableEq, Repr

/-- A shader module. -/
structure Module where
  types : Types := {}
  constants : Constants := #[]
  vars : Array Variable := #[]
  functions : Array Function := #[]
  entryPoints : List EntryPoint := []

namespace Module

/-- Adds a variable; a local one is also listed with the function that owns it. -/
def addVariable (m : Module) (var : Variable) (owner : Option FunctionId) :
    VariableId × Module :=
  let v := m.vars.size
  let m := { m with vars := m.vars.push var }
  match var.mode, owner with
  | .functionLocal, some f =>
    (v, { m with functions := m.functions.modify f fun f => { f with locals := f.locals ++ [v] } })
  | _, _ => (v, m)

/-- The first variable with a name. -/
def variableNamed? (m : Module) (name : String) : Option VariableId :=
  m.vars.toList.findIdx? fun v => v.name == some name

end Module

end ShaderIR
