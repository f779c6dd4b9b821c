import ShaderIR.Constant

/-!
# Variables

Every variable of a module, whatever its mode, with what ties it to the interface of the shader.
-/

namespace ShaderIR

/-- The number of a variable. -/
abbrev VariableId := Nat

/-- A variable and its place in the interface. -/
structure Variable where
  name : Option String := none
  ty : TypeId
  mode : Mode
  /-- The interface slot, counted from the base of the stage. -/
  location : Option Word := none
  component : Option Word := none
  /-- The index of a second colour output that blends with the first. -/
  index : Option Word := none
  builtIn : Option BuiltIn := none
  binding : Option Binding := none
  interpolation : Option Interpolation := none
  centroid : Bool := false
  sample : Bool := false
  invariant : Bool := false
  patch : Bool := false
  readOnly : Bool := false
  /-- The constant that fills the variable before a run. -/
  init : Option ConstantId := none
deriving DecidableEq, Repr

/-! ### Interface slots -/

/-- The first slot of the outputs of a fragment shader. -/
def firstFragmentOutput : Word := 4

/-- The first slot of the inputs of a vertex shader. -/
def firstVertexInput : Word := 17

/-- The first slot of what stages hand to each other. -/
def firstVarying : Word := 32

/-- The slot that location zero has, by stage and mode. -/
def locationBase : Option Stage → Mode → Word
  | some .fragment, .shaderOut => firstFragmentOutput
  | some .vertex, .shaderIn => firstVertexInput
  | _, .shaderIn | _, .shaderOut => firstVarying
  | _, _ => 0

end ShaderIR
