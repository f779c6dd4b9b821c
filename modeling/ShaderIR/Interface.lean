import ShaderIR.Word

/-!
# Interface of a shader

The vocabulary that ties variables to the pipeline around a shader: stages, storage modes, built-in
inputs and outputs, interpolation and resource bindings, with the word each is written as.
-/

namespace ShaderIR

/-- A pipeline stage that an entry point can serve. -/
inductive Stage where
  | vertex
  | tessControl
  | tessEval
  | geometry
  | fragment
  | compute
deriving DecidableEq, Repr

namespace Stage

def all : List Stage := [vertex, tessControl, tessEval, geometry, fragment, compute]

def text : Stage → String
  | vertex => "vertex"
  | tessControl => "tess_control"
  | tessEval => "tess_eval"
  | geometry => "geometry"
  | fragment => "fragment"
  | compute => "compute"

/-- The stage written as `s`. -/
def ofText? (s : String) : Option Stage := all.find? (·.text == s)

end Stage

/-- Where a variable lives and who can see it. -/
inductive Mode where
  /-- Read-only data bound by the application. -/
  | uniform
  /-- Input from the stage before. -/
  | shaderIn
  /-- Output to the stage after. -/
  | shaderOut
  /-- Private storage of the module. -/
  | global
  /-- Storage of one function. -/
  | functionLocal
  /-- Input that fixed hardware supplies. -/
  | systemValue
deriving DecidableEq, Repr

namespace Mode

def all : List Mode := [uniform, shaderIn, shaderOut, global, functionLocal, systemValue]

def text : Mode → String
  | uniform => "uniform"
  | shaderIn => "shader_in"
  | shaderOut => "shader_out"
  | global => "global"
  | functionLocal => "local"
  | systemValue => "system_value"

/-- The mode written as `s`. -/
def ofText? (s : String) : Option Mode := all.find? (·.text == s)

end Mode

/-- How an input is interpolated between vertices. -/
inductive Interpolation where
  | smooth
  | flat
  | noPerspective
deriving DecidableEq, Repr

namespace Interpolation

def all : List Interpolation := [smooth, flat, noPerspective]

def text : Interpolation → String
  | smooth => "smooth"
  | flat => "flat"
  | noPerspective => "noperspective"

/-- The interpolation written as `s`. -/
def ofText? (s : String) : Option Interpolation := all.find? (·.text == s)

end Interpolation

/-- The descriptor set and binding number of a resource. -/
structure Binding where
  set : Word
  binding : Word
deriving DecidableEq, Repr

/-- An input or output with a fixed meaning. -/
inductive BuiltIn where
  | position
  | pointSize
  | clipDistance
  | cullDistance
  | vertexId
  | instanceId
  | vertexIndex
  | instanceIndex
  | primitiveId
  | invocationId
  | layer
  | viewportIndex
  | fragCoord
  | pointCoord
  | frontFacing
  | sampleId
  | samplePosition
  | sampleMask
  | fragDepth
  | helperInvocation
  | numWorkgroups
  | workgroupId
  | localInvocationId
  | globalInvocationId
  | localInvocationIndex
deriving DecidableEq, Repr

namespace BuiltIn

def all : List BuiltIn :=
  [position, pointSize, clipDistance, cullDistance, vertexId, instanceId, vertexIndex,
   instanceIndex, primitiveId, invocationId, layer, viewportIndex, fragCoord, pointCoord,
   frontFacing, sampleId, samplePosition, sampleMask, fragDepth, helperInvocation, numWorkgroups,
   workgroupId, localInvocationId, globalInvocationId, localInvocationIndex]

def text : BuiltIn → String
  | position => "position"
  | pointSize => "point_size"
  | clipDistance => "clip_distance"
  | cullDistance => "cull_distance"
  | vertexId => "vertex_id"
  | instanceId => "instance_id"
  | vertexIndex => "vertex_index"
  | instanceIndex => "instance_index"
  | primitiveId => "primitive_id"
  | invocationId => "invocation_id"
  | layer => "layer"
  | viewportIndex => "viewport_index"
  | fragCoord => "frag_coord"
  | pointCoord => "point_coord"
  | frontFacing => "front_facing"
  | sampleId => "sample_id"
  | samplePosition => "sample_position"
  | sampleMask => "sample_mask"
  | fragDepth => "frag_depth"
  | helperInvocation => "helper_invocation"
  | numWorkgroups => "num_workgroups"
  | workgroupId => "workgroup_id"
  | localInvocationId => "local_invocation_id"
  | globalInvocationId => "global_invocation_id"
  | localInvocationIndex => "local_invocation_index"

/-- The built-in written as `s`. -/
def ofText? (s : String) : Option BuiltIn := all.find? (·.text == s)

/-- Whether hardware supplies the built-in when a shader reads it as an input. -/
def isSystemValue : BuiltIn → Bool
  | vertexId | instanceId | vertexIndex | instanceIndex | primitiveId | invocationId
  | frontFacing | sampleId | samplePosition | sampleMask | helperInvocation | numWorkgroups
  | workgroupId | localInvocationId | globalInvocationId | localInvocationIndex => true
  | _ => false

end BuiltIn

end ShaderIR
