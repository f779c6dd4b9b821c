import ShaderIR.Log
import ShaderIR.Spirv.Error

/-!
# Events

What is reported while a stream becomes a module.
-/

namespace ShaderIR.Spirv

/-- Something worth reporting. -/
inductive Event where
  | module (generator bound : Word)
  | instruction (op : Opcode) (length : Nat)
  | ignoredInstruction (op : Opcode)
  | unknownDecoration (number : Word) (target : Id)
  | entryPoint (name : String) (stage : Stage) (function : Id)
  | droppedMemberDecoration (kind : DecorationKind) (member : Word) (struct : Id)
  | droppedBuiltIn (number : Word) (id : Id)
  | ignoredDecoration (kind : DecorationKind) (id : Id)
  | droppedDecoration (kind : DecorationKind) (id : Id)
  | function (id : Id) (name : Option String)
  | loop (label merge continueTarget : Id)
  | phi (id : Id)
deriving DecidableEq, Repr

namespace Event

/-- How grave an event is. -/
def level : Event → LogLevel
  | droppedMemberDecoration .. | droppedBuiltIn .. | droppedDecoration .. => .warn
  | module .. | entryPoint .. | function .. => .info
  | instruction .. | phi _ => .debug
  | ignoredInstruction _ | unknownDecoration .. | ignoredDecoration .. | loop .. => .trace

/-- The message for an event. -/
def message : Event → String
  | module generator bound =>
    s!"translating SPIR-V module: generator {generator.hex}, bound {bound}"
  | instruction op length => s!"{op.name} [{length}]"
  | ignoredInstruction op => s!"ignoring {op.name}"
  | unknownDecoration number target => s!"ignoring unknown decoration {number} on %{target}"
  | entryPoint name stage target =>
    s!"entry point {quoted name} ({stage.text}) -> %{target}"
  | droppedMemberDecoration kind member struct =>
    s!"dropping {kind.name} on member {member} of struct %{struct}"
  | droppedBuiltIn number id => s!"dropping unknown builtin {number} on %{id}"
  | ignoredDecoration kind id => s!"ignoring {kind.name} on %{id}"
  | droppedDecoration kind id => s!"dropping {kind.name} on %{id}"
  | function id name =>
    let shown := name.getD "<anonymous>"
    s!"translating function %{id} ({shown})"
  | loop label merge continueTarget =>
    s!"loop at %{label}: merge %{merge}, continue construct %{continueTarget}"
  | phi id => s!"resolving phi %{id}"

/-- The record of an event. -/
def record (e : Event) : LogRecord := ⟨e.level, e.message⟩

end Event

end ShaderIR.Spirv
