import ShaderIR.Module
import ShaderIR.Type.Text

/-!
# Modules as text

A listing for readers: types, constants, variables, functions and entry points, each under its
number. What has no name is written as an underscore.
-/

namespace ShaderIR

/-- A name, or an underscore in its place. -/
def nameText (name : Option String) : String := name.getD "_"

/-- A place as its variable's name, or its number after an at sign, and its links. -/
def Place.text (vars : Array Variable) (p : Place) : String :=
  let root := ((vars[p.root]?).bind (·.name)).getD s!"@{p.root}"
  p.path.foldl (fun text link =>
    match link with
    | .element (.direct i) => text ++ s!"[{i}]"
    | .element (.dynamic r) => text ++ s!"[%{r}]"
    | .member i => text ++ s!".{i}") root

/-- The letter for a lane. -/
def laneLetter (i : UInt8) : Char := (Quad.mk 'x' 'y' 'z' 'w').get (i &&& 3).toNat

/-- A source as its register and the letters of the first `lanes` lanes it reads. -/
def Source.text (lanes : Nat) (s : Source) : String :=
  let letters := (s.swizzle.toList.take (min (max lanes 1) 4)).map laneLetter
  s!"%{s.value}." ++ String.ofList letters

namespace Instruction

/-- An instruction without the register it defines. -/
def text (vars : Array Variable) : Instruction → String
  | loadConst bits => "load_const (" ++ commaSeparated (bits.map Word.hex) ++ ")"
  | undef lanes => s!"undef{lanes}"
  | alu op sources lanes =>
    op.text ++ " " ++ commaSeparated (sources.map (Source.text (op.inputWidth?.getD lanes)))
  | phi sources _ => "phi " ++ commaSeparated (sources.map fun s => s!"b{s.pred}: %{s.value}")
  | loadVar place _ => "load_var " ++ place.text vars
  | storeVar place value mask =>
    "store_var " ++ place.text vars ++ s!", %{value} (wrmask 0x"
      ++ hexDigits 1 mask.toNat ++ ")"
  | copyVar dst src => "copy_var " ++ dst.text vars ++ ", " ++ src.text vars
  | texture access =>
    access.op.text ++ " " ++ access.sampler.text vars ++ " ("
      ++ commaSeparated (access.sources.map fun s => s.role.text ++ s!" %{s.value}") ++ ")"
  | discard => "discard"
  | jump j => j.text

/-- An instruction as it stands in a listing. -/
def line (vars : Array Variable) (r : Register) (i : Instruction) : String :=
  if i.lanes > 0 then s!"%{r} = " ++ i.text vars else i.text vars

end Instruction

namespace Function

/-- The lines of one block, after `pad`. -/
def blockText (f : Function) (vars : Array Variable) (pad : String) (b : BlockId) : String :=
  let instructions := ((f.blocks[b]?).map (·.instructions)).getD []
  let lines := instructions.map fun r =>
    match f.instructions[r]? with
    | some i => pad ++ "  " ++ i.line vars r ++ "\n"
    | none => ""
  pad ++ s!"block b{b}:\n" ++ String.join lines

/-- The lines of a region, indented by `indent` blanks. -/
def regionText (f : Function) (vars : Array Variable) (indent : Nat) : Region → String
  | .last b => f.blockText vars ("".pushn ' ' indent) b
  | .cond b _ condition onTrue onFalse rest =>
    let pad := "".pushn ' ' indent
    f.blockText vars pad b
      ++ pad ++ s!"if %{condition} \x7b\n"
      ++ f.regionText vars (indent + 4) onTrue
      ++ pad ++ "\x7d else \x7b\n"
      ++ f.regionText vars (indent + 4) onFalse
      ++ pad ++ "\x7d\n"
      ++ f.regionText vars indent rest
  | .loop b _ body rest =>
    let pad := "".pushn ' ' indent
    f.blockText vars pad b
      ++ pad ++ "loop \x7b\n"
      ++ f.regionText vars (indent + 4) body
      ++ pad ++ "\x7d\n"
      ++ f.regionText vars indent rest

end Function

/-- A variable with all that ties it to the interface. -/
def Variable.text (types : Types) (v : Variable) : String :=
  let word (label : String) (w : Option Word) : String :=
    match w with
    | some w => s!" @{label}({w})"
    | none => ""
  v.mode.text ++ " " ++ nameText v.name ++ ": " ++ types.text v.ty
    ++ word "location" v.location
    ++ word "component" v.component
    ++ (match v.builtIn with
      | some b => s!" @builtin({b.text})"
      | none => "")
    ++ word "set" (v.binding.map (·.set))
    ++ word "binding" (v.binding.map (·.binding))
    ++ (match v.interpolation with
      | some i => s!" @{i.text}"
      | none => "")
    ++ (if v.centroid then " @centroid" else "")
    ++ (if v.sample then " @sample" else "")
    ++ (if v.readOnly then " readonly" else "")

namespace Module

/-- The listing of one function. -/
def functionText (m : Module) (id : FunctionId) (f : Function) : String :=
  let result :=
    match f.result with
    | some ty => " -> " ++ m.types.text ty
    | none => ""
  let locals := f.locals.map fun v =>
    match m.vars[v]? with
    | some var => s!"    local {nameText var.name}: {m.types.text var.ty}\n"
    | none => ""
  s!"  fn {nameText f.name} [{id}]" ++ result ++ " \x7b\n" ++ String.join locals
    ++ f.regionText m.vars 4 f.body ++ "  \x7d\n"

/-- A titled part of the listing, left out when it has no entries. -/
def sectionText {α : Type} (title : String) (entries : List α) (line : Nat → α → String) : String :=
  if entries.isEmpty then ""
  else s!"\n{title}:\n" ++ String.join (entries.mapIdx line)

/-- The listing of a module. -/
def text (m : Module) : String :=
  "Types:\n"
    ++ String.join (m.types.toList.mapIdx fun i _ => s!"  [{i}] {m.types.text i}\n")
    ++ sectionText "Constants" m.constants.toList (fun i c =>
      s!"  [{i}] {m.types.text c.ty} = {m.constants.text i}\n")
    ++ sectionText "Variables" m.vars.toList (fun i v =>
      if v.mode = .functionLocal then "" else s!"  [{i}] {v.text m.types}\n")
    ++ sectionText "Functions" m.functions.toList m.functionText
    ++ sectionText "Entry Points" m.entryPoints (fun _ e =>
      s!"  {e.stage.text} {e.name} -> [{e.function}]\n")

end Module

end ShaderIR
