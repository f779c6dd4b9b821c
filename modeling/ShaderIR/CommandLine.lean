import ShaderIR.Spirv.Read
import ShaderIR.Text
import ShaderIR.Validate

/-!
# The command line

One path names the stream to read; options say where the listing goes, how derivatives are expanded
and whether the module is checked. Options may stand before and behind the path. A value follows its
option as the next argument, behind an equals sign, or directly behind a single letter; letters
without values may share one dash. Behind a double dash everything is a path.
-/

namespace ShaderIR.CommandLine

/-! ### Commands -/

/-- What to do. -/
structure Command where
  input : String
  /-- The file for the listing, which is printed if there is none. -/
  output : Option String := none
  fwidth : Spirv.FwidthExpansion := .legacy
  validate : Bool := false
  /-- Do everything but give the listing. -/
  dryRun : Bool := false
  verbose : Bool := false
deriving DecidableEq, Repr

/-- Why arguments make no command. -/
inductive UsageError where
  | unknownOption (option : String)
  | unexpectedValue (option : String)
  | missingValue (option : String)
  | badValue (option value : String)
  | repeated (option : String)
  | extraArgument (argument : String)
  | missingInput
deriving DecidableEq, Repr

/-- The message for a usage error. -/
def UsageError.message : UsageError → String
  | unknownOption option => s!"unexpected argument '{option}'"
  | unexpectedValue option => s!"option '{option}' takes no value"
  | missingValue option => s!"option '{option}' needs a value"
  | badValue option value => s!"invalid value '{value}' for '{option}'"
  | repeated option => s!"'{option}' is given more than once"
  | extraArgument argument => s!"unexpected argument '{argument}'"
  | missingInput => "no input path"

/-- A command of which not all may be known. -/
structure Draft where
  input : Option String := none
  output : Option String := none
  fwidth : Option Spirv.FwidthExpansion := none
  validate : Bool := false
  dryRun : Bool := false
  verbose : Bool := false
deriving DecidableEq, Repr

namespace Draft

/-- Takes the input path. -/
def setInput (d : Draft) (path : String) : Except UsageError Draft :=
  if d.input.isSome then .error (.extraArgument path)
  else if path.isEmpty then .error .missingInput
  else .ok { d with input := some path }

/-- Takes the output path. -/
def setOutput (d : Draft) (path : String) : Except UsageError Draft :=
  if d.output.isSome then .error (.repeated "--output")
  else if path.isEmpty then .error (.missingValue "--output")
  else .ok { d with output := some path }

/-- Takes the expansion of derivatives. -/
def setFwidth (d : Draft) (value : String) : Except UsageError Draft :=
  if d.fwidth.isSome then .error (.repeated "--fwidth")
  else if value = "legacy" then .ok { d with fwidth := some .legacy }
  else if value = "derivatives" then .ok { d with fwidth := some .derivatives }
  else .error (.badValue "--fwidth" value)

/-- Turns checking on. -/
def setValidate (d : Draft) : Except UsageError Draft :=
  if d.validate then .error (.repeated "--validate") else .ok { d with validate := true }

/-- Turns the listing off. -/
def setDryRun (d : Draft) : Except UsageError Draft :=
  if d.dryRun then .error (.repeated "--dry-run") else .ok { d with dryRun := true }

/-- Turns more reports on. -/
def setVerbose (d : Draft) : Except UsageError Draft :=
  if d.verbose then .error (.repeated "--verbose") else .ok { d with verbose := true }

/-- The command, if it has an input. -/
def finish (d : Draft) : Except UsageError Command :=
  match d.input with
  | none => .error .missingInput
  | some input =>
    .ok
      { input
        output := d.output
        fwidth := d.fwidth.getD .legacy
        validate := d.validate
        dryRun := d.dryRun
        verbose := d.verbose }

end Draft

/-! ### Arguments -/

/-- A setter that waits for its value. -/
abbrev Waiting := String → Except UsageError Draft

/-- What an argument leads to: a draft, or one that needs the next argument as a value. -/
inductive Taken where
  | done (draft : Draft)
  | waiting (option : String) (set : Waiting)

/-- Takes a long option, without its dashes, with the value behind its equals sign. -/
def takeLong (d : Draft) (name : String) (value : Option String) : Except UsageError Taken :=
  let switch (set : Except UsageError Draft) : Except UsageError Taken :=
    match value with
    | some _ => .error (.unexpectedValue name)
    | none => .done <$> set
  let valued (set : Waiting) : Except UsageError Taken :=
    match value with
    | some v => .done <$> set v
    | none => .ok (.waiting name set)
  match name with
  | "validate" => switch d.setValidate
  | "dry-run" => switch d.setDryRun
  | "verbose" => switch d.setVerbose
  | "output" => valued d.setOutput
  | "fwidth" => valued d.setFwidth
  | _ => .error (.unknownOption name)

/-- Takes the letters behind a single dash. -/
def takeShort (d : Draft) : List Char → Except UsageError Taken
  | [] => .ok (.done d)
  | 'v' :: rest =>
    match d.setVerbose with
    | .ok d => takeShort d rest
    | .error e => .error e
  | ['o'] => .ok (.waiting "output" d.setOutput)
  | 'o' :: '=' :: value => .done <$> d.setOutput (String.ofList value)
  | 'o' :: value => .done <$> d.setOutput (String.ofList value)
  | c :: _ => .error (.unknownOption c.toString)

/-- Splits characters at the first equals sign. -/
def splitAtEquals (cs : List Char) : String × Option String :=
  let name := String.ofList (cs.takeWhile (· ≠ '='))
  match cs.dropWhile (· ≠ '=') with
  | [] => (name, none)
  | _ :: value => (name, some (String.ofList value))

/-- Whether an argument is an option rather than a path or value; a lone dash is not. -/
def isOption (arg : String) : Bool :=
  match arg.toList with
  | '-' :: _ :: _ => true
  | _ => false

/-- Takes an argument that is not a double dash. -/
def takeArgument (d : Draft) (arg : String) : Except UsageError Taken :=
  match arg.toList with
  | '-' :: '-' :: rest =>
    let (name, value) := splitAtEquals rest
    takeLong d name value
  | '-' :: c :: rest => takeShort d (c :: rest)
  | _ => .done <$> d.setInput arg

/-- Takes arguments in order. Behind a double dash they are all paths. -/
def takeArguments (d : Draft) : List String → Except UsageError Command
  | [] => d.finish
  | arg :: rest =>
    if arg = "--" then do
      let d ← rest.foldlM Draft.setInput d
      d.finish
    else
      match takeArgument d arg with
      | .error e => .error e
      | .ok (.done d) => takeArguments d rest
      | .ok (.waiting option set) =>
        match rest with
        | [] => .error (.missingValue option)
        | value :: rest =>
          if isOption value then .error (.missingValue option)
          else
            match set value with
            | .error e => .error e
            | .ok d => takeArguments d rest

/-- The command that arguments make. -/
def Command.ofArguments (args : List String) : Except UsageError Command := takeArguments {} args

/-! ### Carrying out a command -/

/-- Why a command fails. -/
inductive Failure where
  | reading (path : String) (error : Spirv.Error)
  | invalid (problem : Problem)

/-- The message for a failure. -/
def Failure.message : Failure → String
  | reading path error => s!"failed to translate {path}: {error.message}"
  | invalid problem => s!"IR validation failed: {problem.message}"

/-- What a command gives. -/
inductive Product where
  | nothing
  | print (text : String)
  | write (path text : String)
deriving DecidableEq, Repr

/-- The outcome of a command with what was reported on the way. -/
structure Outcome where
  result : Except Failure Product
  log : List LogRecord

/-- The product of a command for a module. -/
def Command.productOf (c : Command) (m : Module) : Product :=
  if c.dryRun then .nothing
  else
    match c.output with
    | some path => .write path m.text
    | none => .print m.text

/-- Carries out a command on the contents of its input. -/
def Command.run (c : Command) (contents : List UInt8) : Outcome :=
  let reading := Spirv.readModuleBytes { fwidth := c.fwidth } contents
  let log := reading.events.map (·.record)
  match reading.result with
  | .error e => { result := .error (.reading c.input e), log }
  | .ok m =>
    let summary : LogRecord :=
      { level := .info
        message := s!"translated {m.functions.size} function(s), {m.vars.size} variable(s)" }
    let log := log ++ [summary]
    if c.validate then
      let log := log ++ m.problems.map fun p => { level := .warn, message := p.message }
      match m.firstProblem? with
      | some p => { result := .error (.invalid p), log }
      | none => { result := .ok (c.productOf m), log }
    else
      { result := .ok (c.productOf m), log }

/-- The exit code of a success. -/
def exitSuccess : UInt32 := 0

/-- The exit code of a failure to read, check or write. -/
def exitFailure : UInt32 := 1

/-- The exit code of a usage error. -/
def exitUsage : UInt32 := 2

/-- The exit code where something of one function was looked for in another. -/
def exitForeign : UInt32 := 101

/-- The exit code of a failure. -/
def Failure.exitCode : Failure → UInt32
  | reading _ error => if error.isForeign then exitForeign else exitFailure
  | invalid _ => exitFailure

end ShaderIR.CommandLine
