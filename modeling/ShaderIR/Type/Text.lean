import ShaderIR.Type.Basic

/-!
# Types as text

A named type is written as its name, any other by its shape. Types refer to each other by number,
so the writer carries a bound on how deep the references may go; a table without cycles never
exceeds its own size.
-/

namespace ShaderIR

/-- Texts separated by a comma and a blank. -/
def commaSeparated (parts : List String) : String := String.intercalate ", " parts

namespace Types

/-- The text of a type whose references go at most `depth` deep. -/
def textWithin (types : Types) : (depth : Nat) → TypeId → String
  | 0, _ => ""
  | depth + 1, ty =>
    match types.get? ty with
    | none => ""
    | some { name := some name, .. } => name
    | some { name := none, shape } =>
      match shape with
      | .void => "void"
      | .scalar s => s.text
      | .vector size s => "vec" ++ size.text ++ "<" ++ s.text ++ ">"
      | .matrix columns rows s =>
        "mat" ++ columns.text ++ "x" ++ rows.text ++ "<" ++ s.text ++ ">"
      | .array base length =>
        "array<" ++ textWithin types depth base ++ ", " ++ toString length ++ ">"
      | .struct members =>
        "struct \x7b " ++ commaSeparated (members.map fun m => textWithin types depth m.ty)
          ++ " \x7d"
      | .function result params =>
        "fn(" ++ commaSeparated (params.map (textWithin types depth)) ++ ") -> "
          ++ textWithin types depth result
      | .sampler dim shadow arrayed result =>
        "sampler" ++ dim.text ++ (if arrayed then "_array" else "")
          ++ (if shadow then "_shadow" else "") ++ "<" ++ result.text ++ ">"

/-- The text of a type. -/
def text (types : Types) (ty : TypeId) : String := types.textWithin (types.size + 1) ty

end Types

end ShaderIR
