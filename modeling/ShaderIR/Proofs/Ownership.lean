import ShaderIR.Proofs.Reading

/-!
# Registers belong to functions
-/

namespace ShaderIR.Spirv

/-- Two functions, the second of which adds a value of the first to itself. -/
def foreignSum : List Word := [0x07230203, 99, 0, 12, 0,
   0x00020013, 1, 0x00040015, 2, 32, 1, 0x00030021, 3, 1, 0x0004002b, 2, 4, 1,
   0x00050036, 1, 5, 0, 3, 0x000200f8, 6, 0x00050080, 2, 7, 4, 4, 0x000100fd, 0x00010038,
   0x00050036, 1, 8, 0, 3, 0x000200f8, 9, 0x00050080, 2, 10, 7, 7, 0x000100fd, 0x00010038]

/-- A value of another function is looked for in the function under construction, which has no such
register. -/
theorem foreignSum_looks_outside : (readModule {} foreignSum).error? = some (.foreignRegister 2) := by
  decide +kernel

end ShaderIR.Spirv
