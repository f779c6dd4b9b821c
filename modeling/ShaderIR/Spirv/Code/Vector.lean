import ShaderIR.Spirv.Lowering

/-!
# Lanes chosen at run time

A lane whose number is in a register is found by comparing the number with every lane in turn.
-/

namespace ShaderIR.Spirv.Code

/-- The lane of a vector of `lanes` lanes whose number `index` holds; the first lane if there is no
such lane. -/
def extractDynamic (vector : Register) (lanes : Nat) (index : Register) : Emit Register := do
  let first ← Emit.lane vector 0
  (List.range' 1 (lanes - 1)).foldlM (fun result lane => do
    let number ← Emit.loadConst [lane.toUInt32]
    let hit ← Emit.alu .ieq [index, number] 1
    Emit.aluWith .bcsel [.whole hit, .lane vector lane.toUInt8, .whole result] 1) first

/-- A vector of `lanes` lanes with the lane whose number `index` holds replaced by `value`. -/
def insertDynamic (vector : Register) (lanes : Nat) (value index : Register) : Emit Register := do
  let chosen ← (List.range lanes).mapM fun lane => do
    let number ← Emit.loadConst [lane.toUInt32]
    let hit ← Emit.alu .ieq [index, number] 1
    let r ← Emit.aluWith .bcsel [.whole hit, .lane value 0, .lane vector lane.toUInt8] 1
    return (r, (0 : Word))
  Emit.gather chosen

/-- A vector of `lanes` lanes with lane `index` replaced by `value`. -/
def insertLane (vector : Register) (lanes : Nat) (value : Register) (index : Word) :
    Emit Register :=
  Emit.gather ((List.range lanes).map fun lane =>
    if lane = index.toNat then (value, 0) else (vector, lane.toUInt32))

end ShaderIR.Spirv.Code
