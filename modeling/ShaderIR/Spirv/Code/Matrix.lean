import ShaderIR.Spirv.Lowering

/-!
# Matrices

A matrix is a tree with one register a column. The transpose of a matrix is remembered with the
matrix and with the transpose, so a product whose left side has a known transpose can take dot
products of rows and columns. If both sides have one, the product of the transposes in reverse is
transposed.
-/

namespace ShaderIR.Spirv.Code

/-- The columns of a matrix; a vector is a single column. -/
def columns : Tree → Lower (List Register)
  | .leaf _ _ r => pure [r]
  | .node _ _ children => children.mapM Lower.register

/-- The first column of a matrix. -/
def firstColumn (columns : List Register) : Lower Register :=
  match columns with
  | r :: _ => pure r
  | [] => Lower.meaningless .noColumns

/-- The scalar that a matrix or vector is made of. -/
def scalarOfTree (t : Tree) : Lower Scalar := do
  match (← Lower.shape t.ty).scalar? with
  | some s => pure s
  | none => Lower.meaningless .matrixNotNumeric

/-- The matrix with given columns of `rows` lanes; a single column is a vector. -/
def matrixOfColumns (scalar : Scalar) (columns : List Register) (rows : Nat) : Lower Tree := do
  let ty ← Lower.keepTypes ((← get).module.types.matrix? scalar columns.length rows)
    (.noMatrixType columns.length rows)
  match columns with
  | [column] => Lower.leaf ty column
  | columns =>
    let columnType ← Lower.childType ty 0
    Lower.node ty (← columns.mapM (Lower.leaf columnType))

/-! ### Transposes -/

/-- The transpose of a matrix, if it is known. -/
def knownTranspose? (t : Tree) : Lower (Option Tree) := do
  return (← get).transposes.lookup t.key

/-- The transpose of a matrix. -/
def transpose (matrix : Tree) : Emit Tree := do
  match ← knownTranspose? matrix with
  | some known => return known
  | none =>
    let columns ← columns matrix
    let rows ← Lower.registerLanes (← firstColumn columns)
    let scalar ← scalarOfTree matrix
    let transposed ← (List.range rows).mapM fun row =>
      Emit.gather (columns.map fun column => (column, row.toUInt32))
    let result ← matrixOfColumns scalar transposed columns.length
    modify fun c =>
      { c with transposes := (matrix.key, result) :: (result.key, matrix) :: c.transposes }
    return result

/-! ### Products -/

/-- A column of a product as dot products with the rows of the left side, `inner` lanes each. -/
def columnByRows (inner : Nat) (rows : List Register) (column : Register) : Emit Register := do
  let dot := AluOp.dot inner
  let lanes ← rows.mapM fun row => do return (← Emit.alu dot [row, column] 1, (0 : Word))
  Emit.gather lanes

/-- A column of a product as a sum of the columns of the left side, each times a lane of the column
of the right side. -/
def columnByColumns (first : Register) (others : List Register) (rows : Nat) (column : Register) :
    Emit Register := do
  let start ← Emit.aluWith .fmul [.whole first, .lane column 0] rows
  (others.zipIdx 1).foldlM (fun sum (other, j) => do
    let term ← Emit.aluWith .fmul [.whole other, .lane column j.toUInt8] rows
    Emit.alu .fadd [sum, term] rows) start

/-- The columns of a product, whose left matrix starts with `first`; its rows are used where they are known. -/
def productColumns (first : Register) (left right : List Register) (rows : Nat) :
    (rowsOfLeft : Option (List Register)) → Emit (List Register)
  | some rowsOfLeft => right.mapM (columnByRows left.length rowsOfLeft)
  | none => right.mapM (columnByColumns first left.tail rows)

/-- The product of two matrices, column by column. -/
def multiplyColumns (a b : Tree) : Emit Tree := do
  let scalar ← scalarOfTree a
  let left ← columns a
  let right ← columns b
  let first ← firstColumn left
  let rows ← Lower.registerLanes first
  if (← Lower.registerLanes (← firstColumn right)) ≠ left.length then
    Lower.meaningless .mismatchedProduct
  let rowsOfLeft ←
    match ← knownTranspose? a with
    | some t => if scalar.kind = .float then some <$> columns t else pure none
    | none => pure none
  let product ← productColumns first left right rows rowsOfLeft
  matrixOfColumns scalar product rows

/-- The product of two matrices, or of a matrix and a vector. -/
def multiply (a b : Tree) : Emit Tree := do
  match ← knownTranspose? a, ← knownTranspose? b with
  | some left, some right => transpose (← multiplyColumns right left)
  | _, _ => multiplyColumns a b

/-! ### Instructions -/

/-- The value that an instruction on matrices gives, where `a` is its first operand. -/
def matrixValue (i : RawInstruction) (ty : TypeId) (a : Tree) : Emit Tree := do
  match i.op with
  | .opTranspose => transpose a
  | .opMatrixTimesScalar =>
    let scalar ← Emit.registerOperand i 3
    let columns ← columns a
    let rows ← Lower.registerLanes (← firstColumn columns)
    let columnType ← Lower.childType ty 0
    let children ← columns.mapM fun column => do
      Lower.leaf columnType (← Emit.alu .fmul [column, scalar] rows)
    Lower.node ty children
  | .opVectorTimesMatrix =>
    let matrix ← Emit.treeOperand i 3
    multiply (← transpose matrix) a
  | .opMatrixTimesVector | .opMatrixTimesMatrix =>
    multiply a (← Emit.treeOperand i 3)
  | .opOuterProduct =>
    let column ← Lower.register a
    let row ← Emit.registerOperand i 3
    let rows ← Lower.registerLanes column
    let count ← Lower.registerLanes row
    let columnType ← Lower.childType ty 0
    let children ← (List.range count).mapM fun lane => do
      let r ← Emit.aluWith .fmul [.whole column, .lane row lane.toUInt8] rows
      Lower.leaf columnType r
    Lower.node ty children
  | op => throw (.unsupportedOpcode op)

/-- Handles an instruction on matrices. -/
def matrix (i : RawInstruction) : Emit Unit := do
  let ty ← Lower.typeOperand i 0
  let id ← Lower.operand i 1
  let a ← Emit.treeOperand i 2
  Lower.define id (.tree (← matrixValue i ty a))

end ShaderIR.Spirv.Code
