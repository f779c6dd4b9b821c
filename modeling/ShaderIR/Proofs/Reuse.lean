import ShaderIR.Proofs.Products
import ShaderIR.Proofs.Reading

/-!
# Transposes that are used again

A transpose is remembered with the matrix, wherever it was made. In straight-line code it has been made by the
time it is used again; in the arms of a selection it need not have been.
-/

namespace ShaderIR.Spirv

/-- In straight-line code a transpose can be used wherever it is taken, whether it is made there or known. Its
code runs to its end if the columns of the matrix are defined; all columns of the transpose are defined then,
and their lanes are those of the matrix across. -/
theorem transposes_hold_in_straight_line {b : BlockId} {c₀ c : Context} {ts : List Tree} {m : Tree}
    {columns : List Register} {n : Nat} (hb : b < c₀.function.blocks.size) (h : Straight b c₀ ts c) (hm : m ∈ ts)
    (hcolumns : IsMatrix c m columns n) (hcount : 2 ≤ columns.length ∧ columns.length ≤ 4) (hn : 2 ≤ n ∧ n ≤ 4) :
    ∃ t c' rows, Code.transpose m (.append b) c = .ok t c' ∧ IsMatrix c' t rows columns.length ∧
      rows.length = n ∧ Performs b c₀ c c' columns fun _ s' =>
        (∀ q ∈ rows, (s'.value? q).isSome) ∧ Mirrors s' columns rows := by
  obtain ⟨t, c', is, rows, hmade, happends, harith, hlookup, hrows, hlength, hmirrors⟩ :=
    h.transpose_eq hb hm hcolumns hcount hn
  have hledger := ((h.transpose hm hcolumns hcount hn hmade).appends hb).2
  refine ⟨t, c', rows, hmade, hrows, hlength, ?_⟩
  intro s₀ s hsize hrun hdefined
  have hle := happends.size
  obtain ⟨s', hs', -, hsolves, -⟩ := h.runs hb happends harith hsize hrun
    (h.isSome_of_reads hb (by omega) hrun hdefined)
  refine ⟨s', hs', ?_, hmirrors s' hsolves⟩
  exact hledger.isSome (List.mem_cons_of_mem _ hm) hlookup hrows.columns?_eq hsolves

theorem transposes_hold_in_straight_line_wideFactor :
    ∃ t c' rows s, Code.transpose wideFactor (.append 0) factors = .ok t c' ∧
      runSince factors c' 0 factorRegisters = .ok none s ∧ rows.length = 2 ∧ Mirrors s [0, 1, 2] rows := by
  have h : Straight 0 factors [wideFactor] factors :=
    .tree (.start (by simp [factors])) (by decide) (by simp) rfl
  obtain ⟨t, c', rows, hmade, -, hlength, hperforms⟩ := transposes_hold_in_straight_line (by decide) h
    (List.mem_singleton_self _) isMatrix_wideFactor (by decide) (by decide)
  obtain ⟨s, hs, -, hmirrors⟩ := hperforms factorRegisters factorRegisters
    (Emit.size_le_of_ok hmade (by decide +kernel)) rfl (by decide)
  exact ⟨t, c', rows, s, hmade, hs, hlength, hmirrors⟩

/-- A matrix is transposed in both arms of a selection, and a column of the transpose of the second is
stored. -/
def transposedInArms : List Word := [0x07230203, 99, 0, 21, 0,
   0x00020013, 1, 0x00020014, 2, 0x00030016, 3, 32, 0x00040017, 4, 3, 2, 0x00040018, 5, 4, 2,
   0x00030021, 6, 1, 0x0003002a, 2, 7, 0x00040020, 8, 6, 5, 0x00040020, 9, 6, 4,
   0x0004003b, 8, 10, 6, 0x0004003b, 9, 11, 6,
   0x00050036, 1, 12, 0, 6,
   0x000200f8, 13, 0x0004003d, 5, 14, 10, 0x000300f7, 17, 0, 0x000400fa, 7, 15, 16,
   0x000200f8, 15, 0x00040054, 5, 18, 14, 0x000200f9, 17,
   0x000200f8, 16, 0x00040054, 5, 19, 14, 0x00050051, 4, 20, 19, 0, 0x0003003e, 11, 20, 0x000200f9, 17,
   0x000200f8, 17, 0x000100fd, 0x00010038]

/-- The matrix with the columns 1, 2 and 3, 4 in the first variable. -/
def matrixMemory : Memory := (({} : Memory).write 0 [0] (.ofWords [0x3F800000, 0x40000000])).write 0 [1]
    (.ofWords [0x40400000, 0x40800000])

/-- The second arm uses the transpose that the first makes, which a run through the second does not pass:
it reads a register that nothing has defined. -/
theorem transposedInArms_undefined :
    ∃ memory, runFirst transposedInArms matrixMemory = some (some (.undefined 3), memory) := by
  have h : ∃ r ∈ runFirst transposedInArms matrixMemory, r.1 = some (.undefined 3) := by decide +kernel
  simp_all

end ShaderIR.Spirv
