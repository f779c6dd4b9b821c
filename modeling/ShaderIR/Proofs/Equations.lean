import ShaderIR.Proofs.Straight

/-!
# Arithmetic as equations

In straight-line code a register is written once, so what an operation gave still follows from its
sources after all of the code has run: the final state solves the equations that the operations
write down. Arithmetic whose sources are defined runs to its end.
-/

namespace ShaderIR

open EStateM List

/-- What an operation gives over the registers of a state. -/
def RunState.result (s : RunState) (op : AluOp) (sources : List Source) (n : Nat) : Lanes :=
  op.eval (sources.map fun source => source.select (s.lanes source.value)) n

/-- Every operation numbered from `base` on that reads registers before its own agrees with the
state: what it reads is defined, and its register holds what it gives. -/
def RunState.Solves (s : RunState) (f : Function) (base : Nat) : Prop :=
  ∀ (q : Nat) (op : AluOp) (sources : List Source) (n : Nat), base ≤ q →
    f.instructions[q]? = some (.alu op sources n) → (∀ source ∈ sources, source.value < q) →
    s.value? q = some (s.result op sources n) ∧ ∀ source ∈ sources, (s.value? source.value).isSome

namespace RunState

variable {s t : RunState} {op : AluOp} {sources : List Source} {n : Nat}

theorem result_congr (h : ∀ source ∈ sources, t.registers[source.value]? = s.registers[source.value]?) :
    t.result op sources n = s.result op sources n := by
  have hsources : (sources.map fun source => source.select (t.lanes source.value)) =
      sources.map fun source => source.select (s.lanes source.value) := by
    apply map_congr_left
    intro source hsource
    rw [lanes_congr (h source hsource)]
  simp only [result, hsources]

end RunState

variable {sources : List Source}

theorem Exec.isSome_of_mapM_source {s t : RunState} {ls : List Lanes}
    (h : sources.mapM Exec.source s = .ok ls t) :
    ∀ source ∈ sources, (s.value? source.value).isSome := by
  induction sources generalizing ls t with
  | nil => simp
  | cons first sources ih =>
    rw [mapM_cons] at h
    obtain ⟨l, s₁, hl, hrest⟩ := bind_eq_ok.mp h
    obtain ⟨l', s₂, hl', hpure⟩ := bind_eq_ok.mp hl
    obtain ⟨hvalue, rfl⟩ := Exec.register_eq_ok.mp hl'
    obtain ⟨-, rfl⟩ := pure_eq_ok.mp hpure
    obtain ⟨ls', s₃, hls, -⟩ := bind_eq_ok.mp hrest
    intro source hsource
    rcases mem_cons.mp hsource with rfl | hsource
    · exact Option.isSome_iff_exists.mpr ⟨l', hvalue⟩
    · exact ih hls source hsource

theorem Instruction.perform_alu_eq_ok {s t : RunState} {r : Register} {op : AluOp} {n : Nat}
    {u : Unit} (h : (alu op sources n).perform r s = .ok u t) :
    t = s.define r (s.result op sources n) ∧ ∀ source ∈ sources, (s.value? source.value).isSome := by
  obtain ⟨ls, t', hls, -⟩ := bind_eq_ok.mp h
  have hdefined := Exec.isSome_of_mapM_source hls
  rw [perform_alu hdefined] at h
  cases h
  exact ⟨rfl, hdefined⟩

section

variable {s s' : RunState} {r : Nat} {is : List Instruction}

/-- The state after straight-line code solves its equations. -/
theorem performAll_result (h : performAll r is s = .ok () s')
    (hsize : r + is.length ≤ s.registers.size) {k n : Nat} {op : AluOp}
    (hk : is[k]? = some (.alu op sources n)) (hsources : ∀ source ∈ sources, source.value < r + k) :
    s'.value? (r + k) = some (s'.result op sources n) ∧ ∀ source ∈ sources, (s'.value? source.value).isSome := by
  induction is generalizing r s k with
  | nil => cases hk
  | cons i is ih =>
    obtain ⟨_, t, hi, his⟩ := bind_eq_ok.mp h
    rw [length_cons] at hsize
    cases k with
    | succ k =>
      have hkeeps := (Instruction.touches_perform hi).size
      grind
    | zero =>
      cases hk
      obtain ⟨rfl, hdefined⟩ := Instruction.perform_alu_eq_ok hi
      have hkeeps := (performAll_keeps his).2
      have hsame : ∀ source ∈ sources, s'.registers[source.value]? = s.registers[source.value]? := by
        intro source hsource
        have hlt : source.value < r := hsources source hsource
        rw [hkeeps source.value (.inl (Nat.lt_succ_of_lt hlt))]
        exact Array.getElem?_setIfInBounds_ne (Nat.ne_of_gt hlt)
      constructor
      · rw [RunState.result_congr hsame, Nat.add_zero, RunState.value?_congr (hkeeps r (by omega))]
        exact RunState.value?_define_self (by omega)
      · intro source hsource
        rw [RunState.value?_congr (hsame source hsource)]
        exact hdefined source hsource

/-- Each instruction is an operation over registers before its own for which `P` holds. -/
def Arithmetic (P : Nat → Prop) (r : Nat) (is : List Instruction) : Prop :=
  ∀ (k : Nat) (i : Instruction), is[k]? = some i → ∃ op sources n, i = .alu op sources n ∧
    ∀ source ∈ sources, source.value < r + k ∧ P source.value

namespace Arithmetic

variable {P : Nat → Prop} {js : List Instruction}

protected theorem nil : Arithmetic P r [] := by
  intro k i hi
  cases hi

variable (h : Arithmetic P r is)
include h

theorem append (h' : Arithmetic P (r + is.length) js) : Arithmetic P r (is ++ js) := by
  intro k i hi
  by_cases hk : k < is.length
  · rw [getElem?_append_left hk] at hi
    exact h k i hi
  · rw [getElem?_append_right (by omega)] at hi
    have hsum : r + is.length + (k - is.length) = r + k := by omega
    have hi' := h' _ i hi
    rwa [hsum] at hi'

theorem isPlain : ∀ i ∈ is, i.IsPlain := by
  intro i hi
  obtain ⟨k, hk⟩ := mem_iff_getElem?.mp hi
  obtain ⟨op, sources, n, rfl, -⟩ := h k i hk
  exact ⟨rfl, rfl⟩

theorem performAll (hP : ∀ q < r, P q → (s.value? q).isSome)
    (hsize : r + is.length ≤ s.registers.size) : ∃ s', performAll r is s = .ok () s' ∧
      ∀ q, r ≤ q → q < r + is.length → (s'.value? q).isSome := by
  induction is generalizing r s with
  | nil =>
    refine ⟨s, rfl, ?_⟩
    intro q hq hlt
    rw [length_nil] at hlt
    omega
  | cons i is ih =>
    rw [length_cons] at hsize
    obtain ⟨op, sources, n, rfl, hsources⟩ := h 0 i rfl
    have hi : (Instruction.alu op sources n).perform r s = .ok () (s.define r (s.result op sources n)) := by
      apply Instruction.perform_alu
      simp_all
    have hself : ((s.define r (s.result op sources n)).value? r).isSome := by
      rw [RunState.value?_define_self (by omega)]
      rfl
    have hrest : Arithmetic P (r + 1) is := by
      intro k j hj
      have hj' := h (k + 1) j hj
      rwa [← Nat.add_assoc, Nat.add_right_comm] at hj'
    have hearlier : ∀ q < r + 1, P q → ((s.define r (s.result op sources n)).value? q).isSome := by
      intro q hq hPq
      by_cases hqr : q = r
      · rwa [hqr]
      · rw [RunState.value?_define_of_ne hqr]
        exact hP q (by omega) hPq
    obtain ⟨s', hs', hnew⟩ := ih hrest hearlier (by simp only [RunState.size_define]; omega)
    refine ⟨s', (performAll_cons hi).trans hs', ?_⟩
    intro q hq hlt
    rw [length_cons] at hlt
    by_cases hqr : q = r
    · rw [hqr, RunState.value?_congr ((performAll_keeps hs').2 r (by omega))]
      exact hself
    · exact hnew q (by omega) (by omega)

end Arithmetic

end

end ShaderIR
