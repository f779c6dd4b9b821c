import ShaderIR.Proofs.Leaves
import ShaderIR.Proofs.Run

/-!
# Straight-line code

Code that is put at the end of a block one instruction after another is carried out one instruction
after another. An instruction reads registers and memory slots and changes the register of its own
number or one slot, so what a stretch of code does is found by going through it.
-/

namespace ShaderIR

open EStateM List

/-! ### Memory -/

namespace Memory

variable {m : Memory} {v w : VariableId} {path path' : List Word} {l : Lanes}

theorem lookup_filter_of_ne {slots : List ((VariableId × List Word) × Lanes)}
    {slot other : VariableId × List Word} (h : other ≠ slot) :
    (slots.filter fun s => s.1 != slot).lookup other = slots.lookup other := by
  induction slots with
  | nil => rfl
  | cons s slots ih =>
    grind

@[simp] theorem read_write_self : (m.write v path l).read v path = l := by
  simp [read, write]

theorem read_write_of_ne (h : (w, path') ≠ (v, path)) : (m.write v path l).read w path' = m.read w path' := by
  have hbeq : ((w, path') == (v, path)) = false := by simpa using h
  simp only [read, write, lookup_cons, hbeq, lookup_filter_of_ne h]

end Memory

/-! ### Registers in a state of a run -/

variable {i : Instruction} {p : Place} {q : Register}

namespace RunState

variable {s t : RunState} {r q : Nat} {v : VariableId} {path : List Word} {l : Lanes}

/-- The contents of a register, if it is defined. -/
def value? (s : RunState) (r : Register) : Option Lanes := (s.registers[r]?).join

/-- The contents of a register; zero if it is not defined. -/
def lanes (s : RunState) (r : Register) : Lanes := (s.value? r).getD .zero

/-- The state with a register defined. -/
def define (s : RunState) (r : Register) (l : Lanes) : RunState :=
  { s with registers := s.registers.setIfInBounds r (some l) }

/-- The state with a memory slot written. -/
def write (s : RunState) (v : VariableId) (path : List Word) (l : Lanes) : RunState :=
  { s with memory := s.memory.write v path l }

@[simp] theorem size_define : (s.define r l).registers.size = s.registers.size := by
  simp [define]

theorem lanes_of_value? (h : s.value? r = some l) : s.lanes r = l := by
  simp [lanes, h]

theorem value?_of_isSome (h : (s.value? r).isSome) : s.value? r = some (s.lanes r) := by
  obtain ⟨l, hl⟩ := Option.isSome_iff_exists.mp h
  rw [hl, lanes_of_value? hl]

theorem value?_congr (h : t.registers[r]? = s.registers[r]?) : t.value? r = s.value? r := by
  rw [value?, value?, h]

theorem lanes_congr (h : t.registers[r]? = s.registers[r]?) : t.lanes r = s.lanes r := by
  rw [lanes, lanes, value?_congr h]

theorem value?_define_self (h : r < s.registers.size) : (s.define r l).value? r = some l := by
  simp [value?, define, Array.getElem?_setIfInBounds_self_of_lt h]

theorem value?_define_of_ne (h : q ≠ r) : (s.define r l).value? q = s.value? q :=
  value?_congr (Array.getElem?_setIfInBounds_ne h.symm)

/-! ### Index paths -/

/-- The index that a link stands for. -/
def linkIndex (s : RunState) : Link → Word
  | .element (.direct i) => i
  | .element (.dynamic r) => (s.lanes r).x
  | .member i => i

/-- The index path of a place. -/
def resolve (s : RunState) (p : Place) : List Word := p.path.map s.linkIndex

theorem resolve_congr (h : ∀ r ∈ p.registers, t.registers[r]? = s.registers[r]?) : t.resolve p = s.resolve p := by
  refine map_congr_left fun link hlink => ?_
  cases link with
  | member i => rfl
  | element i =>
    cases i with
    | direct i => rfl
    | dynamic r =>
      have hr : r ∈ p.registers := mem_filterMap.mpr ⟨_, hlink, rfl⟩
      exact congrArg Quad.x (lanes_congr (h r hr))

end RunState

namespace Exec

variable {s : RunState} {r : Register} {l : Lanes}

theorem register_of_value? (h : s.value? r = some l) : register r s = .ok l s := register_eq_ok.mpr ⟨h, rfl⟩

theorem source_of_isSome {source : Source} (h : (s.value? source.value).isSome) :
    Exec.source source s = .ok (source.select (s.lanes source.value)) s :=
  bind_of_ok (register_of_value? (RunState.value?_of_isSome h))

theorem mapM_source {sources : List Source} (h : ∀ source ∈ sources, (s.value? source.value).isSome) :
    sources.mapM Exec.source s = .ok (sources.map fun source => source.select (s.lanes source.value)) s := by
  induction sources with
  | nil => rfl
  | cons source sources ih =>
    rw [mapM_cons, bind_of_ok (source_of_isSome (h source (mem_cons_self ..))),
      bind_of_ok (ih fun src hsrc => h src (mem_cons_of_mem _ hsrc))]
    rfl

/-- What a link stands for. -/
def link : Link → Exec Word
  | .element i => index i
  | .member i => pure i

theorem path_eq_mapM (p : Place) : path p = p.path.mapM link := by
  unfold path link
  congr 1

theorem link_eq {l : Link} (h : ∀ r, l = .element (.dynamic r) → (s.value? r).isSome) :
    link l s = .ok (s.linkIndex l) s := by
  cases l with
  | member i => rfl
  | element i =>
    cases i with
    | direct i => rfl
    | dynamic r =>
      exact bind_of_ok (register_of_value? (RunState.value?_of_isSome (h r rfl)))

theorem path_eq (h : ∀ r ∈ p.registers, (s.value? r).isSome) : path p s = .ok (s.resolve p) s := by
  rw [path_eq_mapM]
  have hlinks : ∀ l ∈ p.path, link l s = .ok (s.linkIndex l) s := by
    rintro l hl
    refine link_eq ?_
    rintro r rfl
    exact h r (mem_filterMap.mpr ⟨_, hl, rfl⟩)
  unfold RunState.resolve
  generalize p.path = links at hlinks
  induction links with
  | nil => rfl
  | cons l links ih =>
    rw [mapM_cons, bind_of_ok (hlinks l (mem_cons_self ..)),
      bind_of_ok (ih fun l' hl' => hlinks l' (mem_cons_of_mem _ hl'))]
    rfl

theorem link_of_undefined (h : s.value? r = none) : link (.element (.dynamic r)) s = .error (.undefined r) s := by
  have hr : register r s = .error (.undefined r) s := by
    unfold register
    rw [get_bind]
    simp only [show (s.registers[r]?).join = none from h]
    rfl
  exact bind_of_error hr

theorem path_eq_error (hr : r ∈ p.registers) (h : s.value? r = none) : ∃ e, path p s = .error e s := by
  rw [path_eq_mapM]
  have hmem : .element (.dynamic r) ∈ p.path := by
    obtain ⟨l, hl, hlr⟩ := mem_filterMap.mp hr
    grind
  generalize p.path = links at hmem
  induction links with
  | nil => cases hmem
  | cons l links ih =>
    rw [mapM_cons]
    by_cases hdefined : ∀ q, l = .element (.dynamic q) → (s.value? q).isSome
    · have hne : .element (.dynamic r) ≠ l := by
        rintro rfl
        simpa [h] using hdefined r rfl
      rw [bind_of_ok (link_eq hdefined)]
      obtain ⟨e, he⟩ := ih ((mem_cons.mp hmem).resolve_left hne)
      exact ⟨e, bind_of_error he⟩
    · push Not at hdefined
      obtain ⟨q, rfl, hq⟩ := hdefined
      exact ⟨_, bind_of_error (link_of_undefined (by simpa using hq))⟩

end Exec

/-! ### Instructions -/

namespace Instruction

variable {s : RunState} {r : Register}

/-- Neither a phi nor an instruction that leaves its block. -/
def IsPlain (i : Instruction) : Prop := i.isPhi = false ∧ i.exit? = none

theorem perform_loadConst (bits : List Word) :
    (loadConst bits).perform r s = .ok () (s.define r (.ofWords bits)) := rfl

theorem perform_alu {op : AluOp} {sources : List Source} {n : Nat}
    (h : ∀ source ∈ sources, (s.value? source.value).isSome) :
    (alu op sources n).perform r s = .ok () (s.define r
      (op.eval (sources.map fun source => source.select (s.lanes source.value)) n)) :=
  bind_of_ok (Exec.mapM_source h)

theorem perform_loadVar {n : Nat} (h : ∀ r ∈ p.registers, (s.value? r).isSome) :
    (loadVar p n).perform r s = .ok () (s.define r (s.memory.read p.root (s.resolve p))) :=
  bind_of_ok (Exec.path_eq h)

theorem perform_storeVar {m : UInt8} (h : ∀ r ∈ p.registers, (s.value? r).isSome) (hq : (s.value? q).isSome) :
    (storeVar p q m).perform r s = .ok () (s.write p.root (s.resolve p)
      (maskedLanes m (s.lanes q) (s.memory.read p.root (s.resolve p)))) := by
  refine (bind_of_ok (Exec.path_eq h)).trans ?_
  exact bind_of_ok (Exec.register_of_value? (RunState.value?_of_isSome hq))

theorem perform_copyVar {dst src : Place} (hdst : ∀ r ∈ dst.registers, (s.value? r).isSome)
    (hsrc : ∀ r ∈ src.registers, (s.value? r).isSome) :
    (copyVar dst src).perform r s = .ok () (s.write dst.root (s.resolve dst)
      (s.memory.read src.root (s.resolve src))) :=
  (bind_of_ok (Exec.path_eq hsrc)).trans (bind_of_ok (Exec.path_eq hdst))

theorem perform_loadVar_of_undefined {n : Nat} (hq : q ∈ p.registers) (h : s.value? q = none) :
    ∃ e, (loadVar p n).perform r s = .error e s := by
  obtain ⟨e, he⟩ := Exec.path_eq_error hq h
  exact ⟨e, bind_of_error he⟩

theorem perform_storeVar_of_undefined {value : Register} {m : UInt8} (hq : q ∈ p.registers)
    (h : s.value? q = none) : ∃ e, (storeVar p value m).perform r s = .error e s := by
  obtain ⟨e, he⟩ := Exec.path_eq_error hq h
  exact ⟨e, bind_of_error he⟩

theorem perform_copyVar_of_undefined {dst src : Place} (hq : q ∈ dst.registers ++ src.registers)
    (h : s.value? q = none) : ∃ e, (copyVar dst src).perform r s = .error e s := by
  by_cases hsrc : ∀ q ∈ src.registers, (s.value? q).isSome
  · have hdst : q ∈ dst.registers := by
      grind
    obtain ⟨e, he⟩ := Exec.path_eq_error hdst h
    exact ⟨e, (bind_of_ok (Exec.path_eq hsrc)).trans (bind_of_error he)⟩
  · push Not at hsrc
    obtain ⟨q', hq', hnone⟩ := hsrc
    obtain ⟨e, he⟩ := Exec.path_eq_error hq' (by simpa using hnone)
    exact ⟨e, bind_of_error he⟩

end Instruction

/-! ### Stretches of code -/

/-- Carries out instructions that are numbered from `r` on. -/
def performAll : (r : Register) → List Instruction → Exec Unit
  | _, [] => pure ()
  | r, i :: is => do
    i.perform r
    performAll (r + 1) is

section

variable {f : Function} {s s' : RunState} {r : Nat} {is js : List Instruction} {b : BlockId}

theorem performAll_cons (h : i.perform r s = .ok () s') :
    performAll r (i :: is) s = performAll (r + 1) is s' := bind_of_ok h

theorem performAll_cons_of_error {e : EvalError} (h : i.perform r s = .error e s') :
    performAll r (i :: is) s = .error e s' :=
  bind_of_error h

theorem performAll_singleton (h : i.perform r s = .ok () s') : performAll r [i] s = .ok () s' := performAll_cons h

theorem performAll_append (h : performAll r is s = .ok () s') :
    performAll r (is ++ js) s = performAll (r + is.length) js s' := by
  induction is generalizing r s with
  | nil =>
    obtain ⟨-, rfl⟩ := pure_eq_ok.mp h
    rfl
  | cons i is ih =>
    obtain ⟨_, t, hi, his⟩ := bind_eq_ok.mp h
    rw [cons_append, performAll_cons hi, ih his, length_cons, Nat.add_right_comm, Nat.add_assoc]

theorem performAll_keeps (h : performAll r is s = .ok () s') : s'.registers.size = s.registers.size ∧
      ∀ q : Nat, q < r ∨ r + is.length ≤ q → s'.registers[q]? = s.registers[q]? := by
  induction is generalizing r s with
  | nil =>
    obtain ⟨-, rfl⟩ := pure_eq_ok.mp h
    exact ⟨rfl, fun _ _ => rfl⟩
  | cons i is ih =>
    obtain ⟨_, t, hi, his⟩ := bind_eq_ok.mp h
    have htouches := Instruction.touches_perform hi
    obtain ⟨hsize, hkeeps⟩ := ih his
    refine ⟨hsize.trans htouches.size, fun q hq => ?_⟩
    rw [length_cons] at hq
    have hne : q ≠ r := by omega
    rw [hkeeps q (by omega), htouches.getElem?_of_ne hne]

namespace Function

theorem execInstructions_range' (his : ∀ i ∈ is, i.IsPlain)
    (h : ∀ n i, is[n]? = some i → f.instructions[r + n]? = some i) :
    f.execInstructions (List.range' r is.length) = performAll r is >>= fun _ => pure none := by
  induction is generalizing r with
  | nil => rfl
  | cons i is ih =>
    obtain ⟨hphi, hexit⟩ := his i (mem_cons_self ..)
    have hrest := ih (fun j hj => his j (mem_cons_of_mem i hj)) (r := r + 1) fun n j hj => by
      rw [Nat.add_assoc, Nat.add_comm 1]
      exact h (n + 1) j hj
    rw [length_cons, List.range'_succ, execInstructions_cons (r := r) (h 0 i rfl) hphi hexit, hrest]
    exact (bind_assoc ..).symm

theorem code_insertAll_append (h : b < f.blocks.size) : (f.insertAll (.append b) is).code b =
      f.code b ++ List.range' f.instructions.size is.length := by
  induction is generalizing f with
  | nil => simp
  | cons i is ih =>
    rw [insertAll_cons, ih (by simpa using h), code_insert_append h, append_assoc,
      length_cons, List.range'_succ, insert_instructions, Array.size_push]
    rfl

end Function

namespace Spirv

/-- Carries out what one state of lowering has in a block beyond what an earlier state had there. -/
def runSince (c c' : Context) (b : BlockId) : Exec (Option Jump) :=
  c'.function.execInstructions ((c'.function.code b).drop (c.function.code b).length)

theorem runSince_eq {c c' : Context} (hb : b < c.function.blocks.size)
    (h : Inserts (.append b) is c c') (his : ∀ i ∈ is, i.IsPlain) :
    runSince c c' b = performAll c.fresh is >>= fun _ => pure none := by
  rw [runSince, h.function, Function.code_insertAll_append hb, drop_left]
  refine Function.execInstructions_range' his fun n i hi => ?_
  rw [Function.insertAll_instructions, Array.getElem?_append_right (Nat.le_add_right ..), Nat.add_sub_cancel_left]
  simpa using hi

/-! ### Code that is made without fail -/

theorem Lower.registerLanes_of_getElem? {c : Context} (h : c.function.instructions[r]? = some i) :
    registerLanes r c = .ok i.lanes c := by
  refine get_bind.trans ?_
  simp only [h]
  rfl

namespace Emit

variable {spot : Spot} {c : Context}

theorem instruction_eq (i : Instruction) : instruction i spot c =
    .ok c.fresh (c.withFunction (c.function.insert spot i).2) := rfl

/-- An operation over two whole registers. -/
theorem alu_pair {op : AluOp} {a b : Register} {j : Instruction} {lanes : Nat}
    (ha : c.function.instructions[a]? = some i) (hb : c.function.instructions[b]? = some j) :
    alu op [a, b] lanes spot c = .ok c.fresh (c.withFunction
      (c.function.insert spot (.alu op [.fit a i.lanes, .fit b j.lanes] lanes)).2) := by
  unfold alu
  rw [mapM_cons, mapM_cons, mapM_nil]
  simp only [bind_assoc, pure_bind]
  exact (lift_of_ok (Lower.registerLanes_of_getElem? ha)).trans (lift_of_ok (Lower.registerLanes_of_getElem? hb))

end Emit

end Spirv

end

end ShaderIR
