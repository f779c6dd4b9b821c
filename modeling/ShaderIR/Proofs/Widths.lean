import ShaderIR.Evaluate
import ShaderIR.Proofs.TwinReadings

/-!
# What the expansion of widths changes

The width of a derivative is made from the derivative along x and a second derivative, and an option
says which that is. The option changes nothing else: two readings of a stream fail alike or give
modules that differ in the marked second derivatives only. As every derivative of a single run is
zero, the functions of both modules run alike.
-/

namespace ShaderIR

open Spirv

/-! ### Functions that run alike -/

/-- Functions whose instructions do the same. -/
structure Function.SameRuns (f f' : Function) : Prop where
  blocks : f'.blocks = f.blocks
  body : f'.body = f.body
  size : f'.instructions.size = f.instructions.size
  instruction : ∀ r : Nat, f'.instructions[r]? = f.instructions[r]? ∨
    ∃ op op' sources lanes, f.instructions[r]? = some (.alu op sources lanes) ∧
      f'.instructions[r]? = some (.alu op' sources lanes) ∧ op'.eval = op.eval

namespace Function.SameRuns

variable {f f' : Function} (h : f.SameRuns f')
include h

theorem incoming_eq (previous : Option BlockId) (rs : List Register) :
    f'.incoming previous rs = f.incoming previous rs := by
  induction rs with
  | nil => rfl
  | cons r rs ih =>
    rw [Function.incoming, Function.incoming, ih]
    rcases h.instruction r with heq | ⟨op, op', sources, lanes, hi, hi', -⟩
    · rw [heq]
    · rw [hi, hi']

theorem execInstructions_eq (rs : List Register) :
    f'.execInstructions rs = f.execInstructions rs := by
  induction rs with
  | nil => rfl
  | cons r rs ih =>
    rw [Function.execInstructions, Function.execInstructions, ih]
    rcases h.instruction r with heq | ⟨op, op', sources, lanes, hi, hi', heval⟩
    · rw [heq]
    · rw [hi, hi']
      dsimp only [Instruction.perform]
      rw [heval]

theorem execFrom_eq (limit steps : Nat) (p : Position) :
    f'.execFrom limit steps p = f.execFrom limit steps p := by
  have hblock (b : BlockId) : f'.execBlock b = f.execBlock b := by
    simp only [Function.execBlock, h.blocks, h.incoming_eq, h.execInstructions_eq]
  induction steps generalizing p with
  | zero => rfl
  | succ steps ih =>
    simp only [Function.execFrom, Function.enter, hblock, ih]

theorem run_eq (machine : Machine) : machine.run f' = machine.run f := by
  simp only [Machine.run, Machine.start, h.execFrom_eq, h.body, h.size]

end Function.SameRuns

/-! ### Functions that differ in widths -/

/-- Functions that differ in the marked second derivatives only: along x in the first, along y in
the second. -/
structure Function.DifferInWidths (marks : List Mark) (f f' : Function) : Prop where
  rest : f' = { f with instructions := f'.instructions }
  size : f'.instructions.size = f.instructions.size
  same : ∀ r, (∀ m ∈ marks, m.register ≠ r) → f'.instructions[r]? = f.instructions[r]?
  /-- Around each mark stands the code of a width. -/
  width : ∀ m ∈ marks, ∃ source lanes, f.HasWidth .legacy m source lanes ∧ f'.HasWidth .derivatives m source lanes
  second : ∀ m ∈ marks, ∃ source lanes, f.instructions[m.register]? = some (.alu m.dx [source] lanes) ∧
      f'.instructions[m.register]? = some (.alu m.dy [source] lanes)
  /-- Each width has a mark of its own. -/
  ordered : marks.Pairwise fun m n => m.register < n.register

/-- Modules that differ in the marked second derivatives of their functions only. -/
structure Module.DifferInWidths (made : List (List Mark)) (m m' : Module) : Prop where
  rest : m' = { m with functions := m'.functions }
  count : made.length = m.functions.size ∧ m'.functions.size = m.functions.size
  functions : ∀ (k : Nat) (f f' : Function) marks, m.functions[k]? = some f → m'.functions[k]? = some f' →
    made[k]? = some marks → f.DifferInWidths marks f'

/-- The derivatives of a single run. -/
def AluOp.IsDerivative (op : AluOp) : Prop :=
  op ∈ [AluOp.fddx, .fddy, .fddxFine, .fddyFine, .fddxCoarse, .fddyCoarse]

theorem AluOp.IsDerivative.eval {op : AluOp} (h : op.IsDerivative) : op.eval = AluOp.eval .fddx := by
  simp only [AluOp.IsDerivative, List.mem_cons, List.not_mem_nil, or_false] at h
  rcases h with rfl | rfl | rfl | rfl | rfl | rfl <;> rfl

theorem Function.DifferInWidths.sameRuns {marks : List Mark} {f f' : Function}
    (h : f.DifferInWidths marks f') (hmarks : ∀ m ∈ marks, m.dx.IsDerivative ∧ m.dy.IsDerivative) :
    f.SameRuns f' where
  blocks := by rw [h.rest]
  body := by rw [h.rest]
  size := h.size
  instruction := fun r => by
    by_cases hr : ∃ m ∈ marks, m.register = r
    · obtain ⟨m, hm, rfl⟩ := hr
      obtain ⟨source, lanes, hx, hy⟩ := h.second m hm
      refine .inr ⟨_, _, _, _, hx, hy, ?_⟩
      exact (hmarks m hm).2.eval.trans (hmarks m hm).1.eval.symm
    · exact .inl (h.same r fun m hm hmr => hr ⟨m, hm, hmr⟩)

/-- The latitude of the option. -/
def widthLatitude : Latitude := .named .legacy .derivatives True

theorem Module.Alike.differInWidths {w : TypeMap} {made : List (List Mark)} {m m' : Module}
    (h : m.Alike widthLatitude w made m') (hcount : made.length = m.functions.size) :
    m.DifferInWidths made m' where
  rest := h.rest_eq fun _ => rfl
  count := by
    refine ⟨hcount, ?_⟩
    exact Array.Pointwise.size_eq (R := fun _ _ => True) fun k =>
      (h.functions k).mono fun _ _ _ => trivial
  functions := fun k f f' marks hf hf' hmarks => by
    have hk := h.functions k
    rw [hf, hf', hmarks, Option.getD_some] at hk
    obtain ⟨-, hw⟩ := h.types.exact fun _ => rfl
    cases hk with
    | some hk =>
      refine ⟨hk.rest_eq (fun _ => rfl) hw, hk.size, hk.same, hk.width, fun m hm => ?_, hk.ordered⟩
      obtain ⟨source, lanes, hwidth, hwidth'⟩ := hk.width m hm
      exact ⟨source, lanes, hwidth.second, hwidth'.second⟩

namespace Spirv

theorem Event.isDerivative_of_width? {e : Event} {dx dy : AluOp} (h : e.width? = some (dx, dy)) :
    dx.IsDerivative ∧ dy.IsDerivative := by
  unfold Event.width? at h
  split at h
  · next op _ =>
    split at h
    · next dx' dy' hrule =>
      obtain ⟨rfl, rfl⟩ : dx' = dx ∧ dy' = dy := by simpa using h
      have hop : op = .opFwidth ∨ op = .opFwidthFine ∨ op = .opFwidthCoarse := by
        unfold Code.AluRule.ofOpcode? at hrule
        split at hrule <;> simp_all
      rcases hop with rfl | rfl | rfl <;> cases hrule <;> simp [AluOp.IsDerivative]
    · cases h
  · cases h

theorem Edited.refl (L : Latitude) (hL : ∀ name, L.rename name = name) (z : Zone)
    (is : List RawInstruction) : Edited L z is is := by
  induction is generalizing z with
  | nil => exact .nil
  | cons i is ih => exact .both rfl (fun _ => rfl) (fun _ => hL) (ih _)

theorem StreamsAlike.refl (L : Latitude) (hL : ∀ name, L.rename name = name) (words : List Word) :
    StreamsAlike L words words :=
  ⟨Edited.refl L hL _ _, fun h => h, fun _ => rfl⟩

/-- The expansion of widths changes nothing but second derivatives: both readings of a stream fail
with the same error, or they give modules that differ in the second derivative of each width that was
read, and in nothing else, and that run alike. -/
theorem expansion_changes_second_derivatives (words : List Word) :
    (∃ e, (readModule { fwidth := .legacy } words).result = .error e ∧
      (readModule { fwidth := .derivatives } words).result = .error e) ∨
    ∃ m m' made, (readModule { fwidth := .legacy } words).result = .ok m ∧
      (readModule { fwidth := .derivatives } words).result = .ok m' ∧
      m.DifferInWidths made m' ∧
      made.flatten.map Mark.pair = (readModule { fwidth := .legacy } words).events.filterMap Event.width? ∧
      Machine.ofModule m' = Machine.ofModule m ∧
      ∀ (k : Nat) (f f' : Function), m.functions[k]? = some f → m'.functions[k]? = some f' →
        ∀ machine : Machine, machine.run f' = machine.run f := by
  have hboth := readings_abreast (StreamsAlike.refl widthLatitude (fun _ => rfl) words) rfl
    { fwidth := .legacy } { fwidth := .derivatives } rfl rfl
  cases hread : (readModule { fwidth := .legacy } words).result with
  | error e =>
    rw [hread] at hboth
    exact .inl ⟨e, rfl, hboth trivial⟩
  | ok m =>
    rw [hread] at hboth
    obtain ⟨m', w, made, hread', hm, hcount, hwidths⟩ := hboth
    have hdiffer := hm.differInWidths hcount
    have hderivative : ∀ marks ∈ made, ∀ mark ∈ marks, mark.dx.IsDerivative ∧ mark.dy.IsDerivative := by
      intro marks hmarks mark hmark
      have hmem : mark.pair ∈ made.flatten.map Mark.pair :=
        List.mem_map_of_mem (List.mem_flatten.mpr ⟨marks, hmarks, hmark⟩)
      rw [← hwidths] at hmem
      obtain ⟨e, -, he⟩ := List.mem_filterMap.mp hmem
      exact Event.isDerivative_of_width? he
    refine .inr ⟨m, m', made, rfl, hread', hdiffer, hwidths.symm, ?_, fun k f f' hf hf' machine => ?_⟩
    · rw [hdiffer.rest]
      rfl
    · have hlt : k < made.length := by
        grind
      have hmarks : made[k]? = some made[k] := List.getElem?_eq_getElem hlt
      refine ((hdiffer.functions k f f' _ hf hf' hmarks).sameRuns ?_).run_eq machine
      exact hderivative _ (List.getElem_mem hlt)

end Spirv

end ShaderIR
