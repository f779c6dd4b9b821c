import ShaderIR.Proofs.Pairing
import ShaderIR.Proofs.Success

/-!
# Two readings in step

Two readings of streams that differ in little go through states that belong together: the same steps
lead from states that belong together to such states. What is proved here for the small steps of
lowering, and for chains of them, carries over to everything that is made of them.

The width of a derivative is where the two readings may make different code. The second derivative of
each width is marked, and the widths that were made are counted against those that were announced.
-/

namespace ShaderIR

open EStateM List

open Spirv

/-! ### Functions -/

/-- The register of a second derivative, with the derivatives along x and y it is one of. -/
structure Mark where
  register : Register
  dx : AluOp
  dy : AluOp

/-- The derivatives that a second derivative is one of. -/
def Mark.pair (m : Mark) : AluOp × AluOp := (m.dx, m.dy)

/-- The code for the width of a derivative, where `first` is the number of its first instruction. -/
def widthCode (expansion : FwidthExpansion) (dx dy : AluOp) (source : Source) (lanes : Nat)
    (first : Register) : List Instruction :=
  [.alu dx [source] lanes, .alu (Code.secondDerivative dx dy expansion) [source] lanes,
   .alu .fabs [.fit first lanes] lanes,
   .alu .fabs [.fit (first + 1) lanes] lanes,
   .alu .fadd [.fit (first + 2) lanes, .fit (first + 3) lanes] lanes]

/-- A function has the code for the width of a derivative around a mark. -/
def Function.HasWidth (f : Function) (expansion : FwidthExpansion) (m : Mark) (source : Source)
    (lanes : Nat) : Prop :=
  ∃ first, m.register = first + 1 ∧ ∀ j i, (widthCode expansion m.dx m.dy source lanes first)[j]? = some i →
      f.instructions[first + j]? = some i

/-- Functions that belong together: they have the same code but for the marked derivatives. -/
structure Function.Alike (L : Latitude) (w : TypeMap) (marks : List Mark) (f f' : Function) : Prop where
  name : L.Named f.name f'.name
  result : Option.Rel w.Maps f.result f'.result
  locals : f'.locals = f.locals
  returnVar : f'.returnVar = f.returnVar
  blocks : f'.blocks = f.blocks
  body : f'.body = f.body
  size : f'.instructions.size = f.instructions.size
  same : ∀ r, (∀ m ∈ marks, m.register ≠ r) → f'.instructions[r]? = f.instructions[r]?
  width : ∀ m ∈ marks, ∃ source lanes, f.HasWidth L.first m source lanes ∧ f'.HasWidth L.second m source lanes
  ordered : marks.Pairwise fun m n => m.register < n.register

variable {lanes : Nat}

/-- The code of a width stays where it is as long as instructions stay. -/
theorem Function.HasWidth.mono {f g : Function} {expansion : FwidthExpansion} {m : Mark}
    {source : Source} (h : f.HasWidth expansion m source lanes)
    (hfg : ∀ (r : Nat) (op : AluOp) (sources : List Source) (lanes : Nat),
      f.instructions[r]? = some (.alu op sources lanes) →
      g.instructions[r]? = some (.alu op sources lanes)) : g.HasWidth expansion m source lanes := by
  obtain ⟨first, hfirst, hcode⟩ := h
  refine ⟨first, hfirst, fun j i hi => ?_⟩
  have hmem : i ∈ widthCode expansion m.dx m.dy source lanes first := mem_of_getElem? hi
  obtain ⟨op, sources, lanes', rfl⟩ : ∃ op sources lanes', i = .alu op sources lanes' := by
    simp only [widthCode, mem_cons, not_mem_nil, or_false] at hmem
    grind
  exact hfg _ _ _ _ (hcode j _ hi)

theorem Function.HasWidth.second {f : Function} {expansion : FwidthExpansion} {m : Mark}
    {source : Source} (h : f.HasWidth expansion m source lanes) :
    f.instructions[m.register]? = some (.alu (Code.secondDerivative m.dx m.dy expansion) [source] lanes) := by
  obtain ⟨first, hfirst, hcode⟩ := h
  rw [hfirst]
  exact hcode 1 _ rfl

/-- Functions whose blocks are the same and end in the same jumps. -/
structure Function.SameFlow (f f' : Function) : Prop where
  blocks : f'.blocks = f.blocks
  size : f'.instructions.size = f.instructions.size
  jumps : ∀ r : Nat, (f'.instructions[r]?).bind Instruction.jump? = (f.instructions[r]?).bind Instruction.jump?

namespace Function.SameFlow

variable {f f' : Function}

theorem jump?_eq (h : f.SameFlow f') : f'.jump? = f.jump? := by
  funext b
  rw [Function.jump?_eq, Function.jump?_eq]
  have hcode : f'.code b = f.code b := by rw [Function.code, Function.code, h.blocks]
  rw [hcode]
  congr
  funext r
  exact h.jumps r

protected theorem insert (h : f.SameFlow f') (spot : Spot) {i i' : Instruction}
    (hi : i'.jump? = i.jump?) : (f.insert spot i).2.SameFlow (f'.insert spot i').2 where
  blocks := by simp only [Function.insert, h.blocks, h.size, h.jump?_eq]
  size := by simp [h.size]
  jumps := fun r => by
    rw [insert_instructions, insert_instructions, Array.getElem?_push, Array.getElem?_push, h.size]
    split
    · exact hi
    · exact h.jumps r

protected theorem insertAll (h : f.SameFlow f') (spot : Spot) {is is' : List Instruction}
    (his : List.Forall₂ (fun i i' => i'.jump? = i.jump?) is is') :
    (f.insertAll spot is).SameFlow (f'.insertAll spot is') := by
  induction his generalizing f f' with
  | nil => exact h
  | cons hi _ ih => exact ih (h.insert spot hi)

end Function.SameFlow

namespace Function.Alike

variable {L : Latitude} {w w' : TypeMap} {marks : List Mark} {f f' : Function} (h : f.Alike L w marks f')
include h

protected theorem mono (hw : w <+: w') : f.Alike L w' marks f' :=
  { h with result := h.result.mono fun _ _ hr => hr.mono hw }

theorem instruction (r : Register) :
    f'.instructions[r]? = f.instructions[r]? ∨ ∃ op op' sources lanes,
      f.instructions[r]? = some (.alu op sources lanes) ∧
      f'.instructions[r]? = some (.alu op' sources lanes) := by
  by_cases hr : ∃ m ∈ marks, m.register = r
  · obtain ⟨m, hm, rfl⟩ := hr
    obtain ⟨source, lanes, hwidth, hwidth'⟩ := h.width m hm
    exact .inr ⟨_, _, _, _, hwidth.second, hwidth'.second⟩
  · exact .inl (h.same r fun m hm hmr => hr ⟨m, hm, hmr⟩)

theorem lanes_eq (r : Register) :
    (f'.instructions[r]?).map Instruction.lanes = (f.instructions[r]?).map Instruction.lanes := by
  rcases h.instruction r with heq | ⟨op, op', sources, lanes, hi, hi'⟩
  · rw [heq]
  · rw [hi, hi']
    rfl

theorem phi_iff {r : Register} {sources : List PhiSource} :
    f'.instructions[r]? = some (.phi sources lanes) ↔ f.instructions[r]? = some (.phi sources lanes) := by
  rcases h.instruction r with heq | ⟨op, op', sources', lanes', hi, hi'⟩
  · rw [heq]
  · rw [hi, hi']
    simp

theorem lt_of_mem {m : Mark} (hm : m ∈ marks) : m.register < f.instructions.size := by
  obtain ⟨source, lanes, hwidth, -⟩ := h.width m hm
  exact (Array.getElem?_eq_some_iff.mp hwidth.second).1

theorem sameFlow : f.SameFlow f' where
  blocks := h.blocks
  size := h.size
  jumps := fun r => by
    rcases h.instruction r with heq | ⟨op, op', sources, lanes, hi, hi'⟩
    · rw [heq]
    · rw [hi, hi']
      rfl

theorem jump?_eq : f'.jump? = f.jump? := h.sameFlow.jump?_eq

protected theorem insert (spot : Spot) (i : Instruction) :
    (f.insert spot i).2.Alike L w marks (f'.insert spot i).2 where
  name := h.name
  result := h.result
  locals := h.locals
  returnVar := h.returnVar
  blocks := (h.sameFlow.insert spot rfl).blocks
  body := h.body
  size := by simp [h.size]
  same := fun r hr => by
    rw [insert_instructions, insert_instructions, Array.getElem?_push, Array.getElem?_push, h.size, h.same r hr]
  width := fun m hm => by
    obtain ⟨source, lanes, hwidth, hwidth'⟩ := h.width m hm
    have hkeep (g : Function) (r : Nat) (op : AluOp) (sources : List Source) (lanes : Nat)
        (hr : g.instructions[r]? = some (.alu op sources lanes)) :
        (g.insert spot i).2.instructions[r]? = some (.alu op sources lanes) := by
      obtain ⟨hlt, -⟩ := Array.getElem?_eq_some_iff.mp hr
      rw [insert_instructions, Array.getElem?_push, if_neg (Nat.ne_of_lt hlt), hr]
    exact ⟨source, lanes, hwidth.mono (hkeep f), hwidth'.mono (hkeep f')⟩
  ordered := h.ordered

/-- The code of a width may be put at the same spot, with its second derivative marked. -/
theorem insertAll_width (spot : Spot) (dx dy : AluOp) (source : Source) (lanes : Nat) :
    (f.insertAll spot (widthCode L.first dx dy source lanes f.instructions.size)).Alike L w
      (marks ++ [⟨f.instructions.size + 1, dx, dy⟩])
      (f'.insertAll spot (widthCode L.second dx dy source lanes f.instructions.size)) := by
  generalize hfirst : f.instructions.size = first
  have hkeep (g : Function) (is : List Instruction) (r : Nat) (op : AluOp) (sources : List Source)
      (lanes : Nat) (hr : g.instructions[r]? = some (.alu op sources lanes)) :
      (g.insertAll spot is).instructions[r]? = some (.alu op sources lanes) := by
    obtain ⟨hlt, -⟩ := Array.getElem?_eq_some_iff.mp hr
    rw [insertAll_instructions, Array.getElem?_append_left hlt, hr]
  have hcode (g : Function) (is : List Instruction) (hsize : g.instructions.size = first) (j : Nat)
      (i : Instruction) (hi : is[j]? = some i) :
      (g.insertAll spot is).instructions[first + j]? = some i := by
    rw [insertAll_instructions, Array.getElem?_append_right (by omega), hsize]
    simpa using hi
  have hflow : (f.insertAll spot (widthCode L.first dx dy source lanes first)).SameFlow
      (f'.insertAll spot (widthCode L.second dx dy source lanes first)) :=
    h.sameFlow.insertAll spot (.cons rfl (.cons rfl (.cons rfl (.cons rfl (.cons rfl .nil)))))
  refine ⟨?_, ?_, ?_, ?_, hflow.blocks, ?_, hflow.size, ?_, ?_, ?_⟩
  · exact h.name
  · exact h.result
  · exact h.locals
  · exact h.returnVar
  · exact h.body
  · intro r hr
    have hne : first + 1 ≠ r := hr ⟨first + 1, dx, dy⟩ (by simp)
    have hsame := h.same r fun m hm => hr m (mem_append_left _ hm)
    rw [insertAll_instructions, insertAll_instructions, Array.getElem?_append,
      Array.getElem?_append, h.size, hfirst, hsame]
    split
    · rfl
    · next hge =>
      obtain ⟨j, rfl⟩ := Nat.exists_eq_add_of_le (Nat.le_of_not_lt hge)
      have hj : j ≠ 1 := by
        rintro rfl
        exact hne rfl
      rw [Nat.add_sub_cancel_left]
      match j, hj with
      | 0, _ | 2, _ | 3, _ | 4, _ | j + 5, _ => rfl
  · intro m hm
    rcases mem_append.mp hm with hm | hm
    · obtain ⟨source, lanes, hwidth, hwidth'⟩ := h.width m hm
      exact ⟨source, lanes, hwidth.mono (hkeep f _), hwidth'.mono (hkeep f' _)⟩
    · obtain rfl := mem_singleton.mp hm
      have hfirst' : f'.instructions.size = first := h.size.trans hfirst
      exact ⟨source, lanes, ⟨first, rfl, hcode f _ hfirst⟩, ⟨first, rfl, hcode f' _ hfirst'⟩⟩
  · refine pairwise_append.mpr ⟨h.ordered, pairwise_singleton _ _, fun m hm n hn => ?_⟩
    obtain rfl := mem_singleton.mp hn
    exact Nat.lt_succ_of_lt (hfirst ▸ h.lt_of_mem hm)

protected theorem addBlock : f.addBlock.2.Alike L w marks f'.addBlock.2 :=
  { h with blocks := by simp only [Function.addBlock, h.blocks] }

protected theorem withFlow : f.withFlow.Alike L w marks f'.withFlow :=
  { h with blocks := by simp only [Function.withFlow, Function.edges, h.blocks, h.body, h.jump?_eq] }

theorem replace_phi {r : Register} {sources : List PhiSource}
    (hr : f.instructions[r]? = some (.phi sources lanes)) (i : Instruction) :
    (f.replace r i).Alike L w marks (f'.replace r i) := by
  have hkeep (g : Function) (hg : g.instructions[r]? = some (.phi sources lanes)) (k : Nat)
      (op : AluOp) (sources' : List Source) (lanes' : Nat)
      (hk : g.instructions[k]? = some (.alu op sources' lanes')) :
      (g.replace r i).instructions[k]? = some (.alu op sources' lanes') := by
    have hne : r ≠ k := by
      rintro rfl
      rw [hg] at hk
      cases hk
    rw [Function.replace, Array.getElem?_setIfInBounds_ne hne, hk]
  refine { h with size := ?_, same := ?_, width := ?_ }
  · simp [Function.replace, h.size]
  · intro k hk
    simp only [Function.replace, Array.getElem?_setIfInBounds, h.size, h.same k hk]
  · intro m hm
    obtain ⟨source, lanes, hwidth, hwidth'⟩ := h.width m hm
    exact ⟨source, lanes, hwidth.mono (hkeep f hr), hwidth'.mono (hkeep f' (h.phi_iff.mpr hr))⟩

theorem instructions_eq (hL : L.second = L.first) :
    f'.instructions = f.instructions := by
  refine Array.ext_getElem? fun r => ?_
  by_cases hr : ∃ m ∈ marks, m.register = r
  · obtain ⟨m, hm, rfl⟩ := hr
    obtain ⟨source, lanes, ⟨first, hfirst, hcode⟩, ⟨first', hfirst', hcode'⟩⟩ := h.width m hm
    obtain rfl : first' = first := Nat.succ.inj (hfirst'.symm.trans hfirst)
    rw [hfirst, hcode 1 _ rfl, hcode' 1 _ rfl, hL]
  · exact h.same r fun m hm hmr => hr ⟨m, hm, hmr⟩

end Function.Alike

/-! ### Constants and variables -/

/-- Constants that belong together, where there are `n` constants. -/
structure Constant.Alike (L : Latitude) (w : TypeMap) (n : Nat) (c c' : Constant) : Prop where
  name : L.Named c.name c'.name
  ty : w.Maps c.ty c'.ty
  value : c'.value = c.value
  parts : ∀ parts, c.value = .composite parts → ∀ k ∈ parts, k < n

theorem Constant.Alike.mono {L : Latitude} {w w' : TypeMap} {n n' : Nat} {c c' : Constant}
    (h : c.Alike L w n c') (hw : w <+: w') (hn : n ≤ n') : c.Alike L w' n' c' :=
  ⟨h.name, h.ty.mono hw, h.value, fun parts hparts k hk => Nat.lt_of_lt_of_le (h.parts parts hparts k hk) hn⟩

theorem Constant.Alike.bits?_eq {L : Latitude} {w : TypeMap} {n : Nat} {c c' : Constant}
    (h : c.Alike L w n c') : c'.bits? = c.bits? := by rw [Constant.bits?, Constant.bits?, h.value]

/-- Variables that belong together. -/
structure Variable.Alike (L : Latitude) (w : TypeMap) (v v' : Variable) : Prop where
  name : L.Named v.name v'.name
  ty : w.Maps v.ty v'.ty
  rest : v' = { v with name := v'.name, ty := v'.ty }

theorem Variable.Alike.mode_eq {L : Latitude} {w : TypeMap} {v v' : Variable} (h : v.Alike L w v') :
    v'.mode = v.mode := by
  have hmode := congrArg Variable.mode h.rest
  exact hmode

/-- Modules that belong together, where `made` are the marks of their functions. -/
structure Module.Alike (L : Latitude) (w : TypeMap) (made : List (List Mark)) (m m' : Module) : Prop where
  types : m.types.Alike L w m'.types
  constants : m.constants.Pointwise (Constant.Alike L w m.constants.size) m'.constants
  vars : m.vars.Pointwise (Variable.Alike L w) m'.vars
  functions : ∀ k : Nat, Option.Rel (Function.Alike L w ((made[k]?).getD [])) m.functions[k]? m'.functions[k]?
  entryPoints : m'.entryPoints = m.entryPoints

/-! ### Where names stay -/

section Exact

variable {L : Latitude} {w : TypeMap} (hL : ∀ name, L.rename name = name)
include hL

section

variable (hw : ∀ i j, w.Maps i j → j = i)
include hw

theorem Constant.Alike.eq {n : Nat}
    {k k' : Constant} (h : k.Alike L w n k') : k' = k := by
  obtain ⟨name, ty, value⟩ := k
  obtain ⟨name', ty', value'⟩ := k'
  obtain rfl : name' = name := h.name.eq hL
  obtain rfl : ty' = ty := hw _ _ h.ty
  obtain rfl : value' = value := h.value
  rfl

theorem Variable.Alike.eq
    {v v' : Variable} (h : v.Alike L w v') : v' = v := by
  rw [h.rest, h.name.eq hL, hw _ _ h.ty]

theorem Function.Alike.rest_eq
    {marks : List Mark} {f f' : Function} (h : f.Alike L w marks f') :
    f' = { f with instructions := f'.instructions } := by
  obtain ⟨name, result, locals, returnVar, instructions, blocks, body⟩ := f
  obtain ⟨name', result', locals', returnVar', instructions', blocks', body'⟩ := f'
  obtain rfl : name' = name := h.name.eq hL
  obtain rfl : locals' = locals := h.locals
  obtain rfl : returnVar' = returnVar := h.returnVar
  obtain rfl : blocks' = blocks := h.blocks
  obtain rfl : body' = body := h.body
  have hresult : result' = result := by
    have hrel := h.result
    dsimp only at hrel
    cases hrel with
    | none => rfl
    | some hty => rw [hw _ _ hty]
  rw [hresult]

end

theorem Module.Alike.rest_eq {made : List (List Mark)}
    {m m' : Module} (h : m.Alike L w made m') : m' = { m with functions := m'.functions } := by
  obtain ⟨htypes, hw⟩ := h.types.exact hL
  have hconstants : m'.constants = m.constants := (h.constants.mono fun _ _ hk => hk.eq hL hw).eq_of_eq
  have hvars : m'.vars = m.vars := (h.vars.mono fun _ _ hv => hv.eq hL hw).eq_of_eq
  obtain ⟨types, constants, vars, functions, entryPoints⟩ := m
  obtain ⟨types', constants', vars', functions', entryPoints'⟩ := m'
  obtain rfl : types' = types := htypes
  obtain rfl : constants' = constants := hconstants
  obtain rfl : vars' = vars := hvars
  obtain rfl : entryPoints' = entryPoints := h.entryPoints
  rfl

theorem Module.Alike.eq (hfwidth : L.second = L.first)
    {made : List (List Mark)} {m m' : Module} (h : m.Alike L w made m') : m' = m := by
  obtain ⟨-, hw⟩ := h.types.exact hL
  have hfunctions : m'.functions = m.functions := by
    refine Array.Pointwise.eq_of_eq fun k => (h.functions k).mono fun f f' hf => ?_
    rw [hf.rest_eq hL hw, hf.instructions_eq hfwidth]
  rw [h.rest_eq hL, hfunctions]

end Exact

namespace Spirv

/-! ### Blocks of a stream -/

namespace RawInstruction

/-- Whether an instruction has no meaning: it does nothing, or says which line of a text the code
comes from. -/
def isLine (i : RawInstruction) : Bool :=
  match i.op with
  | .opNop | .opLine | .opNoLine => true
  | _ => false

/-- Whether an instruction gives a name. -/
def isName (i : RawInstruction) : Bool :=
  match i.op with
  | .opName | .opMemberName => true
  | _ => false

/-- The same instruction, at another place of the stream perhaps. -/
def Same (i i' : RawInstruction) : Prop := i' = { i with offset := i'.offset }

end RawInstruction

/-- Instructions of blocks that belong together: they are the same but for those without a meaning,
and but for names in the first reading, which it does not get past. -/
inductive CodeAlike (L : Latitude) : List RawInstruction → List RawInstruction → Prop
  | nil : CodeAlike L [] []
  | both {i i' is is'} : i.Same i' → CodeAlike L is is' → CodeAlike L (i :: is) (i' :: is')
  | line {i is is'} : i.isLine = true → CodeAlike L is is' → CodeAlike L is (i :: is')
  | name {i is is'} : ¬ L.Strict → i.isName = true → CodeAlike L is is' → CodeAlike L (i :: is) is'

/-- Blocks of two streams that belong together. -/
structure SourceBlock.Alike (L : Latitude) (b b' : SourceBlock) : Prop where
  label : b'.label = b.label
  code : CodeAlike L b.code b'.code
  terminator : b.terminator.Same b'.terminator

/-! ### States -/

/-- The derivatives that an announced instruction is the width of. -/
def Event.width? : Event → Option (AluOp × AluOp)
  | .instruction op _ =>
    match Code.AluRule.ofOpcode? op with
    | some (.fwidth dx dy) => some (dx, dy)
    | _ => none
  | _ => none

/-- The widths that were announced, in order. -/
def Context.widths (c : Context) : List (AluOp × AluOp) := c.events.reverse.filterMap Event.width?

/-- What belongs together in two states of lowering. -/
structure Pairing where
  types : TypeMap := []
  /-- The types of the second reading. -/
  known : Types := {}
  /-- How many constants there are. -/
  constants : Nat := 0
  /-- The marks of the functions that are done. -/
  made : List (List Mark) := []
  /-- The marks of the function under construction. -/
  marks : List Mark := []
  /-- The widths that were announced and are not made yet. -/
  due : List (AluOp × AluOp) := []

namespace Pairing

/-- The widths of the functions that are done. -/
def past (p : Pairing) : List (AluOp × AluOp) := p.made.flatten.map Mark.pair

/-- The widths that must have been announced. -/
def announced (p : Pairing) : List (AluOp × AluOp) := p.past ++ p.marks.map Mark.pair ++ p.due

/-- A later pairing: types stay together, and whatever was announced was made. -/
structure Grows (p q : Pairing) : Prop where
  types : p.types <+: q.types
  known : p.known.Extends q.known
  constants : p.constants ≤ q.constants
  made : q.made = p.made
  due : q.due = p.due

@[refl] protected theorem Grows.refl (p : Pairing) : p.Grows p :=
  ⟨prefix_rfl, .refl p.known, Nat.le_refl _, rfl, rfl⟩

protected theorem Grows.trans {p q r : Pairing} (h : p.Grows q) (h' : q.Grows r) : p.Grows r :=
  ⟨h.types.trans h'.types, h.known.trans h'.known, Nat.le_trans h.constants h'.constants,
    h'.made.trans h.made, h'.due.trans h.due⟩

end Pairing

/-- States of lowering that belong together but for the function under construction, where `widths`
were announced. -/
structure Context.Matches (L : Latitude) (p : Pairing) (widths : List (AluOp × AluOp))
    (c c' : Context) : Prop where
  first : c.options.fwidth = L.first
  second : c'.options.fwidth = L.second
  ids : c.ids.Alike L p.types p.constants c'.ids
  types : c.module.types.Alike L p.types c'.module.types
  known : c'.module.types = p.known
  constants : c.module.constants.Pointwise (Constant.Alike L p.types p.constants) c'.module.constants
  count : c.module.constants.size = p.constants
  vars : c.module.vars.Pointwise (Variable.Alike L p.types) c'.module.vars
  made : ∀ k : Nat, Option.Rel (Function.Alike L p.types ((p.made[k]?).getD []))
    c.module.functions[k]? c'.module.functions[k]?
  entries : c'.module.entryPoints = c.module.entryPoints
  entryPoints : c'.entryPoints = c.entryPoints
  stage : c'.stage = c.stage
  blocks : c.blocks.Pointwise (SourceBlock.Alike L) c'.blocks
  functions : c'.functions = c.functions
  ends : c'.ends = c.ends
  placed : c'.placed = c.placed
  pendingPhis : List.Forall₂ (KeyedAlike (Tree.Alike p.types)) c.pendingPhis c'.pendingPhis
  conditionals : c'.conditionals = c.conditionals
  loops : c'.loops = c.loops
  nextKey : c'.nextKey = c.nextKey
  transposes : List.Forall₂ (KeyedAlike (Tree.Alike p.types)) c.transposes c'.transposes
  widths : c.widths = widths

/-- States of lowering that belong together. -/
structure Context.Alike (L : Latitude) (p : Pairing) (c c' : Context) : Prop extends
    Context.Matches L p p.announced c c' where
  function : c.function.Alike L p.types p.marks c'.function

theorem Lower.lookup_apply {α : Type} (f : IdTable → Except Error α) (c : Context) :
    Lower.lookup f c = Lower.ofExcept (f c.ids) c := rfl

/-! ### Computations in step -/

variable {α β γ δ : Type} {L : Latitude} {p q : Pairing}

/-- A relation of results that later pairings keep. -/
def Stable (R : Pairing → α → β → Prop) : Prop := ∀ p q, p.Grows q → ∀ a b, R p a b → R q a b

/-- The same result. -/
abbrev Equal : Pairing → α → α → Prop := fun _ a b => b = a

/-- No result. -/
abbrev Done : Pairing → PUnit → PUnit → Prop := fun _ _ _ => True

/-- What the second of two runs comes to, given the first: where that succeeds, the second does too,
with results and states that `P` holds of, and where it fails, the second fails alike if that
matters. -/
def Abreast (L : Latitude) (P : α → β → Context → Context → Prop) :
    EStateM.Result Error Context α → EStateM.Result Error Context β → Prop
  | .ok a c, y => ∃ b c', y = .ok b c' ∧ P a b c c'
  | .error e _, y => L.Strict → ∃ c', y = .error e c'

theorem Abreast.mono {P Q : α → β → Context → Context → Prop}
    {x : EStateM.Result Error Context α} {y : EStateM.Result Error Context β} (h : Abreast L P x y)
    (hPQ : ∀ a b c c', P a b c c' → Q a b c c') : Abreast L Q x y := by
  cases x with
  | error e c => exact h
  | ok a c =>
    obtain ⟨b, c', hy, hP⟩ := h
    exact ⟨b, c', hy, hPQ a b c c' hP⟩

variable {f : α → Lower γ} {l : List α} {f' : β → Lower δ}

theorem Abreast.bind {P : α → β → Context → Context → Prop} {Q : γ → δ → Context → Context → Prop}
    {m : Lower α} {m' : Lower β} {c c' : Context} (h : Abreast L P (m c) (m' c'))
    (hf : ∀ a b d d', P a b d d' → Abreast L Q (f a d) (f' b d')) :
    Abreast L Q ((m >>= f) c) ((m' >>= f') c') := by
  cases hm : m c with
  | error e d =>
    rw [hm] at h
    rw [bind_of_error hm]
    intro hs
    obtain ⟨d', hm'⟩ := h hs
    exact ⟨d', bind_of_error hm'⟩
  | ok a d =>
    rw [hm] at h
    obtain ⟨b, d', hm', hP⟩ := h
    rw [bind_of_ok hm, bind_of_ok hm']
    exact hf a b d d' hP

/-- From states that belong together, a second computation follows a first to such states, with
results that are related. -/
def InStep (L : Latitude) (p : Pairing) (m : Lower α) (m' : Lower β) (R : Pairing → α → β → Prop) : Prop :=
  ∀ ⦃q⦄, p.Grows q → ∀ ⦃c c'⦄, c.Alike L q c' →
    Abreast L (fun a b d d' => ∃ q', q.Grows q' ∧ d.Alike L q' d' ∧ R q' a b) (m c) (m' c')

/-- A computation that keeps in step with itself. -/
abbrev Steady (L : Latitude) (p : Pairing) (m : Lower α) (R : Pairing → α → α → Prop := Equal) :
    Prop := InStep L p m m R

namespace InStep

variable {R : Pairing → α → β → Prop} {S : Pairing → γ → δ → Prop} {m : Lower α} {m' : Lower β}

protected theorem mono {R' : Pairing → α → β → Prop} (h : InStep L p m m' R)
    (hR : ∀ q, p.Grows q → ∀ a b, R q a b → R' q a b) : InStep L p m m' R' :=
  fun _ hq _ _ hc => (h hq hc).mono fun a b _ _ ⟨q', hq', hd, hab⟩ =>
    ⟨q', hq', hd, hR q' (hq.trans hq') a b hab⟩

/-- What keeps in step keeps in step later. -/
theorem later (h : InStep L p m m' R) (hq : p.Grows q) : InStep L q m m' R := fun _ hr _ _ hc => h (hq.trans hr) hc

protected theorem pure {a : α} {b : β} (h : ∀ q, p.Grows q → R q a b) : InStep L p (pure a) (pure b) R :=
  fun q hq _ c' hc => ⟨b, c', rfl, q, .refl q, hc, h q hq⟩

theorem throw_of_alike {e e' : Error}
    (h : ∀ q, p.Grows q → ∀ c c' : Context, c.Alike L q c' → L.Strict → e' = e) :
    InStep L p (throw e : Lower α) (throw e' : Lower β) R :=
  fun q hq c c' hc hs => ⟨c', by rw [h q hq c c' hc hs]; rfl⟩

protected theorem throw {e e' : Error} (h : L.Strict → e' = e) : InStep L p (throw e) (throw e') R :=
  throw_of_alike fun _ _ _ _ _ => h

protected theorem meaningless {why why' : Meaningless} (h : L.Strict → why' = why) :
    InStep L p (Lower.meaningless why) (Lower.meaningless why') R :=
  .throw fun hs => by rw [h hs]

theorem meaningless_type {ty ty' : TypeId} (h : p.types.Maps ty ty') (why : TypeId → Meaningless) :
    InStep L p (Lower.meaningless (why ty) : Lower α) (Lower.meaningless (why ty') : Lower β) R :=
  throw_of_alike fun q hq c c' hc hs => by
    rw [(hc.types.exact (L.rename_of_strict hs)).2 ty ty' (h.mono hq.types)]

protected theorem bind (h : InStep L p m m' R)
    (hf : ∀ q, p.Grows q → ∀ a b, R q a b → InStep L q (f a) (f' b) S) :
    InStep L p (m >>= f) (m' >>= f') S := by
  intro q hq c c' hc
  refine (h hq hc).bind fun a b d d' ⟨q₁, hq₁, hd, hab⟩ => ?_
  refine (hf q₁ (hq.trans hq₁) a b hab (.refl q₁) hd).mono fun _ _ _ _ ⟨q₂, hq₂, hrest⟩ => ?_
  exact ⟨q₂, hq₁.trans hq₂, hrest⟩

theorem bind_same {m m' : Lower α} {f' : α → Lower δ} (h : InStep L p m m' Equal)
    (hf : ∀ a, InStep L p (f a) (f' a) S) : InStep L p (m >>= f) (m' >>= f') S := by
  refine h.bind fun q hq a b hab => ?_
  obtain rfl : b = a := hab
  exact (hf b).later hq

theorem seq {m m' : Lower PUnit} {f : PUnit → Lower γ} {f' : PUnit → Lower δ}
    (h : InStep L p m m' Done) (hf : InStep L p (f ⟨⟩) (f' ⟨⟩) S) : InStep L p (m >>= f) (m' >>= f') S :=
  h.bind fun _ hq _ _ _ => hf.later hq

protected theorem get : Steady L p get fun q c c' => c.Alike L q c' :=
  fun q _ _ c' hc => ⟨c', c', rfl, q, .refl q, hc, hc⟩

protected theorem modify {f f' : Context → Context}
    (h : ∀ q, p.Grows q → ∀ c c', c.Alike L q c' → (f c).Alike L q (f' c')) :
    InStep L p (modify f) (modify f') Done :=
  fun q hq c c' hc => ⟨⟨⟩, f' c', rfl, q, .refl q, h q hq c c' hc, trivial⟩

protected theorem modifyGet {f : Context → α × Context} {f' : Context → β × Context}
    (h : ∀ q, p.Grows q → ∀ c c', c.Alike L q c' →
      ∃ q', q.Grows q' ∧ (f c).2.Alike L q' (f' c').2 ∧ R q' (f c).1 (f' c').1) :
    InStep L p (modifyGet f) (modifyGet f') R :=
  fun q hq c c' hc => ⟨(f' c').1, (f' c').2, rfl, h q hq c c' hc⟩

protected theorem ofExcept {x : Except Error α} {y : Except Error β} {R : α → β → Prop}
    (h : Except.Follows L.Strict R x y) :
    InStep L p (Lower.ofExcept x) (Lower.ofExcept y) fun _ => R := by
  intro q _ c c' hc
  cases x with
  | ok a =>
    obtain ⟨b, rfl, hab⟩ := h
    exact ⟨b, c', rfl, q, .refl q, hc, hab⟩
  | error e =>
    intro hs
    rw [h hs]
    exact ⟨c', rfl⟩

protected theorem lookup {f f' : IdTable → Except Error α} {R : Pairing → α → α → Prop}
    (h : ∀ q, p.Grows q → ∀ t t' : IdTable, t.Alike L q.types q.constants t' →
      Except.Follows L.Strict (R q) (f t) (f' t')) :
    InStep L p (Lower.lookup f) (Lower.lookup f') R := by
  intro q hq c c' hc
  have hstep := h q hq c.ids c'.ids hc.ids
  rw [Lower.lookup_apply, Lower.lookup_apply]
  cases hx : f c.ids with
  | ok a =>
    rw [hx] at hstep
    obtain ⟨b, hy, hab⟩ := hstep
    rw [hy]
    exact ⟨b, c', rfl, q, .refl q, hc, hab⟩
  | error e =>
    rw [hx] at hstep
    intro hs
    rw [hstep hs]
    exact ⟨c', rfl⟩

/-! ### Rows of computations -/

protected theorem mapM {l' : List β} {Q : α → β → Prop} (hl : List.Forall₂ Q l l') (hS : Stable S)
    (h : ∀ a b, Q a b → InStep L p (f a) (f' b) S) :
    InStep L p (l.mapM f) (l'.mapM f') fun q => List.Forall₂ (S q) := by
  induction hl with
  | nil =>
    rw [mapM_nil, mapM_nil]
    exact .pure fun _ _ => .nil
  | cons hab _ ih =>
    rw [mapM_cons, mapM_cons]
    refine (h _ _ hab).bind fun q₁ hq₁ c d hcd => ?_
    refine (ih.later hq₁).bind fun q₂ hq₂ cs ds hcs => ?_
    exact .pure fun q hq => .cons (hS q₁ q (hq₂.trans hq) c d hcd) (hcs.imp fun _ _ => hS q₂ q hq _ _)

theorem mapM_mem {f' : α → Lower δ} (hS : Stable S) (h : ∀ a ∈ l, InStep L p (f a) (f' a) S) :
    InStep L p (l.mapM f) (l.mapM f') fun q => List.Forall₂ (S q) := by
  have hl : List.Forall₂ (fun a b => a = b ∧ a ∈ l) l l := List.forall₂_same.mpr fun a ha => ⟨rfl, ha⟩
  refine .mapM hl hS fun a b hab => ?_
  obtain ⟨rfl, ha⟩ := hab
  exact h a ha

theorem mapM_same {f' : α → Lower γ} (h : ∀ a ∈ l, InStep L p (f a) (f' a) Equal) :
    InStep L p (l.mapM f) (l.mapM f') Equal :=
  (mapM_mem (fun _ _ _ _ _ h => h) h).mono fun _ _ _ _ => eq_of_forall₂_eq

theorem mapM_trees {f f' : α → Lower Tree} (h : ∀ a ∈ l, InStep L p (f a) (f' a) fun q => Tree.Alike q.types) :
    InStep L p (l.mapM f) (l.mapM f') fun q => List.Forall₂ (Tree.Alike q.types) :=
  mapM_mem (fun _ _ hq _ _ ht => ht.mono hq.types) h

protected theorem forM {f : α → Lower PUnit} {f' : β → Lower PUnit} {l' : List β} {Q : α → β → Prop}
    (hl : List.Forall₂ Q l l') (h : ∀ a b, Q a b → InStep L p (f a) (f' b) Done) :
    InStep L p (l.forM f) (l'.forM f') Done := by
  induction hl with
  | nil => exact .pure fun _ _ => trivial
  | cons hab _ ih => exact (h _ _ hab).seq ih

theorem forM_same {f f' : α → Lower PUnit} (h : ∀ a, InStep L p (f a) (f' a) Done) :
    InStep L p (l.forM f) (l.forM f') Done := by
  refine .forM (List.forall₂_same.mpr fun _ _ => rfl) fun a b hab => ?_
  obtain rfl : a = b := hab
  exact h a

protected theorem foldlM {f : γ → α → Lower γ} {f' : δ → α → Lower δ} {c : γ} {d : δ}
    (hS : Stable S) (h : ∀ q, p.Grows q → ∀ c d a, S q c d → InStep L q (f c a) (f' d a) S)
    (hcd : S p c d) : InStep L p (l.foldlM f c) (l.foldlM f' d) S := by
  induction l generalizing p c d with
  | nil => exact .pure fun q hq => hS p q hq c d hcd
  | cons a l ih =>
    rw [foldlM_cons, foldlM_cons]
    exact (h p (.refl p) c d a hcd).bind fun q₁ hq₁ c₁ d₁ hcd₁ =>
      ih (fun q hq => h q (hq₁.trans hq)) hcd₁

theorem foldlM_same {f f' : γ → α → Lower γ} {c : γ} (h : ∀ c a, InStep L p (f c a) (f' c a) Equal) :
    InStep L p (l.foldlM f c) (l.foldlM f' c) Equal := by
  refine .foldlM (fun _ _ _ _ _ h => h) (fun q hq c d a hcd => ?_) rfl
  obtain rfl : d = c := hcd
  exact (h d a).later hq

end InStep

end Spirv

end ShaderIR
