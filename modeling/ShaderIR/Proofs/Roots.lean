import ShaderIR.Proofs.Growth
import ShaderIR.Proofs.Quiet
import ShaderIR.Proofs.Tables

/-!
# Where pointers lead

A pointer starts at a variable and goes on by indices. Pointers are made for variables and from other
pointers, and code takes its places from pointers or from the variable for the result, so every place
starts at a variable that is there. The same goes for the other things that a function names beside its
own code: its local variables, and the blocks from which its phis take their values.
-/

namespace ShaderIR

open EStateM List

theorem Place.child_root (p : Place) (shape : Shape) (index : Word) : (p.child shape index).root = p.root := by
  cases shape <;> rfl

/-- The blocks from which a phi takes its values. -/
def Instruction.sourceBlocks : Instruction → List BlockId
  | .phi sources _ => sources.map (·.pred)
  | _ => []

/-- What a function names beside its own code is there, where `vars` are the variables of its module. -/
structure Function.Rooted (vars : Array Variable) (f : Function) : Prop where
  /-- There is a block to start with. -/
  first : 0 < f.blocks.size
  places : ∀ i ∈ f.instructions, ∀ p ∈ i.places, p.root < vars.size
  sources : ∀ i ∈ f.instructions, ∀ b ∈ i.sourceBlocks, b < f.blocks.size
  locals : ∀ v ∈ f.locals, ∃ var, vars[v]? = some var ∧ var.mode = .functionLocal
  returnVar : ∀ v ∈ f.returnVar, v ∈ f.locals

variable {i : Instruction}

namespace Function.Rooted

variable {vars : Array Variable} {f g : Function}

section

variable (h : f.Rooted vars)
include h

/-- A function stays rooted when it gains blocks and instructions that name what is there. -/
theorem of_instructions (hnew : ∀ i ∈ g.instructions, i ∈ f.instructions ∨
      (∀ p ∈ i.places, p.root < vars.size) ∧ ∀ b ∈ i.sourceBlocks, b < g.blocks.size)
    (hsize : f.blocks.size ≤ g.blocks.size) (hlocals : g.locals = f.locals)
    (hreturn : g.returnVar = f.returnVar) : g.Rooted vars where
  first := Nat.lt_of_lt_of_le h.first hsize
  places := fun i hi => (hnew i hi).elim (h.places i) (·.1)
  sources := fun i hi => (hnew i hi).elim (fun hi b hb => Nat.lt_of_lt_of_le (h.sources i hi b hb) hsize) (·.2)
  locals := hlocals ▸ h.locals
  returnVar := by
    rw [hlocals, hreturn]
    exact h.returnVar

theorem insert (spot : Spot) (hplaces : ∀ p ∈ i.places, p.root < vars.size)
    (hsources : i.sourceBlocks = []) : (f.insert spot i).2.Rooted vars := by
  refine h.of_instructions (fun j hj => ?_) (Nat.le_of_eq insert_size.symm) rfl rfl
  rw [insert_instructions] at hj
  grind

theorem insertAll (spot : Spot) {is : List Instruction}
    (his : ∀ i ∈ is, i.places = [] ∧ i.sourceBlocks = []) : (f.insertAll spot is).Rooted vars := by
  induction is generalizing f with
  | nil => exact h
  | cons i is ih =>
    obtain ⟨hplaces, hsources⟩ := his i (mem_cons_self ..)
    exact ih (h.insert spot (by simp [hplaces]) hsources) fun j hj => his j (mem_cons_of_mem _ hj)

theorem addBlock : f.addBlock.2.Rooted vars :=
  h.of_instructions (fun _ => .inl) (by simp [Function.addBlock]) rfl rfl

theorem push (var : Variable) : f.Rooted (vars.push var) where
  first := h.first
  places := fun i hi p hp => by
    rw [Array.size_push]
    exact Nat.lt_succ_of_lt (h.places i hi p hp)
  sources := h.sources
  locals := fun v hv => by
    obtain ⟨old, hold, hmode⟩ := h.locals v hv
    grind
  returnVar := h.returnVar

theorem own {var : Variable} (hmode : var.mode = .functionLocal) :
    Function.Rooted (vars.push var) { f with locals := f.locals ++ [vars.size] } where
  first := h.first
  places := (h.push var).places
  sources := h.sources
  locals := fun v hv => by
    rcases mem_append.mp hv with hv | hv
    · exact (h.push var).locals v hv
    simp_all
  returnVar := fun v hv => mem_append_left _ (h.returnVar v hv)

end

theorem blank (vars : Array Variable) (name : Option String) (result : Option TypeId) :
    Function.Rooted vars { name, result } where
  first := Nat.zero_lt_one
  places := by simp
  sources := by simp
  locals := by simp
  returnVar := by simp

end Function.Rooted

namespace Spirv

/-- The state after a variable was added, which `owned` lists with the function under construction. -/
def Context.withVariable (c : Context) (var : Variable) (owned : Bool) : Context := { c with
    module := { c.module with vars := c.module.vars.push var }
    function :=
      if owned then { c.function with locals := c.function.locals ++ [c.module.vars.size] }
      else c.function }

theorem Declaration.addVariable_none (m : Module) (var : Variable) :
    m.addVariable var none = (m.vars.size, { m with vars := m.vars.push var }) := by
  unfold Module.addVariable
  cases var.mode <;> rfl

theorem Lower.addVariable_eq_ok {var : Variable} {owned : Bool} {v : VariableId} {c c' : Context} :
    addVariable var owned c = .ok v c' ↔ v = c.module.vars.size ∧ c' = c.withVariable var owned := by
  unfold addVariable
  rw [modifyGet_eq_ok, Declaration.addVariable_none, Prod.mk.injEq]
  exact ⟨fun ⟨hv, hc⟩ => ⟨hv.symm, hc.symm⟩, fun ⟨hv, hc⟩ => ⟨hv.symm, hc.symm⟩⟩

namespace Context

/-- A pointer may start at a variable: the variable is there, or a pointer starts at it, or it is the
variable for the result. -/
def HasRoot (c : Context) (v : VariableId) : Prop :=
  v < c.module.vars.size ∨ (∃ id p, c.ids.get id = .ok (.pointer p) ∧ p.place.root = v) ∨
    c.function.returnVar = some v

/-- An instruction only names places that start where a pointer may start, and no blocks. -/
def Admits (c : Context) (i : Instruction) : Prop := (∀ p ∈ i.places, c.HasRoot p.root) ∧ i.sourceBlocks = []

section Admits

variable {c : Context} {p : Place}

theorem admits_of_nil (hplaces : i.places = []) (hsources : i.sourceBlocks = []) :
    c.Admits i := ⟨by simp [hplaces], hsources⟩

theorem admits_of_place (hplaces : i.places = [p]) (hsources : i.sourceBlocks = [])
    (hp : c.HasRoot p.root) : c.Admits i := ⟨by simpa [hplaces] using hp, hsources⟩

theorem admits_copyVar {q : Place} (hp : c.HasRoot p.root) (hq : c.HasRoot q.root) :
    c.Admits (.copyVar p q) := ⟨by simp [Instruction.places, hp, hq], rfl⟩

theorem hasRoot_of_lookup {id : Id} {pointer : Pointer} {c' : Context}
    (h : Lower.lookup (·.pointer id) c = .ok pointer c') : c.HasRoot pointer.place.root := by
  obtain ⟨hpointer, -⟩ := Lower.lookup_eq_ok.mp h
  exact .inr (.inl ⟨id, pointer, IdTable.pointer_eq_ok.mp hpointer, rfl⟩)

end Admits

/-- Pointers start at variables that are there, and everything that functions and variables name is
there. -/
structure Rooted (c : Context) : Prop where
  pointers : ∀ id p, c.ids.get id = .ok (.pointer p) → p.place.root < c.module.vars.size
  constants : ∀ id k, c.ids.get id = .ok (.constant k) → k < c.module.constants.size
  initials : ∀ var ∈ c.module.vars, ∀ k ∈ var.init, k < c.module.constants.size
  functions : ∀ f ∈ c.module.functions, f.Rooted c.module.vars
  function : c.function.Rooted c.module.vars

namespace Rooted

variable {c : Context} (h : c.Rooted)
include h

theorem lt_of_hasRoot {v : VariableId} (hv : c.HasRoot v) : v < c.module.vars.size := by
  rcases hv with hlt | ⟨id, p, hget, rfl⟩ | hreturn
  · exact hlt
  · exact h.pointers id p hget
  · obtain ⟨var, hvar, -⟩ := h.function.locals v (h.function.returnVar v hreturn)
    exact (Array.getElem?_eq_some_iff.mp hvar).1

/-- An id may come to stand for a pointer that starts at a variable, or for a constant that is there. -/
theorem define {id : Id} {v : Value} {ids : IdTable} (hdefine : c.ids.define id v = .ok ids)
    (hpointer : ∀ p, v = .pointer p → p.place.root < c.module.vars.size)
    (hconstant : ∀ k, v = .constant k → k < c.module.constants.size) :
    Rooted { c with ids } where
  pointers := fun other p hget => by
    rcases IdTable.eq_or_get_of_define hdefine hget with ⟨-, heq⟩ | hget
    · exact hpointer p heq.symm
    · exact h.pointers other p hget
  constants := fun other k hget => by
    rcases IdTable.eq_or_get_of_define hdefine hget with ⟨-, heq⟩ | hget
    · exact hconstant k heq.symm
    · exact h.constants other k hget
  initials := h.initials
  functions := h.functions
  function := h.function

theorem withFunction {f : Function} (hf : f.Rooted c.module.vars) :
    (c.withFunction f).Rooted := ⟨h.pointers, h.constants, h.initials, h.functions, hf⟩

theorem insert (spot : Spot) (hi : c.Admits i) :
    (c.withFunction (c.function.insert spot i).2).Rooted :=
  h.withFunction (h.function.insert spot (fun p hp => h.lt_of_hasRoot (hi.1 p hp)) hi.2)

theorem withVariable {var : Variable} {owned : Bool}
    (hinit : ∀ k ∈ var.init, k < c.module.constants.size)
    (howned : owned = true → var.mode = .functionLocal) : (c.withVariable var owned).Rooted where
  pointers := fun id p hget => by
    change _ < (c.module.vars.push var).size
    rw [Array.size_push]
    exact Nat.lt_succ_of_lt (h.pointers id p hget)
  constants := h.constants
  initials := fun var' hvar' => by
    rcases Array.mem_push.mp hvar' with hvar' | rfl
    · exact h.initials var' hvar'
    · exact hinit
  functions := fun f hf => (h.functions f hf).push var
  function := by
    cases owned with
    | true => exact h.function.own (howned rfl)
    | false => exact h.function.push var

end Rooted

end Context

/-! ### Initial values -/

namespace Declaration

instance (id : Option Id) : Lower.Peeks (id.mapM fun c => Lower.lookup (·.constant c)) := by
  cases id with
  | none => exact inferInstanceAs (Lower.Peeks (pure none))
  | some c =>
    rw [Option.mapM_some, ← bind_pure_comp]
    exact .bind fun _ => inferInstance

theorem mem_of_initializer {id : Option Id} {init : Option ConstantId} {c c' : Context}
    (h : (id.mapM fun c => Lower.lookup (·.constant c)) c = .ok init c') :
    ∀ k ∈ init, ∃ id, c.ids.get id = .ok (.constant k) := by
  cases id with
  | none =>
    obtain ⟨rfl, -⟩ := pure_eq_ok.mp h
    simp
  | some id =>
    rw [Option.mapM_some, ← bind_pure_comp] at h
    obtain ⟨k, d, hk, hpure⟩ := bind_eq_ok.mp h
    obtain ⟨rfl, -⟩ := pure_eq_ok.mp hpure
    rintro k' ⟨⟩
    exact ⟨id, IdTable.get_of_constant (Lower.lookup_eq_ok.mp hk).1⟩

end Declaration

end Spirv

end ShaderIR
