import ShaderIR.Proofs.Success
import ShaderIR.Spirv.Lowering

/-!
# The steps of lowering

When each of the small steps that lowering is made of succeeds, and what it does to the state then.
-/

namespace ShaderIR.Spirv

open EStateM

variable {α β : Type}

namespace Context

/-- The state after an event was reported. -/
def reported (c : Context) (e : Event) : Context := { c with events := e :: c.events }

/-- The register that the next instruction will have. -/
abbrev fresh (c : Context) : Register := c.function.instructions.size

/-- The state with another function under construction. -/
def withFunction (c : Context) (function : Function) : Context := { c with function }

end Context

namespace Lower

variable {c c' : Context}

theorem meaningless_eq_ok {why : Meaningless} {a : α} :
    (meaningless why : Lower α) c = .ok a c' ↔ False := throw_eq_ok

theorem ofExcept_eq_ok {x : Except Error α} {a : α} : ofExcept x c = .ok a c' ↔ x = .ok a ∧ c' = c := by
  cases x with
  | ok b =>
    change EStateM.Result.ok b c = _ ↔ _
    simp [eq_comm]
  | error e =>
    change EStateM.Result.error e c = _ ↔ _
    simp

theorem lookup_eq_ok {f : IdTable → Except Error α} {a : α} :
    lookup f c = .ok a c' ↔ f c.ids = .ok a ∧ c' = c := by
  unfold lookup
  simp only [bind_eq_ok, get_eq_ok, ofExcept_eq_ok]
  simp_all

theorem operand_eq_ok {i : RawInstruction} {index : Nat} {w : Word} :
    operand i index c = .ok w c' ↔ i.operand index = .ok w ∧ c' = c := ofExcept_eq_ok

theorem typeOperand_eq_ok {i : RawInstruction} {index : Nat} {ty : TypeId} : typeOperand i index c = .ok ty c' ↔
      (∃ id v, i.operand index = .ok id ∧ c.ids.typeValue id = .ok v ∧ ty = v.ty) ∧ c' = c := by
  unfold typeOperand typeOf
  simp only [bind_eq_ok, operand_eq_ok, lookup_eq_ok, pure_eq_ok]
  grind

theorem report_eq_ok {e : Event} {u : Unit} : report e c = .ok u c' ↔ c' = c.reported e := modify_eq_ok

theorem define_eq_ok {id : Id} {v : Value} {u : Unit} :
    define id v c = .ok u c' ↔ ∃ ids, c.ids.define id v = .ok ids ∧ c' = { c with ids } := by
  unfold define updateIds
  simp only [bind_eq_ok, lookup_eq_ok, modify_eq_ok]
  simp_all

theorem insertAt_eq_ok {spot : Spot} {i : Instruction} {r : Register} : insertAt spot i c = .ok r c' ↔
      r = c.function.instructions.size ∧ c' = c.withFunction (c.function.insert spot i).2 := by
  unfold insertAt modifyFunction
  simp only [modifyGet_eq_ok, Prod.mk.injEq]
  constructor
  · rintro ⟨rfl, rfl⟩
    exact ⟨rfl, rfl⟩
  · rintro ⟨rfl, rfl⟩
    exact ⟨rfl, rfl⟩

theorem leaf_eq_ok {ty : TypeId} {r : Register} {t : Tree} : leaf ty r c = .ok t c' ↔
      t = .leaf c.nextKey ty r ∧ c' = { c with nextKey := c.nextKey + 1 } := by
  unfold leaf freshKey
  simp only [bind_eq_ok, modifyGet_eq_ok, pure_eq_ok, Prod.mk.injEq]
  grind

theorem node_eq_ok {ty : TypeId} {children : List Tree} {t : Tree} : node ty children c = .ok t c' ↔
      t = .node c.nextKey ty children ∧ c' = { c with nextKey := c.nextKey + 1 } := by
  unfold node freshKey
  simp only [bind_eq_ok, modifyGet_eq_ok, pure_eq_ok, Prod.mk.injEq]
  grind

theorem shape_eq_ok {ty : TypeId} {s : Shape} :
    shape ty c = .ok s c' ↔ s = (c.module.types.shape? ty).getD .void ∧ c' = c := by
  unfold shape
  simp only [bind_eq_ok, get_eq_ok, pure_eq_ok]
  grind

theorem shape_of_shape? {ty : TypeId} {s : Shape} (h : c.module.types.shape? ty = some s) : shape ty c = .ok s c :=
  shape_eq_ok.mpr ⟨by rw [h, Option.getD_some], rfl⟩

theorem lanes_of_shape? {ty : TypeId} {s : Shape} {n : Nat} (h : c.module.types.shape? ty = some s)
    (hn : s.lanes? = some n) : lanes ty c = .ok n c := by
  refine (bind_of_ok (shape_of_shape? h)).trans ?_
  simp only [hn]
  rfl

theorem shape?_of_shape {ty : TypeId} {s : Shape} (h : shape ty c = .ok s c') (hs : s ≠ .void) :
    c.module.types.shape? ty = some s := by
  obtain ⟨rfl, -⟩ := shape_eq_ok.mp h
  cases hty : c.module.types.shape? ty with
  | none => simp [hty] at hs
  | some s => rfl

/-! ### Computations that only look -/

theorem looks_ofExcept (x : Except Error α) : EStateM.Looks (ofExcept x) := fun _ _ _ h => (ofExcept_eq_ok.mp h).2

theorem looks_lookup (f : IdTable → Except Error α) : EStateM.Looks (lookup f) :=
  fun _ _ _ h => (lookup_eq_ok.mp h).2

theorem looks_operand (i : RawInstruction) (index : Nat) : EStateM.Looks (operand i index) := looks_ofExcept _

theorem registerLanes_eq_ok {r : Register} {n : Nat} (h : registerLanes r c = .ok n c') :
    ∃ i, c.function.instructions[r]? = some i ∧ n = i.lanes := by
  obtain ⟨d, d', hd, h'⟩ := bind_eq_ok.mp h
  obtain ⟨hdc, hdc'⟩ := get_eq_ok.mp hd
  rw [hdc, hdc'] at h'
  cases hi : c.function.instructions[r]? with
  | none =>
    simp only [hi] at h'
    exact (throw_eq_ok.mp h').elim
  | some i =>
    simp only [hi] at h'
    exact ⟨i, rfl, (pure_eq_ok.mp h').1.symm⟩

end Lower

end ShaderIR.Spirv
