import ShaderIR.Proofs.Access
import ShaderIR.Proofs.Equations

/-!
# Computations that make arithmetic

Making arithmetic at the end of a block does not fail where the registers it reads exist, and what it
makes runs to its end where they are defined. What a computation has made is told by the
instructions of its registers, so it stays true while further code is made.
-/

namespace ShaderIR.Spirv

open EStateM List

variable {α β : Type} {b : BlockId} {is js : List Instruction} {c c' c'' : Context}

/-- Between two states, instructions were put at the end of a block, and types and keys were
added. -/
structure Appends (b : BlockId) (is : List Instruction) (c c' : Context) : Prop where
  instructions : c'.function.instructions = c.function.instructions ++ is.toArray
  code : c'.function.code b = c.function.code b ++ List.range' c.function.instructions.size is.length
  blocks : c'.function.blocks.size = c.function.blocks.size
  types : c.module.types.Extends c'.module.types
  nextKey : c.nextKey ≤ c'.nextKey

namespace Appends

protected theorem refl (b : BlockId) (c : Context) : Appends b [] c c where
  instructions := by simp
  code := by simp
  blocks := rfl
  types := .refl _
  nextKey := Nat.le_refl _

section

variable (h : Appends b is c c')
include h

theorem size : c'.function.instructions.size = c.function.instructions.size + is.length := by
  simp [h.instructions]

protected theorem trans (h' : Appends b js c' c'') : Appends b (is ++ js) c c'' where
  instructions := by simp [h'.instructions, h.instructions]
  code := by
    rw [h'.code, h.code, h.size, append_assoc, List.range'_append_1, length_append]
  blocks := h'.blocks.trans h.blocks
  types := h.types.trans h'.types
  nextKey := Nat.le_trans h.nextKey h'.nextKey

theorem getElem? {r : Register} {i : Instruction}
    (hi : c.function.instructions[r]? = some i) : c'.function.instructions[r]? = some i := by
  obtain ⟨hlt, -⟩ := Array.getElem?_eq_some_iff.mp hi
  rw [h.instructions, Array.getElem?_append_left hlt, hi]

theorem getElem?_new (k : Nat) :
    c'.function.instructions[c.fresh + k]? = is[k]? := by
  rw [h.instructions, Array.getElem?_append_right (Nat.le_add_right ..), Nat.add_sub_cancel_left]
  simp

end

theorem remember (b : BlockId) (c : Context) (transposes : List (Nat × Tree)) :
    Appends b [] c { c with transposes } := { Appends.refl b c with }

theorem instruction (hb : b < c.function.blocks.size) (i : Instruction) :
    Appends b [i] c (c.withFunction (c.function.insert (.append b) i).2) where
  instructions := by simp [Context.withFunction]
  code := by
    simp only [Context.withFunction, Function.code_insert_append hb]
    rfl
  blocks := by simp [Context.withFunction]
  types := .refl _
  nextKey := Nat.le_refl _

variable (h : Appends b is c c')
include h

theorem runSince_eq (his : ∀ i ∈ is, i.IsPlain) :
    runSince c c' b = performAll c.fresh is >>= fun _ => pure none := by
  rw [runSince, h.code, drop_left]
  apply Function.execInstructions_range' his
  intro k i hi
  rw [h.getElem?_new, hi]

theorem runSince_eq_ok (his : ∀ i ∈ is, i.IsPlain) {s s' : RunState} :
    runSince c c' b s = .ok none s' ↔ performAll c.function.instructions.size is s = .ok () s' := by
  rw [h.runSince_eq his]
  constructor
  · intro hrun
    obtain ⟨_, t, hperform, hpure⟩ := bind_eq_ok.mp hrun
    obtain ⟨-, rfl⟩ := pure_eq_ok.mp hpure
    exact hperform
  · intro hperform
    exact bind_of_ok hperform

theorem runSince_trans (h' : Appends b js c' c'')
    (his : ∀ i ∈ is, i.IsPlain) (hjs : ∀ i ∈ js, i.IsPlain) {s s' s'' : RunState}
    (hs : runSince c c' b s = .ok none s') (hs' : runSince c' c'' b s' = .ok none s'') :
    runSince c c'' b s = .ok none s'' := by
  have hplain : ∀ i ∈ is ++ js, i.IsPlain := by
    grind
  rw [runSince_eq_ok h his] at hs
  rw [runSince_eq_ok h' hjs, h.size] at hs'
  rw [runSince_eq_ok (h.trans h') hplain, performAll_append hs, hs']

theorem solves {s s' : RunState}
    (hrun : performAll c.function.instructions.size is s = .ok () s')
    (hsize : c'.function.instructions.size ≤ s.registers.size) :
    s'.Solves c'.function c.function.instructions.size := by
  intro q op sources n hq hi hsources
  obtain ⟨k, rfl⟩ := Nat.exists_eq_add_of_le hq
  rw [h.getElem?_new] at hi
  rw [h.size] at hsize
  exact performAll_result hrun hsize hi hsources

end Appends

/-! ### Computations that succeed -/

/-- A computation succeeds, puts arithmetic over registers with `P` at the end of a block, and
remembers no transpose. -/
def Computes (b : BlockId) (P : Nat → Prop) (c : Context) (m : Emit α) (Q : Context → α → Prop) : Prop :=
  ∃ a c' is, m (.append b) c = .ok a c' ∧ Appends b is c c' ∧ c'.transposes = c.transposes ∧
    Arithmetic P c.function.instructions.size is ∧ Q c' a

namespace Computes

variable {P : Nat → Prop} {m : Emit α} {f : α → Emit β} {Q : Context → α → Prop} {R : Context → β → Prop}

protected theorem pure {a : α} (h : Q c a) : Computes b P c (pure a) Q := ⟨a, c, [], rfl, .refl b c, rfl, .nil, h⟩

protected theorem bind (h : Computes b P c m Q)
    (hf : ∀ a c' is, Appends b is c c' → Q c' a → Computes b P c' (f a) R) :
    Computes b P c (m >>= f) R := by
  obtain ⟨a, c₁, is, hm, happends, hknown, harith, hQ⟩ := h
  obtain ⟨a', c₂, js, hfa, happends', hknown', harith', hR⟩ := hf a c₁ is happends hQ
  refine ⟨a', c₂, is ++ js, (Emit.bind_of_ok hm).trans hfa, happends.trans happends',
    hknown'.trans hknown, ?_, hR⟩
  apply harith.append
  rwa [← happends.size]

theorem look {m : Lower α} {a : α} (h : m c = .ok a c) (hf : Computes b P c (f a) R) :
    Computes b P c ((liftM m : Emit α) >>= f) R := by
  obtain ⟨a', c', is, hfa, hrest⟩ := hf
  exact ⟨a', c', is, (Emit.lift_of_ok h).trans hfa, hrest⟩

protected theorem lift {m : Lower α} {a : α} (h : m c = .ok a c') (happends : Appends b [] c c')
    (hknown : c'.transposes = c.transposes) (hQ : Q c' a) : Computes b P c (liftM m : Emit α) Q :=
  ⟨a, c', [], h, happends, hknown, .nil, hQ⟩

theorem mono {R : Context → α → Prop} (h : Computes b P c m Q)
    (hQ : ∀ a c' is, Appends b is c c' → Q c' a → R c' a) : Computes b P c m R := by
  obtain ⟨a, c', is, hm, happends, hknown, harith, ha⟩ := h
  exact ⟨a, c', is, hm, happends, hknown, harith, hQ a c' is happends ha⟩

/-- What a computation makes of each element of a list stays true while the others are dealt
with. -/
theorem mapM {f : α → Emit β} {S : Context → α → β → Prop} {l : List α}
    (hS : ∀ c₁ c₂ is x y, Appends b is c₁ c₂ → S c₁ x y → S c₂ x y)
    (hf : ∀ x ∈ l, ∀ c' is, Appends b is c c' → Computes b P c' (f x) fun c'' y => S c'' x y) :
    Computes b P c (l.mapM f) fun c' ys => List.Forall₂ (S c') l ys := by
  induction l generalizing c with
  | nil => exact .pure .nil
  | cons x l ih =>
    rw [mapM_cons]
    apply (hf x (mem_cons_self ..) c [] (.refl b c)).bind
    intro y c₁ is h₁ hy
    apply (ih fun x' hx' c' js h => hf x' (mem_cons_of_mem x hx') c' _ (h₁.trans h)).bind
    intro ys c₂ js h₂ hys
    exact .pure (.cons (hS c₁ c₂ js x y h₂ hy) hys)

end Computes

/-! ### Registers of operations -/

/-- A register, numbered from `base` on, of an operation over registers before it. -/
structure IsResult (base : Nat) (c : Context) (q : Nat) (op : AluOp) (sources : List Source)
    (n : Nat) : Prop where
  instruction : c.function.instructions[q]? = some (.alu op sources n)
  base_le : base ≤ q
  earlier : ∀ source ∈ sources, source.value < q

namespace IsResult

variable {base q n : Nat} {op : AluOp} {sources : List Source} (h : IsResult base c q op sources n)
include h

theorem mono (happends : Appends b is c c') :
    IsResult base c' q op sources n := { h with instruction := happends.getElem? h.instruction }

theorem value {s : RunState} (hs : s.Solves c.function base) :
    s.value? q = some (s.result op sources n) :=
  (hs q op sources n h.base_le h.instruction h.earlier).1

theorem isSome_source {s : RunState}
    (hs : s.Solves c.function base) {source : Source} (hsource : source ∈ sources) :
    (s.value? source.value).isSome :=
  (hs q op sources n h.base_le h.instruction h.earlier).2 source hsource

end IsResult

namespace HasLanes

variable {q : Register} {n : Nat}

theorem mono (h : HasLanes c q n) (happends : Appends b is c c') : HasLanes c' q n := by
  obtain ⟨i, hi, hn⟩ := h
  exact ⟨i, happends.getElem? hi, hn⟩

theorem of_isResult {base q m : Nat} {op : AluOp} {sources : List Source}
    (h : IsResult base c q op sources m) : HasLanes c q m := ⟨_, h.instruction, rfl⟩

theorem registerLanes (h : HasLanes c q n) : Lower.registerLanes q c = .ok n c := by
  obtain ⟨i, hi, rfl⟩ := h
  exact Lower.registerLanes_of_getElem? hi

end HasLanes

/-- Where code is made: registers from `base` on are numbered by it, and new ones may be read. -/
structure Site (b : BlockId) (base : Nat) (P : Nat → Prop) (c : Context) : Prop where
  block : b < c.function.blocks.size
  base_le : base ≤ c.function.instructions.size
  readable : ∀ q, c.function.instructions.size ≤ q → P q

namespace Site

variable {base : Nat} {P : Nat → Prop} (h : Site b base P c)
include h

theorem mono (happends : Appends b is c c') : Site b base P c' where
  block := happends.blocks ▸ h.block
  base_le := by
    have hsize := happends.size
    have hbase := h.base_le
    omega
  readable := by
    intro q hq
    have hsize := happends.size
    exact h.readable q (by omega)

theorem aluWith {op : AluOp} {sources : List Source} {n : Nat}
    (hsources : ∀ source ∈ sources, source.value < c.fresh ∧ P source.value) :
    Computes b P c (Emit.aluWith op sources n) fun c' q =>
      IsResult base c' q op sources n ∧ P q := by
  refine ⟨_, _, [.alu op sources n], Emit.instruction_eq _, .instruction h.block _, rfl, ?_, ?_, ?_⟩
  · intro k i hi
    grind
  · refine ⟨by simp [Context.withFunction], h.base_le, ?_⟩
    intro source hsource
    exact (hsources source hsource).1
  · exact h.readable _ (Nat.le_refl _)

/-- One lane of each of several registers that exist is gathered. -/
theorem gather {registers : List Register} (w : Word)
    (hregisters : ∀ r ∈ registers, r < c.fresh ∧ P r) :
    Computes b P c (Emit.gather (registers.map (·, w))) fun c' q =>
      IsResult base c' q (.ofLanes registers.length) (registers.map (.lane · w.toUInt8))
        registers.length ∧ P q := by
  unfold Emit.gather
  rw [length_map, map_map]
  apply h.aluWith
  intro source hsource
  obtain ⟨r, hr, rfl⟩ := mem_map.mp hsource
  exact hregisters r hr

theorem alu {op : AluOp} {p q m n l : Nat} (hp : HasLanes c p m)
    (hq : HasLanes c q n) (hP : P p ∧ P q) :
    Computes b P c (Emit.alu op [p, q] l) fun c' r =>
      IsResult base c' r op [.fit p m, .fit q n] l ∧ P r := by
  obtain ⟨i, hi, rfl⟩ := hp
  obtain ⟨j, hj, rfl⟩ := hq
  obtain ⟨hpsize, -⟩ := Array.getElem?_eq_some_iff.mp hi
  obtain ⟨hqsize, -⟩ := Array.getElem?_eq_some_iff.mp hj
  have hsources : ∀ source ∈ [Source.fit p i.lanes, .fit q j.lanes],
      source.value < c.fresh ∧ P source.value := by
    intro source hsource
    rcases mem_pair.mp hsource with rfl | rfl
    · exact ⟨hpsize, hP.1⟩
    · exact ⟨hqsize, hP.2⟩
  obtain ⟨r, c', is, hr, hrest⟩ := Site.aluWith h hsources
  exact ⟨r, c', is, (Emit.alu_pair hi hj).trans hr, hrest⟩

end Site

end ShaderIR.Spirv
