import ShaderIR.Proofs.Executes
import ShaderIR.Proofs.Lanes
import ShaderIR.Spirv.Body

/-!
# Arithmetic over registers

An arithmetic instruction finds its operands in registers. If it takes a single operation, its code is
the operation, which leaves in the register of the result what it makes of the operands.
-/

namespace ShaderIR.Spirv

open List Lower

open List (Forall₂)

variable {b : BlockId} {c c' : Context} {s s' : RunState} {id : Id} {n : Nat}

/-! ### Operations -/

/-- What an operation reads of a register, given with its number of lanes: the last lane stands in for
those that it lacks. -/
def fitted (v : Nat × Lanes) : Lanes := (Source.fit 0 v.1).select v.2

/-- Registers hold some lanes. -/
def Hold (s : RunState) (rs : List Register) (ls : List Lanes) : Prop :=
  Forall₂ (fun r l => s.value? r = some l) rs ls

section

variable {rs : List Register} {ns : List Nat} {ls : List Lanes} {op : AluOp} {lanes : Nat}

theorem Emit.alu_eq {spot : Spot} (h : Forall₂ (HasLanes c) rs ns) :
    Emit.alu op rs lanes spot c = Emit.aluWith op (List.zipWith Source.fit rs ns) lanes spot c := by
  have hsources : (rs.mapM fun r => (do return Source.fit r (← Lower.registerLanes r) : Emit Source)) spot c =
      .ok (List.zipWith Source.fit rs ns) c := by
    induction h with
    | nil => rfl
    | @cons r n rs ns hr _ ih =>
      have hfirst : (do return Source.fit r (← Lower.registerLanes r) : Emit Source) spot c =
          .ok (.fit r n) c := (Emit.lift_of_ok hr.registerLanes).trans rfl
      rw [mapM_cons, Emit.bind_of_ok hfirst, Emit.bind_of_ok ih]
      rfl
  exact Emit.bind_of_ok hsources

theorem Hold.select_fit (h : Hold s rs ls) (ns : List Nat) :
    (List.zipWith Source.fit rs ns).map (fun source => source.select (s.lanes source.value)) =
      (ns.zip ls).map fitted := by
  induction h generalizing ns with
  | nil => simp
  | @cons r l rs ls hr _ ih =>
    cases ns with
    | nil => rfl
    | cons n ns =>
      have hl : s.lanes (Source.fit r n).value = l := RunState.lanes_of_value? hr
      rw [zipWith_cons_cons, map_cons, ih, hl]
      rfl

theorem Hold.isSome_fit (h : Hold s rs ls) (ns : List Nat) :
    ∀ source ∈ List.zipWith Source.fit rs ns, (s.value? source.value).isSome := by
  induction h generalizing ns with
  | nil => simp
  | @cons r l rs ls hr _ ih =>
    cases ns with
    | nil => simp
    | cons n ns =>
      rw [zipWith_cons_cons, forall_mem_cons]
      exact ⟨Option.isSome_of_eq_some hr, ih ns⟩

/-- An operation over registers of known widths is put in and carried out. -/
theorem Emit.alu_executes (b : BlockId) (op : AluOp) (lanes : Nat) (h : Forall₂ (HasLanes c) rs ns) :
    ∃ r c', Emit.alu op rs lanes (.append b) c = .ok r c' ∧
      Executes b c c' (fun s => ∃ ls, Hold s rs ls) fun s s' =>
        s'.memory = s.memory ∧ ∀ ls, Hold s rs ls →
          s'.value? r = some (op.eval ((ns.zip ls).map fitted) lanes) := by
  obtain ⟨c', hmade, -, -, hexec⟩ := Emit.aluWith_executes b c op (List.zipWith Source.fit rs ns) lanes
  refine ⟨_, c', (Emit.alu_eq h).trans hmade, hexec.mono ?_ ?_⟩
  · rintro s ⟨ls, hls⟩
    exact hls.isSome_fit ns
  · rintro s s' - - ⟨hmemory, hvalue⟩
    refine ⟨hmemory, fun ls hls => ?_⟩
    rw [hvalue, RunState.result, hls.select_fit]

end

/-! ### Instructions of one operation -/

namespace Code

namespace AluRule

/-- Whether a rule takes one operation. -/
def isSingle : AluRule → Bool
  | .op _ | .any | .all => true
  | .swapped o => o.arity = 2
  | _ => false

/-- What a rule that takes one operation makes of operands, each given with its number of lanes, for a
result of `lanes` lanes. -/
def value? (lanes : Nat) : AluRule → List (Nat × Lanes) → Option Lanes
  | .op o, inputs => some (o.eval (inputs.map fitted) lanes)
  | .swapped o, [p, q] => some (o.eval [fitted q, fitted p] lanes)
  | .any, [p] => some ((AluOp.anyOf p.1).eval [fitted p] 1)
  | .all, [p] => some ((AluOp.allOf p.1).eval [fitted p] 1)
  | _, _ => none

variable {rule : AluRule} {inputs : List (Nat × Lanes)} {k : Nat}

theorem value?_of_length (hsingle : rule.isSingle) (h : inputs.length = rule.arity) :
    ∃ l, rule.value? n inputs = some l := by
  cases rule with
  | op => exact ⟨_, rfl⟩
  | swapped o =>
    have ho : o.arity = 2 := by simpa [isSingle] using hsingle
    obtain ⟨p, q, rfl⟩ := length_eq_two.mp (h.trans ho)
    exact ⟨_, rfl⟩
  | any =>
    obtain ⟨p, rfl⟩ := length_eq_one_iff.mp h
    exact ⟨_, rfl⟩
  | all =>
    obtain ⟨p, rfl⟩ := length_eq_one_iff.mp h
    exact ⟨_, rfl⟩
  | _ => cases hsingle

/-- One lane of what a rule that works lane by lane makes of one lane of each operand. -/
def lane? : AluRule → List Word → Option Word
  | .op o, ws =>
    if o.inputWidth? = none then
      some (o.lane (ws[0]?.getD 0) (ws[1]?.getD 0) (ws[2]?.getD 0))
    else none
  | .swapped o, [a, b] => if o.inputWidth? = none then some (o.lane b a 0) else none
  | _, _ => none

/-- The lane that counts for lane `k` of a result. -/
def laneFor (k : Nat) (v : Nat × Lanes) : Word := if v.1 = 1 then v.2.x else v.2.get k

theorem get_fitted {v : Nat × Lanes} (hn : n ≤ 4) (hk : k < n) (hv : v.1 = 1 ∨ v.1 = n) :
    (fitted v).get k = laneFor k v := by
  obtain ⟨m, l⟩ := v
  unfold fitted laneFor
  by_cases hm : m = 1
  · subst hm
    rw [if_pos rfl, Source.get_select_fit_one (by omega)]
  · obtain rfl : m = n := hv.resolve_left hm
    rw [if_neg hm, Source.get_select_fit hn hk]

theorem get_getD_map_fitted (hn : n ≤ 4) (hk : k < n) (hv : ∀ v ∈ inputs, v.1 = 1 ∨ v.1 = n) (j : Nat) :
    (((inputs.map fitted)[j]?).getD Lanes.zero).get k = ((inputs.map (laneFor k))[j]?).getD 0 := by
  rw [getElem?_map, getElem?_map]
  cases hj : inputs[j]? with
  | none =>
    change Lanes.zero.get k = 0
    exact Quad.get_splat 0 k
  | some v => exact get_fitted hn hk (hv v (mem_of_getElem? hj))

theorem get_value? {l : Lanes} {w : Word} (hn : n ≤ 4) (hk : k < n)
    (hv : ∀ v ∈ inputs, v.1 = 1 ∨ v.1 = n) (hl : rule.value? n inputs = some l)
    (hw : rule.lane? (inputs.map (laneFor k)) = some w) : l.get k = w := by
  unfold lane? at hw
  split at hw
  case h_1 o ws =>
    split at hw
    · rename_i hop
      cases hl
      rw [AluOp.get_eval hop hn hk]
      simp only [get_getD_map_fitted hn hk hv]
      exact Option.some.inj hw
    · cases hw
  case h_2 o a b hws =>
    split at hw
    · rename_i hop
      match inputs, hws with
      | [p, q], hws =>
        cases hl
        cases hws
        rw [AluOp.get_eval hop hn hk, ← Option.some.inj hw, ← get_fitted hn hk (hv p (by simp)),
          ← get_fitted hn hk (hv q (by simp))]
        congr 1
        exact Quad.get_splat 0 k
    · cases hw
  case h_3 => cases hw

end AluRule

variable {rs : List Register} {ns : List Nat} {lanes : Nat} {rule : AluRule}

/-- A reduction whose operation depends on the width of its operand. -/
theorem reduce_executes (b : BlockId) (op : Nat → AluOp) {a : Register} (ha : HasLanes c a n) :
    ∃ r c', (do Emit.alu (op (← Lower.registerLanes a)) [a] 1 : Emit Register) (.append b) c = .ok r c' ∧
      Executes b c c' (fun s => ∃ ls, Hold s [a] ls) fun s s' =>
        s'.memory = s.memory ∧ ∀ l, s.value? a = some l → s'.value? r = some ((op n).eval [fitted (n, l)] 1) := by
  obtain ⟨r, c', hmade, hexec⟩ := Emit.alu_executes b (op n) 1
    (show Forall₂ (HasLanes c) [a] [n] from .cons ha .nil)
  refine ⟨r, c', (Emit.lift_of_ok ha.registerLanes).trans hmade, hexec.mono (fun _ hs => hs) ?_⟩
  rintro s s' - - ⟨hmemory, hvalue⟩
  exact ⟨hmemory, fun l hl => hvalue [l] (.cons hl .nil)⟩

theorem applyRule_executes (b : BlockId) (opcode : Opcode) (lanes : Nat) (hsingle : rule.isSingle)
    (harity : rs.length = rule.arity) (h : Forall₂ (HasLanes c) rs ns) :
    ∃ r c', applyRule opcode lanes rule rs (.append b) c = .ok r c' ∧
      Executes b c c' (fun s => ∃ ls, Hold s rs ls) fun s s' =>
        s'.memory = s.memory ∧ ∀ ls, Hold s rs ls → s'.value? r = rule.value? lanes (ns.zip ls) := by
  cases rule with
  | op o => exact Emit.alu_executes b o lanes h
  | swapped o =>
    have ho : o.arity = 2 := by simpa [AluRule.isSingle] using hsingle
    obtain ⟨p, q, rfl⟩ := length_eq_two.mp (harity.trans ho)
    obtain _ | ⟨hp, _ | ⟨hq, _ | _⟩⟩ := h
    obtain ⟨r, c', hmade, hexec⟩ := Emit.alu_executes b o lanes
      (show Forall₂ (HasLanes c) [q, p] _ from .cons hq (.cons hp .nil))
    refine ⟨r, c', hmade, hexec.mono ?_ ?_⟩
    · rintro s ⟨_, _ | ⟨hk, _ | ⟨hl, _ | _⟩⟩⟩
      exact ⟨_, .cons hl (.cons hk .nil)⟩
    · rintro s s' - - ⟨hmemory, hvalue⟩
      refine ⟨hmemory, ?_⟩
      rintro _ (_ | ⟨hk, _ | ⟨hl, _ | _⟩⟩)
      exact hvalue _ (.cons hl (.cons hk .nil))
  | any =>
    obtain ⟨a, rfl⟩ := length_eq_one_iff.mp harity
    obtain _ | ⟨ha, _ | _⟩ := h
    obtain ⟨r, c', hmade, hexec⟩ := reduce_executes b AluOp.anyOf ha
    refine ⟨r, c', hmade, hexec.mono (fun _ hs => hs) ?_⟩
    rintro s s' - - ⟨hmemory, hvalue⟩
    refine ⟨hmemory, ?_⟩
    rintro _ (_ | ⟨hl, _ | _⟩)
    exact hvalue _ hl
  | all =>
    obtain ⟨a, rfl⟩ := length_eq_one_iff.mp harity
    obtain _ | ⟨ha, _ | _⟩ := h
    obtain ⟨r, c', hmade, hexec⟩ := reduce_executes b AluOp.allOf ha
    refine ⟨r, c', hmade, hexec.mono (fun _ hs => hs) ?_⟩
    rintro s s' - - ⟨hmemory, hvalue⟩
    refine ⟨hmemory, ?_⟩
    rintro _ (_ | ⟨hl, _ | _⟩)
    exact hvalue _ hl
  | _ => cases hsingle

/-- An instruction that computes a scalar or vector of `lanes` lanes from others and gives `id` its
meaning. The code up to `c` has the operands in registers. -/
structure Operates (b : BlockId) (c₀ c : Context) (i : RawInstruction) (ty : TypeId) (id : Id) (lanes : Nat)
    (rs : List Register) (ns : List Nat) : Prop where
  type : ∃ type v, i.operand 0 = .ok type ∧ c₀.ids.typeValue type = .ok v ∧ ty = v.ty
  result : i.operand 1 = .ok id
  shape : ∃ s, c₀.module.types.shape? ty = some s ∧ s.lanes? = some lanes
  operands : (i.operandsFrom 2).mapM Emit.registerOf (.append b) c₀ = .ok rs c
  widths : Forall₂ (HasLanes c) rs ns
  fresh : ∃ slot, c.ids.slots[id.toNat]? = some slot ∧ slot.value = none

namespace Operates

variable {c₀ : Context} {i : RawInstruction} {ty : TypeId}

theorem lanes_le (h : Operates b c₀ c i ty id lanes rs ns) : lanes ≤ 4 := by
  obtain ⟨shape, -, hlanes⟩ := h.shape
  cases shape with
  | scalar =>
    cases hlanes
    decide
  | vector size =>
    cases hlanes
    cases size <;> decide
  | _ => cases hlanes

/-- The code of an instruction that takes one operation runs to its end and leaves in the register of
the result what the rule makes of the operands. -/
theorem run (h : Operates b c₀ c i ty id lanes rs ns) (hb : b < c.function.blocks.size)
    (hsingle : rule.isSingle) (harity : rs.length = rule.arity) :
    ∃ c' key r, arithmetic rule i (.append b) c₀ = .ok () c' ∧ c'.ids.get id = .ok (.tree (.leaf key ty r)) ∧
      ∀ s ls, c'.fresh ≤ s.registers.size → Hold s rs ls →
        ∃ s' l, runSince c c' b s = .ok none s' ∧ s'.memory = s.memory ∧ s'.value? r = some l ∧
          rule.value? lanes (ns.zip ls) = some l := by
  obtain ⟨shape, hshape, hlanes⟩ := h.shape
  obtain ⟨r, c₁, hr, hexec⟩ := applyRule_executes b i.op lanes hsingle harity h.widths
  obtain ⟨slot, hslot, hvalue⟩ := h.fresh
  obtain ⟨is, hinserts⟩ := hexec.inserts
  rw [← hinserts.ids] at hslot
  obtain ⟨ids, hdefine⟩ : ∃ ids, c₁.ids.define id (.tree (.leaf c₁.nextKey ty r)) = .ok ids :=
    ⟨_, IdTable.define_eq_ok.mpr ⟨slot, hslot, hvalue, rfl⟩⟩
  refine ⟨{ c₁ with ids, nextKey := c₁.nextKey + 1 }, c₁.nextKey, r, ?_, IdTable.get_of_define hdefine, ?_⟩
  · rw [arithmetic, Emit.lift_of_ok (typeOperand_eq_ok.mpr ⟨h.type, rfl⟩),
      Emit.lift_of_ok (operand_eq_ok.mpr ⟨h.result, rfl⟩),
      Emit.lift_of_ok (lanes_of_shape? hshape hlanes), Emit.bind_of_ok h.operands,
      if_neg (by simp [harity])]
    refine (Emit.bind_of_ok hr).trans ?_
    exact (EStateM.bind_of_ok rfl).trans (define_eq_ok.mpr ⟨ids, hdefine, rfl⟩)
  · intro s ls hsize hls
    obtain ⟨s', hrun, ⟨hmemory, hvalue⟩, -⟩ := hexec.run hb hsize ⟨ls, hls⟩
    have hcount : (ns.zip ls).length = rule.arity := by
      rw [length_zip, ← h.widths.length_eq, ← hls.length_eq, Nat.min_self, harity]
    obtain ⟨l, hl⟩ := AluRule.value?_of_length (n := lanes) hsingle hcount
    exact ⟨s', l, hrun, hmemory, (hvalue ls hls).trans hl, hl⟩

end Operates

end Code

theorem Body.instruction_of_rule {i : RawInstruction} {rule : Code.AluRule} (before : Option Id)
    (h : Code.AluRule.ofOpcode? i.op = some rule) : Body.instruction before i = Code.arithmetic rule i := by
  unfold Body.instruction
  split
  case h_31 => rw [h]
  all_goals
    rename_i hi
    rw [hi] at h
    cases h

end ShaderIR.Spirv
