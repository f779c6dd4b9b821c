import ShaderIR.Proofs.Handlers
import ShaderIR.Proofs.Twins

/-!
# Small steps of two readings

Every small step of lowering leads from states that belong together to such states, with results that
belong together: looking up ids and types, adding constants and variables, building trees and putting
instructions at a spot.
-/

namespace ShaderIR.Spirv

open Lower

variable {α β γ δ : Type} {L : Latitude} {p q : Pairing} {ty ty' : TypeId}

/-! ### States that change in one part -/

namespace Context.Alike

variable {c c' : Context} (h : c.Alike L p c')
include h

theorem withTypes {w : TypeMap} {types types' : Types} (hw : p.types <+: w)
    (htypes : types.Alike L w types') :
    ({ c with module := { c.module with types } } : Context).Alike L { p with types := w, known := types' }
      { c' with module := { c'.module with types := types' } } :=
  { h with
    ids := h.ids.mono hw (Nat.le_refl _)
    types := htypes
    known := rfl
    constants := h.constants.mono fun _ _ hc => hc.mono hw (Nat.le_refl _)
    vars := h.vars.mono fun _ _ hv => ⟨hv.name, hv.ty.mono hw, hv.rest⟩
    made := fun k => (h.made k).mono fun _ _ hf => hf.mono hw
    pendingPhis := h.pendingPhis.imp fun _ _ ht => ⟨ht.1, ht.2.mono hw⟩
    transposes := h.transposes.imp fun _ _ ht => ⟨ht.1, ht.2.mono hw⟩
    function := h.function.mono hw }

theorem withFunction {f f' : Function} (hf : f.Alike L p.types p.marks f') :
    ({ c with function := f } : Context).Alike L p { c' with function := f' } :=
  { h with function := hf }

theorem report_left {e : Event} (he : e.width? = none) :
    ({ c with events := e :: c.events } : Context).Alike L p c' :=
  { h with
    widths := by
      have hwidths := h.widths
      rw [Context.widths] at hwidths ⊢
      simpa [he] using hwidths }

theorem report_right (e : Event) :
    c.Alike L p { c' with events := e :: c'.events } := { h with }

theorem shape (hty : p.types.Maps ty ty') :
    ∃ s s', c.module.types.shape? ty = some s ∧ c'.module.types.shape? ty' = some s' ∧
      s.Alike L p.types s' := h.types.shape? hty

end Context.Alike

namespace Lower

/-! ### Operands and ids -/

theorem inStep_report {e : Event} (he : e.width? = none) (e' : Event) : InStep L p (report e) (report e') Done :=
  .modify fun _ _ _ _ hc => (hc.report_left he).report_right e'

theorem inStep_ofExcept (x : Except Error α) : Steady L p (ofExcept x) := .ofExcept (by
    cases x with
    | ok a => exact .ok rfl
    | error e => exact .error fun _ => rfl)

theorem inStep_operand (i : RawInstruction) (index : Nat) : Steady L p (operand i index) := inStep_ofExcept _

theorem inStep_updateIds {f f' : IdTable → Except Error IdTable}
    (h : ∀ q, p.Grows q → ∀ t t' : IdTable, t.Alike L q.types q.constants t' →
      Except.Follows L.Strict (IdTable.Alike L q.types q.constants) (f t) (f' t')) :
    InStep L p (updateIds f) (updateIds f') Done := by
  refine (InStep.lookup (R := fun q => IdTable.Alike L q.types q.constants) h).bind fun q _ ids ids' hids => ?_
  exact .modify fun q' hq' c c' hc => { hc with ids := hids.mono hq'.types hq'.constants }

theorem inStep_define (id : Id) {v v' : Value} (hv : v.Alike p.types p.constants v') :
    InStep L p (define id v) (define id v') Done :=
  inStep_updateIds fun _ hq _ _ ht => ht.define id (hv.mono hq.types hq.constants)

theorem inStep_typeOf (id : Id) : Steady L p (typeOf id) fun q => q.types.Maps := by
  refine (InStep.lookup (R := fun q v v' => q.types.Maps v.ty v'.ty ∧ v'.isPointer = v.isPointer)
    fun q _ t t' ht => ht.typeValue id).bind fun q _ v v' hv => ?_
  exact .pure fun q' hq' => hv.1.mono hq'.types

theorem inStep_typeOperand (i : RawInstruction) (index : Nat) :
    Steady L p (typeOperand i index) fun q => q.types.Maps :=
  (inStep_operand i index).bind_same fun id => inStep_typeOf id

/-! ### Types -/

section

variable (hty : p.types.Maps ty ty')
include hty

theorem inStep_knownShape : InStep L p (shape ty) (shape ty') fun q s s' =>
      s.Alike L q.types s' ∧ q.known.shape? ty' = some s' ∧ ∀ k ∈ s'.mentions, k < ty' := by
  refine InStep.get.bind fun q hq c c' hc => ?_
  obtain ⟨s, s', hs, hs', hss⟩ := hc.shape (hty.mono hq.types)
  rw [hs, hs']
  obtain ⟨t', ht', rfl⟩ := Option.map_eq_some_iff.mp hs'
  have hearlier := hc.types.earlier ty' t' ht'
  rw [hc.known] at hs'
  exact .pure fun q' hq' => ⟨hss.mono hq'.types, hq'.known.shape? hs', hearlier⟩

theorem inStep_shape : InStep L p (shape ty) (shape ty') fun q => Shape.Alike L q.types :=
  (inStep_knownShape hty).mono fun _ _ _ _ h => h.1

theorem inStep_lanes : InStep L p (lanes ty) (lanes ty') Equal := by
  refine (inStep_shape hty).bind fun q hq s s' hs => ?_
  rw [hs.lanes?_eq]
  cases s.lanes? with
  | some n => exact .pure fun _ _ => rfl
  | none => exact .meaningless_type (hty.mono hq.types) .notRegister

end

theorem inStep_insertType {t t' : Ty} (ht : t.Alike L p.types t') :
    InStep L p (insertType t) (insertType t') fun q => q.types.Maps := by
  refine .modifyGet fun q hq c c' hc => ?_
  obtain ⟨w, hw, htypes, hmaps⟩ := hc.types.insert (ht.mono hq.types)
  have hext : q.known.Extends (c'.module.types.insert t').2 := by
    rw [← hc.known]
    exact Types.extends_insert _ _
  exact ⟨{ q with types := w, known := (c'.module.types.insert t').2 }, ⟨hw, hext, Nat.le_refl _, rfl, rfl⟩,
    hc.withTypes hw htypes, hmaps⟩

/-- Types that are looked up in the tables of both readings. -/
theorem inStep_keepTypes (find find' : Types → Option (TypeId × Types)) {why why' : Meaningless}
    (P : Types → TypeId → Prop)
    (h : ∀ q, p.Grows q → ∀ types types' : Types, types.Alike L q.types types' →
      Option.Rel (Types.Alike.Found L q.types) (find types) (find' types') ∧
      ∀ ty' found, find' types' = some (ty', found) → types'.Extends found ∧ P found ty')
    (hwhy : ∀ q, p.Grows q → ∀ c c' : Context, c.Alike L q c' → L.Strict → why' = why) :
    InStep L p (do keepTypes (find (← get).module.types) why)
      (do keepTypes (find' (← get).module.types) why')
      fun q ty ty' => q.types.Maps ty ty' ∧ P q.known ty' := by
  intro q hq c c' hc
  obtain ⟨hrel, hfind⟩ := h q hq _ _ hc.types
  have hget (f : Context → Lower TypeId) (d : Context) : (get >>= f) d = f d d := rfl
  rw [hget, hget]
  cases hfound : find c.module.types with
  | none =>
    rw [hfound] at hrel
    intro hs
    rw [hrel.eq_none, hwhy q hq c c' hc hs]
    exact ⟨c', rfl⟩
  | some found =>
    rw [hfound] at hrel
    obtain ⟨⟨ty', types'⟩, hfound', w, hw, htypes, hmaps⟩ := hrel.exists_of_some
    obtain ⟨hext, hP⟩ := hfind ty' types' hfound'
    rw [hc.known] at hext
    rw [hfound']
    exact ⟨ty', _, rfl, { q with types := w, known := types' }, ⟨hw, hext, Nat.le_refl _, rfl, rfl⟩,
      hc.withTypes hw htypes, hmaps, hP⟩

theorem inStep_earlierChild (hty : p.types.Maps ty ty') (index : Nat) :
    InStep L p (childType ty index) (childType ty' index) fun q child child' =>
      q.types.Maps child child' ∧
      (child' < ty' ∨ ∃ s, q.known.shape? child' = some s ∧ s.isRegister = true) := by
  refine inStep_keepTypes (fun types => types.child? ty index) (fun types => types.child? ty' index)
    (fun types child' => child' < ty' ∨ ∃ s, types.shape? child' = some s ∧ s.isRegister = true)
    (fun q hq types types' htypes => ?_) fun q hq c c' hc hs => ?_
  · refine ⟨htypes.child? (hty.mono hq.types) index, fun child' found hchild => ?_⟩
    exact ⟨Types.extends_of_child? hchild, htypes.earlier_of_child? hchild⟩
  · rw [(hc.types.exact (L.rename_of_strict hs)).2 ty ty' (hty.mono hq.types)]

theorem inStep_childType (hty : p.types.Maps ty ty') (index : Nat) :
    InStep L p (childType ty index) (childType ty' index) fun q => q.types.Maps :=
  (inStep_earlierChild hty index).mono fun _ _ _ _ h => h.1

/-- Depths to which both readings may go into a type: in the second, a type that was there before
lies less deep. -/
structure Suffices (L : Latitude) (p : Pairing) (ty' : TypeId) (depth depth' : Nat) : Prop where
  same : L.Strict → depth' = depth
  pos : 1 ≤ depth'
  deep : ty' + 2 ≤ depth' ∨ ∃ s, p.known.shape? ty' = some s ∧ s.isRegister = true

theorem inStep_typeDepth : Steady L p typeDepth fun q depth depth' =>
    ∀ ty ty', q.types.Maps ty ty' → Suffices L q ty' depth depth' := by
  intro q _ c c' hc
  refine ⟨_, c', rfl, q, .refl q, hc, fun ty ty' hty => ?_⟩
  refine ⟨fun hs => ?_, Nat.le_add_left .., .inl ?_⟩
  · rw [(hc.types.exact (L.rename_of_strict hs)).1]
  · exact Nat.add_le_add_right (hc.types.lt_of_maps hty).2 1

/-- One level less suffices for the parts of a value that no register holds. -/
theorem Suffices.child {ty' child' : TypeId} {depth depth' : Nat} {s' : Shape}
    (h : Suffices L p ty' (depth + 1) (depth' + 1)) (hpq : p.Grows q)
    (hs' : q.known.shape? ty' = some s') (hs : s'.isRegister = false) {r : Pairing}
    (hchild : child' < ty' ∨ ∃ s, r.known.shape? child' = some s ∧ s.isRegister = true) :
    Suffices L r child' depth depth' := by
  have hdeep : ty' + 2 ≤ depth' + 1 := by
    refine h.deep.resolve_right ?_
    rintro ⟨s, hshape, hregister⟩
    rw [hpq.known.shape? hshape] at hs'
    cases hs'
    rw [hs] at hregister
    cases hregister
  refine ⟨fun hstrict => Nat.succ.inj (h.same hstrict), ?_, hchild.imp_left fun hlt => ?_⟩
  · grind
  grind

theorem Suffices.not_zero {ty' : TypeId} {depth' : Nat} (h : Suffices L p ty' 0 depth') :
    ¬ L.Strict := fun hs => by
  have hpos := h.pos
  rw [h.same hs] at hpos
  exact Nat.not_succ_le_zero 0 hpos

/-! ### Constants and variables -/

theorem inStep_addConstant {k k' : Constant} (h : k.Alike L p.types p.constants k') :
    InStep L p (addConstant k) (addConstant k') fun q n n' => n' = n ∧ n < q.constants := by
  refine .modifyGet fun q hq c c' hc => ?_
  have hgrow : q.Grows { q with constants := q.constants + 1 } :=
    ⟨List.prefix_rfl, .refl _, Nat.le_succ _, rfl, rfl⟩
  refine ⟨{ q with constants := q.constants + 1 }, hgrow, ?_, hc.constants.size_eq, ?_⟩
  · have hk := h.mono (hq.trans hgrow).types (hq.trans hgrow).constants
    have hconstants := (hc.constants.mono fun _ _ hc => hc.mono hgrow.types hgrow.constants).push hk
    exact { hc with
      ids := hc.ids.mono hgrow.types hgrow.constants
      constants := hconstants
      count := by simp [hc.count] }
  · exact Nat.lt_succ_of_le (Nat.le_of_eq hc.count)

theorem inStep_constant {id : ConstantId} (hid : id < p.constants) :
    Steady L p (constant id) fun q => Constant.Alike L q.types q.constants := by
  refine InStep.get.bind fun q hq c c' hc => ?_
  have hlt : id < c.module.constants.size := by
    rw [hc.count]
    exact Nat.lt_of_lt_of_le hid hq.constants
  have hrel := hc.constants id
  rw [Array.getElem?_eq_getElem hlt] at hrel ⊢
  obtain ⟨k', hk', hkk⟩ := hrel.exists_of_some
  rw [hk']
  exact .pure fun q' hq' => hkk.mono hq'.types hq'.constants

theorem inStep_addVariable {v v' : Variable} (h : v.Alike L p.types v') (owned : Bool) :
    InStep L p (addVariable v owned) (addVariable v' owned) Equal := by
  unfold addVariable
  simp only [Declaration.addVariable_none]
  refine .modifyGet fun q hq c c' hc => ⟨q, .refl q, ?_, hc.vars.size_eq⟩
  have hvars := hc.vars.push (x := v) (y := v') ⟨h.name, h.ty.mono hq.types, h.rest⟩
  cases owned with
  | false => exact { hc with vars := hvars }
  | true =>
    have hlocals : c'.function.locals ++ [c'.module.vars.size] = c.function.locals ++ [c.module.vars.size] := by
      rw [hc.function.locals, hc.vars.size_eq]
    exact { hc with vars := hvars, function := { hc.function with locals := hlocals } }

/-! ### Trees -/

theorem inStep_freshKey : Steady L p freshKey :=
  .modifyGet fun q _ c c' hc => ⟨q, .refl q, { hc with nextKey := by rw [hc.nextKey] }, hc.nextKey⟩

theorem inStep_leaf (hty : p.types.Maps ty ty') (r : Register) :
    InStep L p (leaf ty r) (leaf ty' r) fun q => Tree.Alike q.types :=
  inStep_freshKey.bind_same fun _ => .pure fun _ hq => .leaf (hty.mono hq.types)

theorem inStep_node (hty : p.types.Maps ty ty') {ts ts' : List Tree}
    (hts : List.Forall₂ (Tree.Alike p.types) ts ts') :
    InStep L p (node ty ts) (node ty' ts') fun q => Tree.Alike q.types :=
  inStep_freshKey.bind_same fun _ => .pure fun _ hq => .node (hty.mono hq.types) (Tree.Alike.monoList hq.types hts)

theorem inStep_register {t t' : Tree} (ht : t.Alike p.types t') :
    InStep L p (register t) (register t') Equal := by
  unfold register
  rw [ht.register?_eq]
  cases t.register? with
  | some r => exact .pure fun _ _ => rfl
  | none => exact .meaningless fun _ => rfl

theorem inStep_defineTree (id : Id) {t t' : Tree} (ht : t.Alike p.types t') :
    InStep L p (define id (.tree t)) (define id (.tree t')) Done := inStep_define id (.tree ht)

theorem inStep_defineRegister (id : Id) (hty : p.types.Maps ty ty')
    (r : Register) : InStep L p (defineRegister id ty r) (defineRegister id ty' r) Done :=
  (inStep_leaf hty r).bind fun _ _ _ _ ht => inStep_defineTree id ht

/-! ### The function under construction -/

theorem inStep_addBlock : Steady L p addBlock := by
  refine .modifyGet fun q _ c c' hc => ⟨q, .refl q, hc.withFunction hc.function.addBlock, ?_⟩
  change c'.function.blocks.size = c.function.blocks.size
  rw [hc.function.blocks]

theorem inStep_insertAt (spot : Spot) (i : Instruction) : Steady L p (insertAt spot i) :=
  .modifyGet fun q _ _ _ hc =>
    ⟨q, .refl q, hc.withFunction (hc.function.insert spot i), hc.function.size⟩

theorem inStep_registerLanes (r : Register) : Steady L p (registerLanes r) := by
  refine InStep.get.bind fun q hq c c' hc => ?_
  have hlanes := hc.function.lanes_eq r
  cases hi : c.function.instructions[r]? with
  | none =>
    rw [hi, Option.map_none, Option.map_eq_none_iff] at hlanes
    rw [hlanes]
    exact .throw fun _ => rfl
  | some i =>
    rw [hi, Option.map_some, Option.map_eq_some_iff] at hlanes
    obtain ⟨i', hi', hlanes⟩ := hlanes
    rw [hi']
    exact .pure fun _ _ => hlanes

end Lower

/-! ### Computations at a spot -/

/-- From states that belong together, a second computation follows a first at the same spot. -/
def EmitInStep (L : Latitude) (p : Pairing) (m : Emit α) (m' : Emit β) (R : Pairing → α → β → Prop) : Prop :=
  ∀ spot, InStep L p (m spot) (m' spot) R

/-- A computation that keeps in step with itself at every spot. -/
abbrev EmitSteady (L : Latitude) (p : Pairing) (m : Emit α) (R : Pairing → α → α → Prop := Equal) :
    Prop := EmitInStep L p m m R

namespace EmitInStep

variable {R : Pairing → α → β → Prop} {S : Pairing → γ → δ → Prop} {m : Emit α} {m' : Emit β}

protected theorem lift {n : Lower α} {n' : Lower β} (h : InStep L p n n' R) :
    EmitInStep L p (liftM n : Emit α) (liftM n' : Emit β) R := fun _ => h

protected theorem pure {a : α} {b : β} (h : ∀ q, p.Grows q → R q a b) :
    EmitInStep L p (pure a) (pure b) R := fun _ => .pure h

protected theorem throw {e : Error} : EmitInStep L p (throw e) (throw e) R := fun _ => .throw fun _ => rfl

protected theorem meaningless {why : Meaningless} :
    EmitInStep L p (liftM (Lower.meaningless why : Lower α) : Emit α)
      (liftM (Lower.meaningless why : Lower β) : Emit β) R := .lift (.meaningless fun _ => rfl)

variable {f : α → Emit γ} {l : List α}

protected theorem bind {f' : β → Emit δ} (h : EmitInStep L p m m' R)
    (hf : ∀ q, p.Grows q → ∀ a b, R q a b → EmitInStep L q (f a) (f' b) S) :
    EmitInStep L p (m >>= f) (m' >>= f') S :=
  fun spot => (h spot).bind fun q hq a b hab => hf q hq a b hab spot

theorem bind_same {m m' : Emit α} {f' : α → Emit δ} (h : EmitInStep L p m m' Equal)
    (hf : ∀ a, EmitInStep L p (f a) (f' a) S) : EmitInStep L p (m >>= f) (m' >>= f') S :=
  fun spot => (h spot).bind_same fun a => hf a spot

theorem lift_bind {n : Lower α} {n' : Lower β} {f' : β → Emit δ} (h : InStep L p n n' R)
    (hf : ∀ q, p.Grows q → ∀ a b, R q a b → EmitInStep L q (f a) (f' b) S) :
    EmitInStep L p (liftM n >>= f) (liftM n' >>= f') S :=
  (EmitInStep.lift h).bind hf

theorem lift_same {n n' : Lower α} {f' : α → Emit δ} (h : InStep L p n n' Equal)
    (hf : ∀ a, EmitInStep L p (f a) (f' a) S) : EmitInStep L p (liftM n >>= f) (liftM n' >>= f') S :=
  (EmitInStep.lift h).bind_same hf

theorem seq {m m' : Emit PUnit} {f : PUnit → Emit γ} {f' : PUnit → Emit δ}
    (h : EmitInStep L p m m' Done) (hf : EmitInStep L p (f ⟨⟩) (f' ⟨⟩) S) :
    EmitInStep L p (m >>= f) (m' >>= f') S :=
  fun spot => (h spot).seq (hf spot)

protected theorem get : EmitSteady L p get fun q c c' => c.Alike L q c' := fun _ => .get

protected theorem modify {f f' : Context → Context}
    (h : ∀ q, p.Grows q → ∀ c c', c.Alike L q c' → (f c).Alike L q (f' c')) :
    EmitInStep L p (modify f) (modify f') Done := fun _ => .modify h

theorem mapM_same {f' : α → Emit γ} (h : ∀ a ∈ l, EmitInStep L p (f a) (f' a) Equal) :
    EmitInStep L p (l.mapM f) (l.mapM f') Equal := fun spot => by
  rw [Emit.mapM_at, Emit.mapM_at]
  exact .mapM_same fun a ha => h a ha spot

theorem mapM_trees {f f' : α → Emit Tree}
    (h : ∀ a ∈ l, EmitInStep L p (f a) (f' a) fun q => Tree.Alike q.types) :
    EmitInStep L p (l.mapM f) (l.mapM f') fun q => List.Forall₂ (Tree.Alike q.types) := fun spot => by
  rw [Emit.mapM_at, Emit.mapM_at]
  exact .mapM_trees fun a ha => h a ha spot

protected theorem foldlM {f : γ → α → Emit γ} {f' : δ → α → Emit δ} {c : γ} {d : δ} (hS : Stable S)
    (h : ∀ q, p.Grows q → ∀ c d a, S q c d → EmitInStep L q (f c a) (f' d a) S) (hcd : S p c d) :
    EmitInStep L p (l.foldlM f c) (l.foldlM f' d) S := fun spot => by
  rw [Emit.foldlM_at, Emit.foldlM_at]
  exact .foldlM hS (fun q hq c d a hcd => h q hq c d a hcd spot) hcd

theorem foldlM_same {f f' : γ → α → Emit γ} {c : γ}
    (h : ∀ c a, EmitInStep L p (f c a) (f' c a) Equal) :
    EmitInStep L p (l.foldlM f c) (l.foldlM f' c) Equal := fun spot => by
  rw [Emit.foldlM_at, Emit.foldlM_at]
  exact .foldlM_same fun c a => h c a spot

theorem forM_same {f f' : α → Emit PUnit} (h : ∀ a, EmitInStep L p (f a) (f' a) Done) :
    EmitInStep L p (l.forM f) (l.forM f') Done := fun spot => by
  rw [Emit.forM_at, Emit.forM_at]
  exact .forM_same fun a => h a spot

end EmitInStep

namespace Emit

/-! ### Operations -/

theorem inStep_instruction {i : Instruction} :
    EmitSteady L p (instruction i) := fun spot => inStep_insertAt spot i

theorem inStep_aluWith {op : AluOp} {sources : List Source} {lanes : Nat} :
    EmitSteady L p (aluWith op sources lanes) := inStep_instruction

theorem inStep_alu {op : AluOp} {registers : List Register} {lanes : Nat} :
    EmitSteady L p (alu op registers lanes) := by
  refine EmitInStep.bind_same (.mapM_same fun r _ => ?_) fun sources => inStep_aluWith
  exact .lift_same (inStep_registerLanes r) fun _ => .pure fun _ _ => rfl

theorem inStep_loadConst {bits : List Word} : EmitSteady L p (loadConst bits) := inStep_instruction

theorem inStep_lane {r : Register} {i : Word} : EmitSteady L p (lane r i) := inStep_aluWith

theorem inStep_gather {lanes : List (Register × Word)} : EmitSteady L p (gather lanes) := inStep_aluWith

/-! ### Trees -/

theorem inStep_leafOf (hty : p.types.Maps ty ty') {x x' : Emit Register} (hx : EmitInStep L p x x' Equal) :
    EmitInStep L p (do Lower.leaf ty (← x)) (do Lower.leaf ty' (← x'))
      fun q => Tree.Alike q.types :=
  hx.bind_same fun r => .lift (inStep_leaf hty r)

/-- A composite whose parts both readings make in turn. -/
theorem inStep_nodeOf (hty : p.types.Maps ty ty') {l : List α} {f f' : α → Emit Tree}
    (h : ∀ a ∈ l, EmitInStep L p (f a) (f' a) fun q => Tree.Alike q.types) :
    EmitInStep L p (do Lower.node ty (← l.mapM f)) (do Lower.node ty' (← l.mapM f'))
      fun q => Tree.Alike q.types :=
  EmitInStep.bind (.mapM_trees h) fun _ hq _ _ hts => .lift (inStep_node (hty.mono hq.types) hts)

theorem inStep_treeWithin {make : Nat → Emit Register} (hmake : ∀ (q : Pairing) n, EmitSteady L q (make n))
    (hty : p.types.Maps ty ty') {depth depth' : Nat} (hdepth : Lower.Suffices L p ty' depth depth') :
    EmitInStep L p (treeWithin make depth ty) (treeWithin make depth' ty') fun q => Tree.Alike q.types := by
  induction depth generalizing p ty ty' depth' with
  | zero => exact fun _ _ _ _ _ _ hs => absurd hs hdepth.not_zero
  | succ depth ih =>
    obtain ⟨depth', rfl⟩ := Nat.exists_eq_add_of_le' hdepth.pos
    rw [treeWithin, treeWithin]
    refine .lift_bind (inStep_knownShape hty) fun q hq s s' h => ?_
    obtain ⟨hs, hknown, -⟩ := h
    rw [hs.lanes?_eq, hs.childCount?_eq]
    have hty' := hty.mono hq.types
    cases hlanes : s.lanes? with
    | some lanes => exact inStep_leafOf hty' (hmake q lanes)
    | none =>
      dsimp only
      cases s.childCount? with
      | none => exact .lift (.meaningless_type hty' .notValueType)
      | some count =>
        have hregister : s'.isRegister = false := by
          rw [hs.isRegister_eq, Shape.isRegister, hlanes]
          rfl
        refine inStep_nodeOf hty' fun i _ => ?_
        refine .lift_bind (inStep_earlierChild hty' i) fun _ _ child child' h => ?_
        obtain ⟨hmaps, hchild⟩ := h
        exact ih hmaps (hdepth.child hq hknown hregister hchild)

theorem inStep_treeOfType {make : Nat → Emit Register}
    (hmake : ∀ (q : Pairing) n, EmitSteady L q (make n)) (hty : p.types.Maps ty ty') :
    EmitInStep L p (treeOfType make ty) (treeOfType make ty') fun q => Tree.Alike q.types :=
  EmitInStep.bind (.lift inStep_typeDepth) fun _ hq _ _ hdepth =>
    inStep_treeWithin hmake (hty.mono hq.types) (hdepth _ _ (hty.mono hq.types))

theorem inStep_constantTreeWithin (depth : Nat) {k : ConstantId} (hk : k < p.constants) :
    EmitSteady L p (constantTreeWithin depth k) fun q => Tree.Alike q.types := by
  induction depth generalizing p k with
  | zero => exact .throw
  | succ depth ih =>
    rw [constantTreeWithin]
    refine .lift_bind (inStep_constant hk) fun q hq K K' hK => ?_
    rw [hK.value]
    cases hvalue : K.value with
    | flat bits =>
      refine .lift_bind (inStep_shape hK.ty) fun q₁ hq₁ s s' hs => ?_
      have hty := hK.ty.mono hq₁.types
      cases hs using Shape.Alike.kinds with
      | matrix =>
        refine .lift_bind (inStep_childType hty 0) fun q₂ hq₂ ty ty' hcolumn => ?_
        exact inStep_nodeOf (hty.mono hq₂.types) fun column _ => inStep_leafOf hcolumn inStep_loadConst
      | _ => exact inStep_leafOf hty inStep_loadConst
    | composite parts => exact inStep_nodeOf hK.ty fun k hk => ih (hK.parts parts hvalue k hk)

theorem inStep_constantTree {k : ConstantId} (hk : k < p.constants) :
    EmitSteady L p (constantTree k) fun q => Tree.Alike q.types := by
  refine EmitInStep.get.bind fun q hq c c' hc => ?_
  rw [hc.constants.size_eq]
  exact inStep_constantTreeWithin _ (Nat.lt_of_lt_of_le hk hq.constants)

theorem inStep_treeOf (id : Id) : EmitSteady L p (treeOf id) fun q => Tree.Alike q.types := by
  refine .lift_bind (.lookup fun q _ t t' ht => ht.get id) fun q hq v v' hv => ?_
  cases hv with
  | tree ht => exact .pure fun _ hq' => ht.mono hq'.types
  | constant hk => exact inStep_constantTree hk
  | _ => exact .throw

theorem inStep_registerOf (id : Id) : EmitSteady L p (registerOf id) :=
  (inStep_treeOf id).bind fun _ _ _ _ ht => .lift (inStep_register ht)

theorem inStep_treeOperand (i : RawInstruction) (index : Nat) :
    EmitSteady L p (treeOperand i index) fun q => Tree.Alike q.types :=
  .lift_same (inStep_operand i index) fun id => inStep_treeOf id

theorem inStep_registerOperand (i : RawInstruction) (index : Nat) : EmitSteady L p (registerOperand i index) :=
  .lift_same (inStep_operand i index) fun id => inStep_registerOf id

end Emit

end ShaderIR.Spirv
