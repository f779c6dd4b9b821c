import ShaderIR.Proofs.Emission
import ShaderIR.Spirv.Preamble

/-!
# What declarations do

The preamble takes few kinds of steps: it reports, records names and decorations, gives ids their
meaning, and adds types, constants, variables and entry points. No step touches functions or blocks,
and a constant is only ever put together from constants before it.
-/

namespace ShaderIR.Spirv

open EStateM List Lower

open EStateM (Along Looks)

/-- One step of the preamble. -/
inductive DeclareStep : Context → Context → Prop
  | report {c} (e : Event) : DeclareStep c (c.reported e)
  /-- Records something about an id besides its meaning. -/
  | record {c} {ids : IdTable} (h : ∀ id v, ids.get id = .ok v ↔ c.ids.get id = .ok v) :
      DeclareStep c { c with ids }
  | define {c} {id : Id} {v : Value} {ids : IdTable} (h : c.ids.define id v = .ok ids)
      (hv : ∀ k, v = .constant k → k < c.module.constants.size)
      (hdeclares : ∀ n, v ≠ .function n ∧ v ≠ .block n)
      (hpointer : ∀ p, v = .pointer p → p.place.root < c.module.vars.size) :
      DeclareStep c { c with ids }
  | types {c} {types : Types} (h : c.module.types.Extends types) :
      DeclareStep c { c with module := { c.module with types } }
  /-- Adds a constant over constants that are already there. -/
  | constant {c} {k : Constant}
      (h : ∀ children, k.value = .composite children → ∀ child ∈ children,
        child < c.module.constants.size ∨ ∃ id, c.ids.get id = .ok (.constant child))
      (hshape : (∃ s, c.module.types.shape? k.ty = some s) ∨ ∃ w, k.value = .flat [w]) :
      DeclareStep c { c with module := { c.module with constants := c.module.constants.push k } }
  /-- Adds a variable whose initial value is a constant that an id stands for. -/
  | declare {c} {var : Variable} (hinit : ∀ k ∈ var.init, ∃ id, c.ids.get id = .ok (.constant k)) :
      DeclareStep c (c.withVariable var false)
  | entryPoint {c} (stage : Option Stage) (entryPoints : List PendingEntryPoint) :
      DeclareStep c { c with stage, entryPoints }

/-- Any number of steps of the preamble. -/
def Declares : Context → Context → Prop := Relation.ReflTransGen DeclareStep

instance : IsPreorder Context Declares := inferInstanceAs (IsPreorder _ (Relation.ReflTransGen _))

variable {c c' : Context}

theorem Declares.single (h : DeclareStep c c') : Declares c c' := Relation.ReflTransGen.single h

theorem DeclareStep.precedes (h : DeclareStep c c') : c.module.Precedes c'.module := by
  cases h with
  | types htypes => exact ⟨htypes, fun _ _ hk => hk⟩
  | constant =>
    refine ⟨.refl _, fun k constant hk => ?_⟩
    rwa [Array.getElem?_push_lt (Array.getElem?_eq_some_iff.mp hk).1, ← Array.getElem?_eq_getElem]
  | _ => exact ⟨.refl _, fun _ _ hk => hk⟩

theorem Declares.precedes (h : Declares c c') : c.module.Precedes c'.module := by
  induction h with
  | refl => exact .refl _
  | tail _ hstep ih => exact ih.trans hstep.precedes

namespace IdTable

variable {ids ids' : IdTable} {id : Id}

theorem get_update {f : IdSlot → IdSlot} (h : ids.update id f = .ok ids')
    (hf : ∀ s, (f s).value = s.value) (other : Id) (v : Value) :
    ids'.get other = .ok v ↔ ids.get other = .ok v := by
  unfold update at h
  cases hs : ids.slots[id.toNat]? with
  | none => simp [hs] at h
  | some s =>
    obtain ⟨hlt, -⟩ := Array.getElem?_eq_some_iff.mp hs
    simp only [hs, Except.ok.injEq] at h
    subst h
    rw [get_eq_ok, get_eq_ok]
    grind

end IdTable

namespace Lower

theorem along_report (e : Event) : Along Declares (report e) := .modify fun _ => .single (.report e)

theorem updateIds_eq_ok {f : IdTable → Except Error IdTable} {u : Unit} :
    updateIds f c = .ok u c' ↔ ∃ ids, f c.ids = .ok ids ∧ c' = { c with ids } := by
  unfold updateIds
  simp only [bind_eq_ok, lookup_eq_ok, modify_eq_ok]
  simp_all

theorem along_updateIds {f : IdTable → Except Error IdTable}
    (hf : ∀ ids ids', f ids = .ok ids' → ∀ id v, ids'.get id = .ok v ↔ ids.get id = .ok v) :
    Along Declares (updateIds f) := by
  intro c u c' h
  obtain ⟨ids, hids, rfl⟩ := updateIds_eq_ok.mp h
  exact .single (.record (hf _ _ hids))

theorem along_setName (id : Id) (name : String) : Along Declares (updateIds (·.setName id name)) :=
  along_updateIds fun _ _ h => IdTable.get_update h fun _ => rfl

theorem along_setMemberName (id : Id) (member : Word) (name : String) :
    Along Declares (updateIds (·.setMemberName id member name)) :=
  along_updateIds fun _ _ h => IdTable.get_update h fun _ => rfl

theorem along_decorate (id : Id) (d : Decoration) : Along Declares (updateIds (·.decorate id d)) :=
  along_updateIds fun _ _ h => IdTable.get_update h fun _ => rfl

theorem along_define {id : Id} {v : Value}
    (hv : (∀ n, v ≠ .constant n ∧ v ≠ .function n ∧ v ≠ .block n) ∧ ∀ p, v ≠ .pointer p) :
    Along Declares (define id v) := by
  intro c u c' h
  obtain ⟨ids, hids, rfl⟩ := define_eq_ok.mp h
  exact .single (.define hids (fun k hk => ((hv.1 k).1 hk).elim) (fun n => (hv.1 n).2)
    fun p hp => (hv.2 p hp).elim)

theorem along_insertType (t : Ty) : Along Declares (insertType t) :=
  .modifyGet fun _ => .single (.types (Types.extends_insert _ _))

end Lower

/-! ### Annotations and types -/

namespace Declaration

theorem along_recordDecoration (i : RawInstruction) (target : Id) (member : Option Word)
    (index : Nat) : Along Declares (recordDecoration i target member index) := by
  refine .bind along_peek fun number => ?_
  cases DecorationKind.ofNumber? number.toNat with
  | none => exact along_report _
  | some kind => exact along_decorate _ _

theorem along_annotate (i : RawInstruction) : Along Declares ( annotation i) := by
  have hlookup (group : Id) : Along Declares (Lower.lookup (·.checkGroup group)) := .of_looks (looks_lookup _)
  unfold annotation
  split
  · exact .bind along_peek fun target => along_recordDecoration ..
  · exact .bind along_peek fun target => .bind along_peek fun member => along_recordDecoration ..
  · exact .bind along_peek fun id => along_define (by simp)
  · exact .bind along_peek fun group => (hlookup group).bind fun _ =>
      .forM (fun target => along_decorate _ _) _
  · exact .bind along_peek fun group => (hlookup group).bind fun _ =>
      .bind (.of_looks (looks_ofExcept _)) fun targets =>
        .forM (fun p => along_decorate _ _) _
  · exact .throw _

instance (i : RawInstruction) (index : Nat) : Peeks (vectorSize i index) := by
  refine .bind fun w => ?_
  cases VectorSize.ofLanes? w.toNat with
  | none => exact .throw rfl
  | some size => exact inferInstance

instance (id : Id) : Peeks (scalarOf id) := by
  refine .bind fun ty => .bind fun shape => ?_
  cases shape <;> exact inferInstance

instance (i : RawInstruction) (index : Nat) : Peeks (arrayLength i index) := by
  refine .bind fun id => .bind fun k => .bind fun constant => ?_
  cases constant.bits?.bind List.head? with
  | none => exact .throw rfl
  | some length => exact inferInstance

instance (i : RawInstruction) : Peeks (checkWidth i) := by
  refine .bind fun width => ?_
  split
  · exact .throw rfl
  · exact inferInstance

theorem along_decorateMember (id : Id) (index : Word) (m : Member) (d : ResolvedDecoration) :
    Along Declares (decorateMember id index m d) := by
  unfold decorateMember
  split
  all_goals first
    | exact .pure _
    | exact (along_report _).bind fun _ => .pure _

theorem along_structMembers (id : Id) (types : List Id) : Along Declares (structMembers id types) := by
  refine .bind (.mapM (fun p => ?_) _) fun members => ?_
  · exact .bind along_peek fun ty => .bind .get fun _ => .pure _
  · refine .bind along_peek fun ds => .foldlM (fun members d => ?_) _ _
    unfold decorateMembers
    split
    · exact .pure _
    · split
      · exact .throw _
      · exact (along_decorateMember ..).bind fun _ => .pure _

instance (i : RawInstruction) : Peeks (imageShape i) := by
  refine .bind fun id => .bind fun scalar => .bind fun w => ?_
  dsimp only
  split
  · refine .bind fun ms => ?_
    split
    · split
      · exact .throw rfl
      · exact .bind fun _ => .bind fun _ => inferInstance
    · exact .throw rfl
  · exact .throw rfl

theorem along_typeShape (i : RawInstruction) (id : Id) : Along Declares (typeShape i id) := by
  unfold typeShape
  split
  · exact .pure _
  · exact .pure _
  · exact .bind along_peek fun _ => .bind along_peek fun _ => .pure _
  · exact .bind along_peek fun _ => .pure _
  · exact .bind along_peek fun id => .bind along_peek fun _ =>
      .bind along_peek fun _ => .pure _
  · refine .bind along_peek fun ty => .bind along_peek fun shape => ?_
    split
    · exact .bind along_peek fun _ => .pure _
    · exact .throw _
  · exact .bind along_peek fun _ => .bind along_peek fun _ => .pure _
  · exact (along_structMembers ..).bind fun _ => .pure _
  · exact .bind along_peek fun _ =>
      .bind (.mapM (fun id => along_peek) _) fun _ => .pure _
  · exact along_peek
  · exact .throw _

theorem along_type (i : RawInstruction) : Along Declares (type i) := by
  refine .bind along_peek fun id => ?_
  split
  · refine .bind along_peek fun storage => ?_
    dsimp only
    split
    · exact .throw _
    · exact .bind along_peek fun _ => along_define (by simp)
  · exact .bind along_peek fun image => .bind along_peek fun _ =>
      along_define (by simp)
  · exact (along_typeShape i id).bind fun _ => .bind .get fun _ =>
      (along_insertType _).bind fun _ => along_define (by simp)

/-! ### Constants -/

instance (k : ConstantId) : Peeks (partWords k) := by
  refine .bind fun constant => ?_
  cases constant.bits? with
  | none => exact .throw rfl
  | some bits => exact inferInstance

/-- A composite value is put together from constants that ids stand for, as its type says. -/
theorem compositeValue_eq_ok {ty : TypeId} {constituents : List Id} {value : ConstantValue}
    (h : compositeValue ty constituents c = .ok value c') :
    c' = c ∧ ∃ s children, c.module.types.shape? ty = some s ∧ s.childCount?.or s.lanes? = some children.length ∧
      Forall₂ (fun id k => c.ids.get id = .ok (.constant k)) constituents children ∧
      match s with
      | .vector .. | .matrix .. =>
        ∃ parts, value = .flat parts.flatten ∧ Forall₂ (fun k bits => partWords k c = .ok bits c) children parts
      | _ => value = .composite children := by
  obtain ⟨children, hchildren, h₁⟩ := peek_eq_ok.mp h
  obtain ⟨shape, hshape, h₂⟩ := peek_eq_ok.mp h₁
  have hids := (Looks.forall₂_of_mapM (fun id => looks_lookup (·.constant id)) hchildren).imp fun _ _ h =>
    IdTable.get_of_constant (lookup_eq_ok.mp h).1
  by_cases hcount : shape.childCount?.or shape.lanes? = some children.length
  · rw [if_neg (not_not.mpr hcount)] at h₂
    have hs := shape?_of_shape hshape (by rintro rfl; cases hcount)
    have hflat (h : (do return .flat (← children.mapM partWords).flatten : Lower ConstantValue) c = .ok value c') :
        c' = c ∧ ∃ parts, value = .flat parts.flatten ∧
          Forall₂ (fun k bits => partWords k c = .ok bits c) children parts := by
      obtain ⟨parts, hparts, hpure⟩ := peek_eq_ok.mp h
      obtain ⟨rfl, rfl⟩ := pure_eq_ok.mp hpure
      exact ⟨rfl, parts, rfl, Looks.forall₂_of_mapM (fun _ => Peeks.looks) hparts⟩
    cases shape with
    | vector | matrix => exact ⟨(hflat h₂).1, _, children, hs, hcount, hids, (hflat h₂).2⟩
    | _ =>
      obtain ⟨rfl, rfl⟩ := pure_eq_ok.mp h₂
      exact ⟨rfl, _, children, hs, hcount, hids, rfl⟩
  · rw [if_pos hcount] at h₂
    obtain ⟨_, _, hthrow, -⟩ := bind_eq_ok.mp h₂
    exact (throw_eq_ok.mp hthrow).elim

/-- Whenever a computation succeeds, it has only declared, and its answer is a constant that holds the shape of
a type. -/
def AddsConstant (ty : TypeId) (m : Lower ConstantId) : Prop :=
  ∀ ⦃c k c'⦄, m c = .ok k c' → Declares c c' ∧ ∃ s, c'.module.types.shape? ty = some s ∧ c'.module.Holds k s

theorem addConstant_eq_ok {constant : Constant} {k : ConstantId} (h : Lower.addConstant constant c = .ok k c')
    (hchildren : ∀ children, constant.value = .composite children → ∀ child ∈ children,
      child < c.module.constants.size ∨ ∃ id, c.ids.get id = .ok (.constant child))
    (hshape : (∃ s, c.module.types.shape? constant.ty = some s) ∨ ∃ w, constant.value = .flat [w]) :
    Declares c c' ∧ c'.module.constants[k]? = some constant := by
  obtain ⟨rfl, rfl⟩ := Prod.mk.inj (modifyGet_eq_ok.mp h)
  exact ⟨.single (.constant hchildren hshape), by simp⟩

theorem AddsConstant.mapM {α : Type} {f : α → Lower ConstantId} {ty : α → TypeId}
    (hf : ∀ a, AddsConstant (ty a) (f a)) {l : List α} {ks : List ConstantId} (h : l.mapM f c = .ok ks c') :
    Declares c c' ∧
      Forall₂ (fun a k => ∃ s, c'.module.types.shape? (ty a) = some s ∧ c'.module.Holds k s) l ks := by
  induction l generalizing ks c with
  | nil =>
    rw [mapM_nil] at h
    obtain ⟨rfl, rfl⟩ := pure_eq_ok.mp h
    exact ⟨.refl, .nil⟩
  | cons a l ih =>
    rw [mapM_cons, bind_eq_ok] at h
    obtain ⟨k, d, hk, h⟩ := h
    obtain ⟨ks', d', hks', h⟩ := bind_eq_ok.mp h
    obtain ⟨rfl, rfl⟩ := pure_eq_ok.mp h
    obtain ⟨hd, s, hs, hheld⟩ := hf a hk
    obtain ⟨hd', hall⟩ := ih hks'
    exact ⟨hd.trans hd', .cons ⟨s, hd'.precedes.types.shape? hs, hheld.mono hd'.precedes⟩ hall⟩

theorem addsConstant_zeroWithin (depth : Nat) (ty : TypeId) (name : Option String) :
    AddsConstant ty (zeroWithin depth ty name) := by
  induction depth generalizing ty name with
  | zero =>
    intro c k c' h
    exact (throw_eq_ok.mp h).elim
  | succ depth ih =>
    intro c k c' h
    obtain ⟨shape, hshape, h₁⟩ := peek_eq_ok.mp h
    have hvoid : shape ≠ .void := by
      rintro rfl
      obtain ⟨_, _, hthrow, -⟩ := bind_eq_ok.mp h₁
      exact (throw_eq_ok.mp hthrow).elim
    have hs := shape?_of_shape hshape hvoid
    have hflat {bits : List Word} (hsize : shape.flatSize? = some bits.length)
        (h : Lower.addConstant { name, ty, value := .flat bits } c = .ok k c') :
        Declares c c' ∧ ∃ s, c'.module.types.shape? ty = some s ∧ c'.module.Holds k s := by
      obtain ⟨hd, hk⟩ := addConstant_eq_ok h (by simp) (.inl ⟨shape, hs⟩)
      have hs' := hd.precedes.types.shape? hs
      exact ⟨hd, shape, hs', .flat hk hs' hsize⟩
    have hcomposite {α : Type} {f : α → Lower ConstantId} {tyOf : α → TypeId} {l : List α}
        (hf : ∀ a, AddsConstant (tyOf a) (f a)) (hcount : shape.childCount? = some l.length)
        (hchild : ∀ (types : Types) (i : Nat) a, l[i]? = some a → types.childShape? shape i = types.shape? (tyOf a))
        (h : (do
          let children ← l.mapM f
          Lower.addConstant { name, ty, value := .composite children }) c = .ok k c') :
        Declares c c' ∧ ∃ s, c'.module.types.shape? ty = some s ∧ c'.module.Holds k s := by
      obtain ⟨children, d, hmap, hadd⟩ := bind_eq_ok.mp h
      obtain ⟨hd, hheld⟩ := AddsConstant.mapM hf hmap
      have hlt := Ensures.forall_of_forall₂ (hheld.imp fun _ _ ⟨_, _, h⟩ => h.lt_size)
      obtain ⟨hd', hk⟩ := addConstant_eq_ok hadd (fun children' hvalue child hchild => by
        cases hvalue
        exact .inl (hlt child hchild)) (.inl ⟨shape, hd.precedes.types.shape? hs⟩)
      have hs' := (hd.precedes.trans hd'.precedes).types.shape? hs
      refine ⟨hd.trans hd', shape, hs', .of_children hk hs' (by rw [hcount, hheld.length_eq]) fun i child hi => ?_⟩
      obtain ⟨a, ha, s, hs, hheld⟩ := Ensures.exists_of_forall₂ hheld hi
      exact ⟨s, (hchild _ i a ha).trans (hd'.precedes.types.shape? hs), hheld.mono hd'.precedes⟩
    cases shape with
    | scalar s => exact hflat rfl h₁
    | vector size s => exact hflat (by rw [length_replicate]; rfl) h₁
    | matrix columns rows s => exact hflat (by rw [length_replicate]; rfl) h₁
    | array base length =>
      refine hcomposite (fun ty => ih ty none) (by rw [length_replicate]; rfl) (fun types i a ha => ?_) h₁
      rw [(mem_replicate.mp (mem_of_getElem? ha)).2]
      rfl
    | struct members =>
      refine hcomposite (fun m : Member => ih m.ty none) rfl (fun types i m hm => ?_) h₁
      rw [Types.childShape?, hm, Option.bind_some]
    | _ =>
      obtain ⟨_, _, hthrow, -⟩ := bind_eq_ok.mp h₁
      exact (throw_eq_ok.mp hthrow).elim

theorem addsConstant_zero (ty : TypeId) (name : Option String) : AddsConstant ty (zero ty name) := by
  intro c k c' h
  obtain ⟨depth, -, hzero⟩ := peek_eq_ok.mp h
  exact addsConstant_zeroWithin depth ty name hzero

theorem along_zeroConstant (i : RawInstruction) : Along Declares (zeroConstant i) := by
  refine .bind along_peek fun ty => ?_
  refine .bind along_peek fun id => .bind .get fun d => ?_
  intro c u c' h
  obtain ⟨k, d, hk, hdefine⟩ := bind_eq_ok.mp h
  obtain ⟨hd, s, -, hheld⟩ := addsConstant_zero ty _ hk
  obtain ⟨ids, hids, rfl⟩ := define_eq_ok.mp hdefine
  refine hd.trans (.single (.define hids ?_ (by simp) (by simp)))
  rintro k' ⟨⟩
  exact hheld.lt_size

/-- Every constant but one of zeros is added with its value, and the id is given to it. -/
theorem constant_eq_ok {i : RawInstruction} {u : Unit} (h : constant i c = .ok u c') :
    zeroConstant i c = .ok u c' ∧ i.op = .opConstantNull ∨ ∃ ty id value ids,
      Lower.typeOperand i 0 c = .ok ty c ∧ i.operand 1 = .ok id ∧
      ((∃ w, value = .flat [w]) ∧ i.op ∉ [.opConstantComposite, .opSpecConstantComposite] ∨
        compositeValue ty (i.operandsFrom 2) c = .ok value c ∧ i.op ∈ [.opConstantComposite, .opSpecConstantComposite]) ∧
      c.ids.define id (.constant c.module.constants.size) = .ok ids ∧
      c' = { c with
        ids
        module.constants := c.module.constants.push { name := c.ids.name? id, ty, value } } := by
  obtain ⟨ty, hty, h₁⟩ := peek_eq_ok.mp h
  obtain ⟨id, hid, h₂⟩ := peek_eq_ok.mp h₁
  beta_reduce at h₂
  by_cases hnull : i.op = .opConstantNull
  · rw [hnull] at h₂
    exact .inl ⟨h₂, hnull⟩
  · have hadd : ∃ value, ((∃ w, value = .flat [w]) ∧ i.op ∉ [.opConstantComposite, .opSpecConstantComposite] ∨
        compositeValue ty (i.operandsFrom 2) c = .ok value c ∧
          i.op ∈ [.opConstantComposite, .opSpecConstantComposite]) ∧ (do
          let k ← Lower.addConstant { name := (← get).ids.name? id, ty, value }
          Lower.define id (.constant k) : Lower Unit) c = .ok u c' := by
      generalize i.op = op at h₂ hnull ⊢
      split at h₂
      case h_1 | h_2 | h_3 | h_4 => exact ⟨_, .inl ⟨⟨_, rfl⟩, by simp⟩, h₂⟩
      case h_5 | h_6 =>
        obtain ⟨w, -, h₃⟩ := peek_eq_ok.mp h₂
        exact ⟨_, .inl ⟨⟨w, rfl⟩, by simp⟩, h₃⟩
      case h_7 | h_8 =>
        obtain ⟨value, d, hvalue, h₃⟩ := bind_eq_ok.mp h₂
        obtain rfl := (compositeValue_eq_ok hvalue).1
        exact ⟨value, .inr ⟨hvalue, by simp⟩, h₃⟩
      case h_9 => exact (hnull rfl).elim
      case h_10 => exact (throw_eq_ok.mp h₂).elim
    obtain ⟨value, hvalue, h₃⟩ := hadd
    obtain ⟨k, d, hk, hdefine⟩ := bind_eq_ok.mp (getBind_eq_ok.mp h₃)
    obtain ⟨rfl, rfl⟩ := Prod.mk.inj (modifyGet_eq_ok.mp hk)
    obtain ⟨ids, hids, rfl⟩ := define_eq_ok.mp hdefine
    exact .inr ⟨ty, id, value, ids, hty, (ofExcept_eq_ok.mp hid).1, hvalue, hids, rfl⟩

theorem along_constant (i : RawInstruction) : Along Declares (constant i) := by
  intro c u c' h
  obtain ⟨hzero, -⟩ | ⟨ty, id, value, ids, -, -, hvalue, hids, rfl⟩ := constant_eq_ok h
  · exact along_zeroConstant i hzero
  · refine .trans (.single (.constant ?_ ?_)) (.single (.define hids ?_ (by simp) (by simp)))
    · rintro children' rfl child hchild
      rcases hvalue with ⟨⟨w, hw⟩, -⟩ | ⟨hvalue, -⟩
      · cases hw
      · obtain ⟨-, s, children, -, -, hparts, hvalue⟩ := compositeValue_eq_ok hvalue
        obtain rfl : children' = children := by cases s <;> simp_all
        have hget : ∀ child ∈ children', ∃ id, c.ids.get id = .ok (.constant child) :=
          Ensures.forall_of_forall₂ (hparts.imp fun id _ h => ⟨id, h⟩)
        exact .inr (hget child hchild)
    · rcases hvalue with ⟨hw, -⟩ | ⟨hvalue, -⟩
      · exact .inr hw
      · obtain ⟨-, s, -, hs, -⟩ := compositeValue_eq_ok hvalue
        exact .inl ⟨s, hs⟩
    · rintro k ⟨⟩
      simp

/-! ### Variables -/

theorem along_decorateVariable (id : Id) (v : Variable) (d : ResolvedDecoration) :
    Along Declares (decorateVariable id v d) := by
  have hreport (e : Event) (v : Variable) :
      Along Declares (Lower.report e >>= fun _ => pure v : Lower Variable) :=
    (along_report e).bind fun _ => .pure v
  unfold decorateVariable
  extract_lets binding
  split
  case h_3 =>
    split
    · exact (along_report _).bind fun _ => .pure _
    · exact .pure _
  case h_4 => exact .bind .get fun _ => .pure _
  all_goals first
    | exact .pure _
    | exact hreport _ _

theorem along_variableDeclaration (i : RawInstruction) : Along Declares (variableDeclaration false i) := by
  refine .bind along_peek fun pointer => .bind along_peek fun type => ?_
  dsimp only
  split
  · exact .throw _
  · refine .bind along_peek fun id => .bind along_peek fun w => ?_
    split
    · refine .bind along_peek fun decorations => ?_
      refine .bind (.of_looks (looks_ofExcept _)) fun mode => .bind .get fun c => ?_
      refine .bind (.foldlM (along_decorateVariable id) _ _) fun var => ?_
      intro c u c' h
      obtain ⟨init, d, hinit, h₁⟩ := bind_eq_ok.mp h
      obtain rfl := Peeks.looks hinit
      obtain ⟨v, d₁, hadd, hdefine⟩ := bind_eq_ok.mp h₁
      obtain ⟨rfl, rfl⟩ := addVariable_eq_ok.mp hadd
      obtain ⟨ids, hids, rfl⟩ := define_eq_ok.mp hdefine
      refine (Declares.single (.declare (mem_of_initializer hinit))).tail (.define hids (by simp) (by simp) ?_)
      rintro p ⟨⟩
      simp [Context.withVariable]
    · exact .throw _

end Declaration

/-! ### The preamble -/

namespace Preamble

theorem along_entryPoint (i : RawInstruction) : Along Declares (entryPoint i) := by
  refine .bind along_peek fun w => ?_
  dsimp only
  split
  · split
    · refine .bind along_peek fun function => .bind (.of_looks (looks_ofExcept _)) fun name => ?_
      exact (along_report _).bind fun _ => .modify fun c => .single (.entryPoint _ _)
    · exact .throw _
  · exact .throw _

theorem along_instruction (i : RawInstruction) : Along Declares (instruction i) := by
  have hliteral (k : Nat) : Along Declares (Lower.ofExcept (i.literal k)) := .of_looks (looks_ofExcept _)
  have hthen {m : Lower Unit} (hm : Along Declares m) :
      Along Declares (m >>= fun _ => pure true) := hm.bind fun _ => .pure true
  unfold instruction
  split
  case h_12 =>
    exact (hliteral 1).bind fun _ => .bind along_peek fun _ => hthen (along_define (by simp))
  case h_13 =>
    exact (hliteral 1).bind fun _ => .bind along_peek fun _ => hthen (along_setName ..)
  case h_14 =>
    exact (hliteral 2).bind fun _ => .bind along_peek fun _ => .bind along_peek fun _ =>
      hthen (along_setMemberName ..)
  case h_15 =>
    exact (hliteral 1).bind fun _ => .bind along_peek fun _ => hthen (along_define (by simp))
  case h_16 => exact hthen (along_entryPoint i)
  case h_43 => exact hthen (Declaration.along_zeroConstant i)
  case h_44 => exact hthen (Declaration.along_variableDeclaration i)
  all_goals first
    | exact hthen (along_report _)
    | exact hthen (Declaration.along_annotate i)
    | exact hthen (Declaration.along_type i)
    | exact hthen (Declaration.along_constant i)
    | exact .throw _
    | exact .pure _

theorem along_reported (i : RawInstruction) : Along Declares (reported i) := by
  refine (along_instruction i).bind fun belongs => ?_
  dsimp only
  split
  · exact (along_report _).bind fun _ => .pure _
  · exact .pure _

end Preamble

theorem along_handleAll {R : Context → Context → Prop} [Std.Refl R] [IsTrans Context R]
    {handler : RawInstruction → Lower Bool} (h : ∀ i, Along R (handler i)) (fault : Option Error)
    (stop : Nat) (is : List RawInstruction) : Along R (handleAll handler fault stop is) := by
  induction is with
  | nil =>
    unfold handleAll
    cases fault with
    | none => exact .pure stop
    | some e => exact .throw e
  | cons i is ih =>
    refine (h i).bind fun more => ?_
    split
    · exact ih
    · exact .pure _

end ShaderIR.Spirv
