import ShaderIR.Proofs.TwinLowering
import ShaderIR.Spirv.Preamble

/-!
# Declarations of two readings

Names, annotations, types, constants and variables of two readings belong together. Types that names
alone tell apart become one in a reading without names, and everything that refers to them does so
along the pairing.
-/

namespace ShaderIR.Spirv

open List Lower

variable {L : Latitude} {p q : Pairing}

theorem RawInstruction.pairsFrom_offset (i : RawInstruction) (offset index : Nat) :
    ({ i with offset } : RawInstruction).pairsFrom index = i.pairsFrom index := by
  have hgo (l : List Word) : pairsFrom.go { i with offset } l = pairsFrom.go i l := by
    induction l using pairsFrom.go.induct with
    | case1 => rfl
    | case2 => rfl
    | case3 a b rest ih => rw [pairsFrom.go, pairsFrom.go, ih]
  exact hgo _

namespace Declaration

/-! ### Annotations -/

theorem annotation_offset (i : RawInstruction) (offset : Nat) : annotation { i with offset } = annotation i := by
  unfold annotation
  simp only [RawInstruction.pairsFrom_offset]
  rfl

theorem inStep_decorate (id : Id) (d : Decoration) : Steady L p (Lower.updateIds (·.decorate id d)) Done :=
  inStep_updateIds fun _ _ _ _ ht => ht.update id fun _ _ hs =>
    { hs with decorations := by rw [hs.decorations] }

section

variable (i : RawInstruction)
include i

theorem inStep_recordDecoration (target : Id) (member : Option Word)
    (index : Nat) : Steady L p (recordDecoration i target member index) Done := by
  refine (inStep_operand i index).bind_same fun number => ?_
  cases DecorationKind.ofNumber? number.toNat with
  | none => exact inStep_report rfl _
  | some kind => exact inStep_decorate _ _

theorem inStep_annotation : Steady L p ( annotation i) Done := by
  unfold annotation
  have hgroup (group : Id) : Steady L p (Lower.lookup (·.checkGroup group)) Done :=
    .lookup fun _ _ _ _ ht => ht.checkGroup group
  split
  · exact (inStep_operand i 0).bind_same fun target => inStep_recordDecoration ..
  · refine (inStep_operand i 0).bind_same fun target => ?_
    exact (inStep_operand i 1).bind_same fun member => inStep_recordDecoration ..
  · exact (inStep_operand i 0).bind_same fun id => inStep_define id .decorationGroup
  · refine (inStep_operand i 0).bind_same fun group => ?_
    exact (hgroup group).seq (.forM_same fun target => inStep_decorate _ _)
  · refine (inStep_operand i 0).bind_same fun group => ?_
    refine (hgroup group).seq ?_
    refine (inStep_ofExcept _).bind_same fun targets => ?_
    exact .forM_same fun target => inStep_decorate _ _
  · exact .throw fun _ => rfl

/-! ### Types -/

theorem inStep_checkWidth : Steady L p (checkWidth i) Done := by
  refine (inStep_operand i 1).bind_same fun width => ?_
  split
  · exact .throw fun _ => rfl
  · exact .pure fun _ _ => trivial

theorem inStep_vectorSize (index : Nat) : Steady L p (vectorSize i index) := by
  refine (inStep_operand i index).bind_same fun lanes => ?_
  cases VectorSize.ofLanes? lanes.toNat with
  | some size => exact .pure fun _ _ => rfl
  | none => exact .throw fun _ => rfl

end

theorem inStep_scalarOf (id : Id) : Steady L p (scalarOf id) := by
  refine (inStep_typeOf id).bind fun _ _ ty ty' hty => ?_
  refine (inStep_shape hty).bind fun _ _ s s' hs => ?_
  cases hs using Shape.Alike.kinds with
  | scalar => exact .pure fun _ _ => rfl
  | _ => exact .meaningless fun _ => rfl

theorem inStep_lookupConstant (id : Id) : Steady L p (Lower.lookup (·.constant id))
      fun q k k' => k' = k ∧ k < q.constants := .lookup fun _ _ _ _ ht => ht.constant id

theorem inStep_arrayLength (i : RawInstruction) (index : Nat) : Steady L p (arrayLength i index) := by
  refine (inStep_operand i index).bind_same fun id => ?_
  refine (inStep_lookupConstant id).bind fun _ _ k k' ⟨hk, hlt⟩ => ?_
  subst hk
  refine (inStep_constant hlt).bind fun _ _ K K' hK => ?_
  rw [hK.bits?_eq]
  cases K.bits?.bind List.head? with
  | some length => exact .pure fun _ _ => rfl
  | none => exact .throw fun _ => rfl

theorem inStep_decorateMember (id : Id) (index : Word) {m m' : Member} (hm : m.Alike L p.types m')
    (d : ResolvedDecoration) :
    InStep L p (decorateMember id index m d) (decorateMember id index m' d) fun q => Member.Alike L q.types := by
  obtain ⟨hty, hrest⟩ := hm
  generalize m'.ty = ty' at hty hrest
  subst hrest
  unfold decorateMember
  cases d.kind
  all_goals first
    | exact .pure fun _ hq => ⟨hty.mono hq.types, rfl⟩
    | exact (inStep_report rfl _).seq (.pure fun _ hq => ⟨hty.mono hq.types, rfl⟩)

theorem inStep_decorateMembers (id : Id) {ms ms' : List Member}
    (hms : List.Forall₂ (Member.Alike L p.types) ms ms') (d : ResolvedDecoration) :
    InStep L p (decorateMembers id ms d) (decorateMembers id ms' d)
      fun q => List.Forall₂ (Member.Alike L q.types) := by
  unfold decorateMembers
  cases d.member with
  | none => exact .pure fun _ hq => hms.imp fun _ _ hm => hm.mono hq.types
  | some index =>
    dsimp only
    have hrel := getElem?_alike hms index.toNat
    generalize ms[index.toNat]? = x, ms'[index.toNat]? = x' at hrel ⊢
    cases hrel with
    | none =>
      rw [hms.length_eq]
      exact .meaningless fun _ => rfl
    | some hmm =>
      refine (inStep_decorateMember id index hmm d).bind fun q hq n n' hn => ?_
      exact .pure fun q' hq' =>
        set_alike (hms.imp fun _ _ hm => hm.mono (hq.trans hq').types) (hn.mono hq'.types) _

theorem inStep_lookupDecorations (id : Id) : Steady L p (Lower.lookup (·.decorations id)) := by
  refine .lookup fun q _ t t' ht => ?_
  rw [ht.decorations_eq id]
  cases t.decorations id with
  | ok ds => exact .ok rfl
  | error e => exact .error fun _ => rfl

theorem inStep_structMembers (id : Id) (types : List Id) : Steady L p (structMembers id types)
      fun q => List.Forall₂ (Member.Alike L q.types) := by
  have hstable : Stable fun q => Member.Alike L q.types := fun _ _ hq _ _ hm => hm.mono hq.types
  refine InStep.bind (.mapM_mem hstable fun entry _ => ?_) fun q hq ms ms' hms => ?_
  · refine (inStep_typeOf entry.1).bind fun q₁ hq₁ ty ty' hty => ?_
    refine InStep.get.bind fun q₂ hq₂ c c' hc => .pure fun q₃ hq₃ => ?_
    exact ⟨hty.mono (hq₂.trans hq₃).types, by rw [hc.ids.memberName?_eq]⟩
  · refine (inStep_lookupDecorations id).bind_same fun ds => ?_
    exact .foldlM (S := fun q => List.Forall₂ (Member.Alike L q.types))
      (fun _ _ hq _ _ hms => hms.imp fun _ _ hm => hm.mono hq.types)
      (fun _ _ ms ms' d hms => inStep_decorateMembers id hms d) hms

theorem inStep_imageShape (i : RawInstruction) : Steady L p (imageShape i) fun q => Shape.Alike L q.types := by
  refine (inStep_operand i 1).bind_same fun sampled => ?_
  refine (inStep_scalarOf sampled).bind_same fun scalar => ?_
  refine (inStep_operand i 2).bind_same fun number => ?_
  cases ImageDim.ofNumber? number.toNat with
  | none => exact .throw fun _ => rfl
  | some dim =>
    refine (inStep_operand i 5).bind_same fun multisampled => ?_
    dsimp only
    cases dim.sampler? (decide (multisampled ≠ 0)) with
    | none => exact .throw fun _ => rfl
    | some sampler =>
      dsimp only
      split
      · exact .throw fun _ => rfl
      · refine (inStep_operand i 3).bind_same fun shadow => ?_
        refine (inStep_operand i 4).bind_same fun arrayed => ?_
        exact .pure fun _ _ => rfl

theorem inStep_typeShape (i : RawInstruction) (id : Id) :
    Steady L p (typeShape i id) fun q => Shape.Alike L q.types := by
  unfold typeShape
  split
  · exact .pure fun _ _ => rfl
  · exact .pure fun _ _ => rfl
  · refine (inStep_checkWidth i).seq ?_
    exact (inStep_operand i 2).bind_same fun _ => .pure fun _ _ => rfl
  · exact (inStep_checkWidth i).seq (.pure fun _ _ => rfl)
  · refine (inStep_operand i 1).bind_same fun scalar => ?_
    refine (inStep_scalarOf scalar).bind_same fun scalar => ?_
    exact (inStep_vectorSize i 2).bind_same fun _ => .pure fun _ _ => rfl
  · refine (inStep_typeOperand i 1).bind fun _ _ ty ty' hty => ?_
    refine (inStep_shape hty).bind fun _ _ s s' hs => ?_
    cases hs using Shape.Alike.kinds with
    | vector => exact (inStep_vectorSize i 2).bind_same fun _ => .pure fun _ _ => rfl
    | _ => exact .throw fun _ => rfl
  · refine (inStep_typeOperand i 1).bind fun _ _ base base' hbase => ?_
    exact (inStep_arrayLength i 2).bind_same fun _ => .pure fun _ hq => ⟨_, hbase.mono hq.types, rfl⟩
  · exact (inStep_structMembers id _).bind fun _ _ ms ms' hms => .pure fun _ hq =>
      ⟨ms', hms.imp fun _ _ hm => hm.mono hq.types, rfl⟩
  · refine (inStep_typeOperand i 1).bind fun _ _ result result' hresult => ?_
    have hstable : Stable fun q => q.types.Maps := fun _ _ hq _ _ hty => hty.mono hq.types
    refine InStep.bind (.mapM_mem hstable fun id _ => inStep_typeOf id) fun _ hq params params' hparams => ?_
    exact .pure fun _ hq' => ⟨_, params', hresult.mono (hq.trans hq').types,
      hparams.imp fun _ _ hty => hty.mono hq'.types, rfl⟩
  · exact inStep_imageShape i
  · exact .throw fun _ => rfl

theorem inStep_type (i : RawInstruction) : Steady L p (type i) Done := by
  refine (inStep_operand i 0).bind_same fun id => ?_
  split
  · refine (inStep_operand i 1).bind_same fun storage => ?_
    dsimp only
    split
    · exact .throw fun _ => rfl
    · exact (inStep_typeOperand i 2).bind fun _ _ _ _ hty => inStep_define id (.type hty)
  · refine (inStep_operand i 1).bind_same fun image => ?_
    refine (InStep.lookup (R := fun q v v' => q.types.Maps v.ty v'.ty ∧ v'.isPointer = v.isPointer)
      fun q _ t t' ht => ht.typeValue image).bind fun q _ v v' hv => ?_
    obtain ⟨ty, isPointer⟩ := v
    obtain ⟨ty', isPointer'⟩ := v'
    obtain ⟨hty, rfl⟩ := hv
    exact inStep_define id (.type hty)
  · refine (inStep_typeShape i id).bind fun q _ s s' hs => ?_
    refine InStep.get.bind fun q₁ hq₁ c c' hc => ?_
    have ht : Ty.Alike L q₁.types ⟨c.ids.name? id, s⟩ ⟨c'.ids.name? id, s'⟩ :=
      ⟨hc.ids.name?_eq id, hs.mono hq₁.types⟩
    exact (inStep_insertType ht).bind fun _ _ _ _ hty => inStep_define id (.type hty)

/-! ### Constants -/

/-- The same value, whose parts are known. -/
def SameValue (q : Pairing) (v v' : ConstantValue) : Prop :=
  v' = v ∧ ∀ parts, v = .composite parts → ∀ k ∈ parts, k < q.constants

theorem SameValue.flat (bits : List Word) : SameValue q (.flat bits) (.flat bits) := ⟨rfl, fun _ h => nomatch h⟩

theorem SameValue.mono {v v' : ConstantValue} (h : SameValue p v v') (hq : p.Grows q) : SameValue q v v' :=
  ⟨h.1, fun parts hparts k hk => Nat.lt_of_lt_of_le (h.2 parts hparts k hk) hq.constants⟩

/-- Constants that both readings find or add in turn are the parts of the same value. -/
theorem inStep_parts {α : Type} {l l' : List α} {f f' : α → Lower ConstantId} {R : α → α → Prop}
    (hl : List.Forall₂ R l l')
    (hf : ∀ a b, R a b → InStep L p (f a) (f' b) fun q n n' => n' = n ∧ n < q.constants) :
    InStep L p (l.mapM f) (l'.mapM f') fun q ks ks' => SameValue q (.composite ks) (.composite ks') := by
  have hstable : Stable fun (q : Pairing) (k k' : ConstantId) => k' = k ∧ k < q.constants :=
    fun _ _ hq _ _ hk => ⟨hk.1, Nat.lt_of_lt_of_le hk.2 hq.constants⟩
  refine (InStep.mapM hl hstable hf).mono fun q _ ks ks' hks => ?_
  have hlt := forall_of_forall₂_left (P := (· < q.constants)) (hks.imp fun _ _ h => h.2)
  refine ⟨by rw [eq_of_forall₂_eq (hks.imp fun _ _ h => h.1)], fun parts hparts k hk => ?_⟩
  cases hparts
  exact hlt k hk

theorem inStep_partWords {k : ConstantId} (h : k < p.constants) : Steady L p (partWords k) := by
  refine (inStep_constant h).bind fun _ _ K K' hK => ?_
  rw [hK.bits?_eq]
  cases K.bits? with
  | some bits => exact .pure fun _ _ => rfl
  | none => exact .throw fun _ => rfl

theorem inStep_compositeValue {ty ty' : TypeId} (hty : p.types.Maps ty ty') (constituents : List Id) :
    InStep L p (compositeValue ty constituents) (compositeValue ty' constituents) SameValue := by
  have hfind : Steady L p (constituents.mapM fun id => Lower.lookup (·.constant id))
      fun q ks ks' => SameValue q (.composite ks) (.composite ks') :=
    inStep_parts (List.forall₂_same.mpr fun _ _ => rfl) fun id _ h => h ▸ inStep_lookupConstant id
  refine hfind.bind fun q hq children children' hsame => ?_
  obtain rfl := ConstantValue.composite.inj hsame.1
  refine (inStep_shape (hty.mono hq.types)).bind fun q₁ hq₁ s s' hs => ?_
  rw [hs.childCount?_eq, hs.lanes?_eq]
  dsimp only
  split
  · exact .throw fun _ => rfl
  · cases hs using Shape.Alike.kinds with
    | vector | matrix =>
      refine InStep.bind_same (.mapM_same fun k hk => ?_) fun parts => .pure fun _ _ => .flat _
      exact inStep_partWords ((hsame.mono hq₁).2 _ rfl k hk)
    | _ => exact .pure fun _ hr => hsame.mono (hq₁.trans hr)

theorem inStep_addValue {name name' : Option String} (hname : L.Named name name') {ty ty' : TypeId}
    (hty : p.types.Maps ty ty') {v v' : ConstantValue} (hv : SameValue p v v') :
    InStep L p (Lower.addConstant { name, ty, value := v })
      (Lower.addConstant { name := name', ty := ty', value := v' })
      fun q n n' => n' = n ∧ n < q.constants :=
  inStep_addConstant ⟨hname, hty, hv.1, hv.2⟩

theorem inStep_zeroWithin {ty ty' : TypeId} (hty : p.types.Maps ty ty') {name name' : Option String}
    (hname : L.Named name name') {depth depth' : Nat}
    (hdepth : Lower.Suffices L p ty' depth depth') :
    InStep L p (zeroWithin depth ty name) (zeroWithin depth' ty' name')
      fun q n n' => n' = n ∧ n < q.constants := by
  induction depth generalizing p ty ty' depth' name name' with
  | zero => exact fun _ _ _ _ _ hs => absurd hs hdepth.not_zero
  | succ depth ih =>
    obtain ⟨depth', rfl⟩ := Nat.exists_eq_add_of_le' hdepth.pos
    rw [zeroWithin, zeroWithin]
    refine (inStep_knownShape hty).bind fun q hq s s' ⟨hs, hknown, hearlier⟩ => ?_
    have hty' := hty.mono hq.types
    have hadd {r : Pairing} (hr : q.Grows r) {v v' : ConstantValue} (hv : SameValue r v v') :=
      inStep_addValue (L := L) hname (hty'.mono hr.types) hv
    cases hs using Shape.Alike.kinds with
    | scalar | vector | matrix => exact (InStep.pure fun _ _ => .flat _).bind fun r hr v v' hv => hadd hr hv
    | array base base' length hbase =>
      have hlt : base' < ty' := hearlier base' (mem_singleton.mpr rfl)
      refine (inStep_parts (R := fun b b' => q.types.Maps b b' ∧ b' < ty')
        (forall₂_replicate ⟨hbase, hlt⟩ length) fun b b' hb => ?_).bind fun r hr ks ks' hks => hadd hr hks
      exact ih hb.1 (.same L none) (hdepth.child hq hknown rfl (.inl hb.2))
    | struct members members' hmembers =>
      have hlt : ∀ m' ∈ members', m'.ty < ty' := fun m' hm' =>
        hearlier m'.ty (mem_map.mpr ⟨m', hm', rfl⟩)
      refine (inStep_parts (forall₂_and_right hmembers hlt) fun m m' hm => ?_).bind
        fun r hr ks ks' hks => hadd hr hks
      exact ih hm.1.1 (.same L none) (hdepth.child hq hknown rfl (.inl hm.2))
    | _ => exact InStep.bind (.meaningless_type hty' .noNull) fun r hr v v' hv => hadd hr hv

theorem inStep_zeroConstant (i : RawInstruction) : Steady L p (zeroConstant i) Done := by
  refine (inStep_typeOperand i 0).bind fun q hq ty ty' hty => ?_
  refine (inStep_operand i 1).bind_same fun id => ?_
  refine InStep.get.bind fun q₂ hq₂ c c' hc => ?_
  unfold zero
  simp only [bind_assoc]
  refine inStep_typeDepth.bind fun q₃ hq₃ depth depth' hdepth => ?_
  have hty₃ := hty.mono (hq₂.trans hq₃).types
  have hname : L.Named (c.ids.name? id) (c'.ids.name? id) := .inr (hc.ids.name?_eq id)
  refine (inStep_zeroWithin hty₃ hname (hdepth _ _ hty₃)).bind fun q₄ hq₄ k k' ⟨hk, hlt⟩ => ?_
  subst hk
  exact inStep_define id (.constant hlt)

theorem inStep_constant (i : RawInstruction) : Steady L p (constant i) Done := by
  refine (inStep_typeOperand i 0).bind fun q hq ty ty' hty => ?_
  refine (inStep_operand i 1).bind_same fun id => ?_
  have hadd {r : Pairing} (hr : q.Grows r) {v v' : ConstantValue} (hv : SameValue r v v') : InStep L r (do
        let c ← Lower.addConstant { name := (← get).ids.name? id, ty, value := v }
        Lower.define id (.constant c)) (do
        let c ← Lower.addConstant { name := (← get).ids.name? id, ty := ty', value := v' }
        Lower.define id (.constant c)) Done := by
    refine InStep.get.bind fun r₁ hr₁ c c' hc => ?_
    refine (inStep_addValue (.inr (hc.ids.name?_eq id))
      (hty.mono (hr.trans hr₁).types) (hv.mono hr₁)).bind fun _ _ k k' ⟨hk, hlt⟩ => ?_
    subst hk
    exact inStep_define id (.constant hlt)
  dsimp only
  split
  · exact hadd (.refl q) (.flat _)
  · exact hadd (.refl q) (.flat _)
  · exact hadd (.refl q) (.flat _)
  · exact hadd (.refl q) (.flat _)
  · exact (inStep_operand i 2).bind_same fun w => hadd (.refl q) (.flat _)
  · exact (inStep_operand i 2).bind_same fun w => hadd (.refl q) (.flat _)
  · exact (inStep_compositeValue hty _).bind fun r hr v v' hv => hadd hr hv
  · exact (inStep_compositeValue hty _).bind fun r hr v v' hv => hadd hr hv
  · exact inStep_zeroConstant i
  · exact .throw fun _ => rfl

/-! ### Variables -/

theorem inStep_decorateVariable (id : Id) {v v' : Variable} (hv : v.Alike L p.types v') (d : ResolvedDecoration) :
    InStep L p (decorateVariable id v d) (decorateVariable id v' d) fun q => Variable.Alike L q.types := by
  obtain ⟨hname, hty, hrest⟩ := hv
  generalize v'.name = name' at hname hrest
  generalize v'.ty = ty' at hty hrest
  subst hrest
  have hreport {e : Event} (he : e.width? = none) : InStep L p (do Lower.report e; return v)
      (do Lower.report e; return { v with name := name', ty := ty' })
      fun q => Variable.Alike L q.types :=
    (inStep_report he _).seq (.pure fun _ hq => ⟨hname, hty.mono hq.types, rfl⟩)
  unfold decorateVariable
  dsimp only
  cases d.kind
  case builtIn =>
    dsimp only
    split
    · exact (inStep_report rfl _).seq (.pure fun _ hq => ⟨hname, hty.mono hq.types, rfl⟩)
    · exact .pure fun _ hq => ⟨hname, hty.mono hq.types, rfl⟩
  case location =>
    refine InStep.get.bind fun q hq c c' hc => ?_
    rw [hc.stage]
    exact .pure fun _ hq' => ⟨hname, hty.mono (hq.trans hq').types, rfl⟩
  all_goals first
    | exact .pure fun _ hq => ⟨hname, hty.mono hq.types, rfl⟩
    | exact hreport rfl

theorem inStep_variableDeclaration (inFunction : Bool) (i : RawInstruction) :
    Steady L p (variableDeclaration inFunction i) Done := by
  refine (inStep_operand i 0).bind_same fun pointer => ?_
  refine (InStep.lookup (R := fun q v v' => q.types.Maps v.ty v'.ty ∧ v'.isPointer = v.isPointer)
    fun q _ t t' ht => ht.typeValue pointer).bind fun q₁ hq₁ v v' ⟨hty, hpointer⟩ => ?_
  rw [hpointer]
  dsimp only
  split
  · exact .throw fun _ => rfl
  · refine (inStep_operand i 1).bind_same fun id => ?_
    refine (inStep_operand i 2).bind_same fun number => ?_
    cases StorageClass.ofNumber? number.toNat with
    | none => exact .throw fun _ => rfl
    | some storage =>
      refine (inStep_lookupDecorations id).bind_same fun decorations => ?_
      refine (inStep_ofExcept _).bind_same fun mode => ?_
      refine InStep.get.bind fun q₂ hq₂ c c' hc => ?_
      have hty₂ := hty.mono hq₂.types
      have hplain : Variable.Alike L q₂.types { name := c.ids.name? id, ty := v.ty, mode }
          { name := c'.ids.name? id, ty := v'.ty, mode } :=
        ⟨.inr (hc.ids.name?_eq id), hty₂, rfl⟩
      refine InStep.bind (.foldlM (S := fun q => Variable.Alike L q.types)
        (fun _ _ hq _ _ hv => ⟨hv.name, hv.ty.mono hq.types, hv.rest⟩)
        (fun _ _ v v' d hv => inStep_decorateVariable id hv d) hplain)
        fun q₃ hq₃ var var' hvar => ?_
      have hdeclare (init : Option ConstantId) : InStep L q₃ (do
            let n ← Lower.addVariable { var with init } (inFunction && mode = .functionLocal)
            Lower.define id (.pointer { place := { root := n }, ty := v.ty })) (do
            let n ← Lower.addVariable { var' with init } (inFunction && mode = .functionLocal)
            Lower.define id (.pointer { place := { root := n }, ty := v'.ty })) Done := by
        have hvar' : Variable.Alike L q₃.types { var with init } { var' with init } :=
          ⟨hvar.name, hvar.ty, by rw [hvar.rest]⟩
        refine (inStep_addVariable hvar' _).bind_same fun n => ?_
        exact inStep_define id (.pointer ⟨rfl, hty₂.mono hq₃.types, .none⟩)
      cases i.operands[3]? with
      | none => exact InStep.bind_same (.pure fun _ _ => rfl) hdeclare
      | some k =>
        refine InStep.bind_same ?_ hdeclare
        refine (inStep_lookupConstant k).bind fun _ _ n n' hn => .pure fun _ _ => ?_
        rw [hn.1]

end Declaration

/-! ### The preamble -/

namespace Preamble

theorem inStep_literal (i : RawInstruction) (index : Nat) {offset : Nat}
    (hoffset : L.Strict → offset = i.offset) :
    InStep L p (Lower.ofExcept (i.literal index))
      (Lower.ofExcept (({ i with offset } : RawInstruction).literal index)) Equal := by
  refine .ofExcept ?_
  unfold RawInstruction.literal RawInstruction.operandsFrom
  cases textOfWords? (i.operands.drop index) with
  | some text => exact .ok rfl
  | none => exact .error fun hs => by rw [hoffset hs]

theorem inStep_entryPoint (i : RawInstruction) {offset : Nat} (hoffset : L.Strict → offset = i.offset) :
    InStep L p (entryPoint i) (entryPoint { i with offset }) Done := by
  refine (inStep_operand i 0).bind_same fun number => ?_
  dsimp only
  cases ExecutionModel.ofNumber? number.toNat with
  | none => exact .throw fun _ => rfl
  | some model =>
    dsimp only
    cases model.stage? with
    | none => exact .throw fun _ => rfl
    | some stage =>
      refine (inStep_operand i 1).bind_same fun function => ?_
      refine (inStep_literal i 2 hoffset).bind_same fun text => ?_
      refine (inStep_report rfl _).seq ?_
      exact .modify fun _ _ c c' hc =>
        { hc with
          stage := by rw [hc.stage]
          entryPoints := by rw [hc.entryPoints] }

theorem inStep_setName (hL : ∀ name, L.rename name = name) (id : Id) (name : String) :
    Steady L p (Lower.updateIds (·.setName id name)) Done :=
  inStep_updateIds fun _ _ _ _ ht => ht.update id fun _ _ hs =>
    { hs with name := (hL _).symm }

theorem inStep_setMemberName (hL : ∀ name, L.rename name = name) (id : Id) (member : Word)
    (name : String) : Steady L p (Lower.updateIds (·.setMemberName id member name)) Done := by
  refine inStep_updateIds fun _ _ _ _ ht => ht.update id fun s s' hs => ?_
  refine { hs with memberNames := fun m => ?_ }
  have hm := hs.memberNames m
  rw [hL] at hm ⊢
  rw [lookup_cons, lookup_cons, hm]

theorem inStep_thenTrue {m m' : Lower Unit} (h : InStep L p m m' Done) :
    InStep L p (do m; return true) (do m'; return true) Equal :=
  h.seq (.pure fun _ _ => rfl)

theorem inStep_instruction (i : RawInstruction) {offset : Nat} (hoffset : L.Strict → offset = i.offset)
    (hname : i.op = .opName ∨ i.op = .opMemberName → ∀ name, L.rename name = name) :
    InStep L p (instruction i) (instruction { i with offset }) Equal := by
  unfold instruction
  simp only [Declaration.annotation_offset]
  split
  case h_12 =>
    refine (inStep_literal i 1 hoffset).bind_same fun text => ?_
    exact (inStep_operand i 0).bind_same fun id => inStep_thenTrue (inStep_define id (.string _))
  case h_13 hop =>
    refine (inStep_literal i 1 hoffset).bind_same fun text => ?_
    exact (inStep_operand i 0).bind_same fun id =>
      inStep_thenTrue (inStep_setName (hname (.inl hop)) id _)
  case h_14 hop =>
    refine (inStep_literal i 2 hoffset).bind_same fun text => ?_
    refine (inStep_operand i 0).bind_same fun id => ?_
    exact (inStep_operand i 1).bind_same fun member =>
      inStep_thenTrue (inStep_setMemberName (hname (.inr hop)) id member _)
  case h_15 =>
    refine (inStep_literal i 1 hoffset).bind_same fun text => ?_
    exact (inStep_operand i 0).bind_same fun id => inStep_thenTrue (inStep_define id (.extensionImport _))
  case h_16 => exact inStep_thenTrue (inStep_entryPoint i hoffset)
  case h_43 => exact inStep_thenTrue (Declaration.inStep_zeroConstant i)
  case h_44 => exact inStep_thenTrue (Declaration.inStep_variableDeclaration false i)
  all_goals first
    | exact inStep_thenTrue (inStep_report rfl _)
    | exact inStep_thenTrue ( Declaration.inStep_annotation i)
    | exact inStep_thenTrue (Declaration.inStep_type i)
    | exact inStep_thenTrue (Declaration.inStep_constant i)
    | exact .throw fun _ => rfl
    | exact .pure fun _ _ => rfl

end Preamble

end ShaderIR.Spirv
