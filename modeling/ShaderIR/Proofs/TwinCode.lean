import ShaderIR.Proofs.Straight
import ShaderIR.Proofs.TwinDeclarations

/-!
# Code of two readings

Every instruction of a block makes the same code in two readings, but for the width of a derivative,
which each reading expands in its own way. The code for a width has the same length either way, and
what follows does not look at the operations in it.
-/

namespace ShaderIR.Spirv

open EStateM List Lower

variable {L : Latitude} {p q : Pairing} {ty ty' : TypeId}

namespace Code

/-! ### Widths of derivatives -/

variable {t' t : Tree} {spot : Spot} {lanes : Nat} {c : Context} {r vector : Register}

theorem alu_single {op : AluOp} {i : Instruction} (hr : c.function.instructions[r]? = some i) :
    Emit.alu op [r] lanes spot c = .ok c.fresh (c.withFunction
      (c.function.insert spot (.alu op [.fit r i.lanes] lanes)).2) := by
  unfold Emit.alu
  rw [mapM_cons, mapM_nil]
  simp only [bind_assoc, pure_bind]
  exact Emit.lift_of_ok (registerLanes_of_getElem? hr)

theorem alu_foreign {op : AluOp} (hr : c.function.instructions[r]? = none) :
    Emit.alu op [r] lanes spot c = .error (.foreignRegister r) c := by
  have hlanes : Lower.registerLanes r c = .error (.foreignRegister r) c := by
    refine get_bind.trans ?_
    simp only [hr]
    rfl
  unfold Emit.alu
  rw [mapM_cons, mapM_nil]
  simp only [bind_assoc, pure_bind]
  exact bind_of_error hlanes

theorem getElem?_insert_size (f : Function) (spot : Spot) (i : Instruction) :
    (f.insert spot i).2.instructions[f.instructions.size]? = some i := by
  simp

theorem getElem?_insert_of_some {f : Function} {i : Instruction} (h : f.instructions[r]? = some i)
    (spot : Spot) (j : Instruction) : (f.insert spot j).2.instructions[r]? = some i := by
  obtain ⟨hlt, -⟩ := Array.getElem?_eq_some_iff.mp h
  rw [Function.insert_instructions, Array.getElem?_push, if_neg (Nat.ne_of_lt hlt), h]

/-- The width of a derivative puts its code in as a whole. -/
theorem fwidth_eq (dx dy : AluOp) {i : Instruction} (lanes : Nat) (hr : c.function.instructions[r]? = some i) :
    fwidth dx dy r lanes spot c = .ok (c.function.instructions.size + 4) (c.withFunction
      (c.function.insertAll spot (widthCode c.options.fwidth dx dy (.fit r i.lanes) lanes
        c.function.instructions.size))) := by
  have hsize (f : Function) (j : Instruction) :
      (f.insert spot j).2.instructions.size = f.instructions.size + 1 := by simp
  -- each operation reads registers that stand before it
  have ha := hr
  refine (Emit.bind_of_ok (alu_single ha)).trans ?_
  have hb := getElem?_insert_of_some ha spot (.alu dx [.fit r i.lanes] lanes)
  refine (Emit.bind_of_ok (alu_single hb)).trans ?_
  refine (Emit.bind_of_ok (alu_single (getElem?_insert_of_some (getElem?_insert_size ..) ..))).trans ?_
  refine (Emit.bind_of_ok (alu_single (getElem?_insert_of_some (getElem?_insert_size ..) ..))).trans ?_
  refine (Emit.alu_pair (getElem?_insert_of_some (getElem?_insert_size ..) ..) (getElem?_insert_size ..)).trans ?_
  simp only [Context.withFunction, hsize]
  rfl

theorem abreast_fwidth {c' : Context} (hc : c.Alike L q c') {dx dy : AluOp}
    (hdue : q.due = [(dx, dy)]) (r : Register) (lanes : Nat) :
    Abreast L (fun a b d d' => b = a ∧ ∃ m, d.Alike L { q with marks := q.marks ++ [m], due := [] } d')
      (fwidth dx dy r lanes spot c) (fwidth dx dy r lanes spot c') := by
  have hlanes := hc.function.lanes_eq r
  cases hi : c.function.instructions[r]? with
  | none =>
    rw [hi, Option.map_none, Option.map_eq_none_iff] at hlanes
    have herror (d : Context) (hd : d.function.instructions[r]? = none) :
        fwidth dx dy r lanes spot d = .error (.foreignRegister r) d :=
      bind_of_error (alu_foreign hd)
    rw [herror c hi, herror c' hlanes]
    exact fun _ => ⟨c', rfl⟩
  | some i =>
    rw [hi, Option.map_some, Option.map_eq_some_iff] at hlanes
    obtain ⟨i', hi', hlanes⟩ := hlanes
    rw [fwidth_eq dx dy lanes hi, fwidth_eq dx dy lanes hi', hlanes, hc.function.size, hc.first, hc.second]
    refine ⟨_, _, rfl, rfl, ⟨c.fresh + 1, dx, dy⟩, ?_⟩
    have hwidths : c.widths = q.past ++ (q.marks ++
        [(⟨c.fresh + 1, dx, dy⟩ : Mark)]).map Mark.pair ++ [] := by
      rw [hc.widths, Pairing.announced, hdue, map_append, append_nil, append_assoc]
      rfl
    exact { hc with
      function := hc.function.insertAll_width spot dx dy (.fit r i.lanes) lanes
      widths := hwidths }

/-! ### Arithmetic -/

theorem inStep_applyRule (op : Opcode) (lanes : Nat) {rule : AluRule}
    (hrule : ∀ dx dy, rule ≠ .fwidth dx dy) (rs : List Register) :
    EmitSteady L p (applyRule op lanes rule rs) := by
  unfold applyRule
  split
  · exact Emit.inStep_alu
  · exact Emit.inStep_alu
  · exact .lift_same (inStep_registerLanes _) fun _ => Emit.inStep_alu
  · exact .lift_same (inStep_registerLanes _) fun _ => Emit.inStep_alu
  · exact .lift_same (inStep_registerLanes _) fun _ => Emit.inStep_alu
  · exact Emit.inStep_alu
  · exact absurd rfl (hrule _ _)
  · exact .throw

theorem inStep_arithmetic {rule : AluRule} (hrule : ∀ dx dy, rule ≠ .fwidth dx dy)
    (i : RawInstruction) : EmitSteady L p (arithmetic rule i) Done := by
  refine .lift_bind (inStep_typeOperand i 0) fun q hq ty ty' hty => ?_
  refine .lift_same (inStep_operand i 1) fun id => ?_
  refine .lift_same (inStep_lanes hty) fun lanes => ?_
  refine EmitInStep.bind_same (.mapM_same fun id _ => Emit.inStep_registerOf id) fun registers => ?_
  dsimp only
  split
  · exact .throw
  · exact (inStep_applyRule i.op lanes hrule registers).bind_same fun r =>
      .lift (inStep_defineRegister id hty r)

theorem abreast_arithmetic_width {c' : Context} (hc : c.Alike L q c') {dx dy : AluOp}
    (hdue : q.due = [(dx, dy)]) (i : RawInstruction) :
    Abreast L (fun _ _ d d' => ∃ q', Pairing.Grows { q with due := [] } q' ∧ d.Alike L q' d')
      (arithmetic (.fwidth dx dy) i spot c) (arithmetic (.fwidth dx dy) i spot c') := by
  refine Abreast.bind (inStep_typeOperand i 0 (.refl q) hc) ?_
  rintro ty ty' c₁ c₁' ⟨q₁, hq₁, hc₁, hty⟩
  refine Abreast.bind (inStep_operand i 1 (.refl q₁) hc₁) ?_
  rintro _ id c₂ c₂' ⟨q₂, hq₂, hc₂, rfl⟩
  refine Abreast.bind (inStep_lanes (hty.mono hq₂.types) (.refl q₂) hc₂) ?_
  rintro _ lanes c₃ c₃' ⟨q₃, hq₃, hc₃, rfl⟩
  refine Abreast.bind (EmitInStep.mapM_same (fun id _ => Emit.inStep_registerOf id) spot (.refl q₃) hc₃) ?_
  rintro _ registers c₄ c₄' ⟨q₄, hq₄, hc₄, rfl⟩
  have hgrow := hq₁.trans (hq₂.trans (hq₃.trans hq₄))
  dsimp only
  split
  · exact fun _ => ⟨c₄', rfl⟩
  · next hlength =>
    obtain ⟨r, rfl⟩ : ∃ r, registers = [r] := length_eq_one_iff.mp (not_not.mp hlength)
    refine Abreast.bind (abreast_fwidth hc₄ (hgrow.due.trans hdue) r lanes) ?_
    rintro _ x c₅ c₅' ⟨rfl, m, hc₅⟩
    have hty₅ := hty.mono (hq₂.trans (hq₃.trans hq₄)).types
    have hdefine := inStep_defineRegister id (p := { q₄ with marks := q₄.marks ++ [m], due := [] })
      hty₅ x (.refl _) hc₅
    refine hdefine.mono fun _ _ d d' ⟨q₆, hq₆, hd, _⟩ => ⟨q₆, ?_, hd⟩
    exact ⟨hgrow.types.trans hq₆.types, hgrow.known.trans hq₆.known,
      Nat.le_trans hgrow.constants hq₆.constants, hq₆.made.trans hgrow.made, hq₆.due⟩

/-! ### Lanes chosen at run time -/

theorem inStep_extractDynamic {index : Register} : EmitSteady L p (extractDynamic vector lanes index) := by
  refine Emit.inStep_lane.bind_same fun first => .foldlM_same fun result lane => ?_
  refine Emit.inStep_loadConst.bind_same fun number => ?_
  exact Emit.inStep_alu.bind_same fun hit => Emit.inStep_aluWith

theorem inStep_insertDynamic {value index : Register} :
    EmitSteady L p (insertDynamic vector lanes value index) := by
  refine EmitInStep.bind_same (.mapM_same fun lane _ => ?_) fun chosen => Emit.inStep_gather
  refine Emit.inStep_loadConst.bind_same fun number => ?_
  refine Emit.inStep_alu.bind_same fun hit => ?_
  exact Emit.inStep_aluWith.bind_same fun r => .pure fun _ _ => rfl

theorem inStep_insertLane {value : Register} {index : Word} :
    EmitSteady L p (insertLane vector lanes value index) := Emit.inStep_gather

/-! ### Composites -/

theorem inStep_construct (i : RawInstruction) (hty : p.types.Maps ty ty') :
    EmitInStep L p (construct i ty) (construct i ty') fun q => Tree.Alike q.types := by
  unfold construct
  refine .lift_bind (inStep_shape hty) fun q hq s s' hs => ?_
  have hty' := hty.mono hq.types
  rw [hs.lanes?_eq, hs.childCount?_eq]
  cases s.lanes? with
  | some lanes =>
    refine EmitInStep.bind_same (.mapM_same fun id _ => ?_) fun parts => ?_
    · refine (Emit.inStep_registerOf id).bind_same fun r => ?_
      exact .lift_same (inStep_registerLanes r) fun _ => .pure fun _ _ => rfl
    · dsimp only
      split
      · exact .throw
      · exact Emit.inStep_leafOf hty' Emit.inStep_gather
  | none =>
    dsimp only
    split
    · exact .throw
    · exact Emit.inStep_nodeOf hty' fun id _ => Emit.inStep_treeOf id

theorem inStep_extract (hty : p.types.Maps ty ty') {path : List Word} (ht : t.Alike p.types t') :
    EmitInStep L p (extract ty path t) (extract ty' path t') fun q => Tree.Alike q.types := by
  induction path generalizing t t' with
  | nil =>
    rw [extract, extract]
    exact .pure fun _ hq => ht.mono hq.types
  | cons i rest ih =>
    cases ht with
    | leaf =>
      rw [extract, extract]
      split
      · exact .meaningless
      · refine .lift_same (inStep_registerLanes _) fun lanes => ?_
        dsimp only
        split
        · exact .meaningless
        · exact Emit.inStep_leafOf hty Emit.inStep_lane
    | @node _ _ _ children children' _ hchildren =>
      rw [extract, extract]
      have hrel := getElem?_alike hchildren i.toNat
      generalize children[i.toNat]? = x, children'[i.toNat]? = x' at hrel ⊢
      cases hrel with
      | none => exact .meaningless
      | some hchild => exact ih hchild

theorem inStep_insert {object object' : Tree} (ho : object.Alike p.types object') {path : List Word}
    (ht : t.Alike p.types t') :
    EmitInStep L p (insert object path t) (insert object' path t') fun q => Tree.Alike q.types := by
  induction path generalizing t t' with
  | nil =>
    rw [insert, insert]
    exact .pure fun _ hq => ho.mono hq.types
  | cons i rest ih =>
    cases ht with
    | leaf hty =>
      rw [insert, insert]
      refine .lift_same (inStep_registerLanes _) fun lanes => ?_
      split
      · exact .meaningless
      · refine .lift_same (inStep_register ho) fun value => ?_
        exact Emit.inStep_leafOf hty inStep_insertLane
    | @node _ _ _ children children' hty hchildren =>
      rw [insert, insert]
      have hrel := getElem?_alike hchildren i.toNat
      generalize children[i.toNat]? = x, children'[i.toNat]? = x' at hrel ⊢
      cases hrel with
      | none => exact .meaningless
      | some hchild =>
        refine (ih hchild).bind fun q hq u u' hu => ?_
        exact .lift (inStep_node (hty.mono hq.types) (set_alike (Tree.Alike.monoList hq.types hchildren) hu _))

mutual

theorem inStep_copy : {p : Pairing} → {t t' : Tree} → t.Alike p.types t' →
    InStep L p (copy t) (copy t') fun q => Tree.Alike q.types
  | _, .leaf .., _, .leaf hty => by
    rw [copy, copy]
    exact inStep_leaf hty _
  | _, .node .., _, .node hty hchildren => by
    rw [copy, copy]
    exact (inStep_copyList hchildren).bind fun _ hq _ _ hts =>
      inStep_node (hty.mono hq.types) hts

theorem inStep_copyList : {p : Pairing} → {ts ts' : List Tree} → List.Forall₂ (Tree.Alike p.types) ts ts' →
    InStep L p (copyList ts) (copyList ts') fun q => List.Forall₂ (Tree.Alike q.types)
  | _, [], _, .nil => by
    rw [copyList]
    exact .pure fun _ _ => .nil
  | _, _ :: _, _, .cons ht hts => by
    rw [copyList, copyList]
    refine (inStep_copy ht).bind fun q hq u u' hu => ?_
    refine (inStep_copyList (Tree.Alike.monoList hq.types hts)).bind fun q₁ hq₁ us us' hus => ?_
    exact .pure fun q₂ hq₂ =>
      .cons (hu.mono (hq₁.trans hq₂).types) (Tree.Alike.monoList hq₂.types hus)

end

theorem inStep_shuffleLanes {a b : Register} {widthA widthB : Nat} {undef : Option Register}
    {cs : List Word} : EmitSteady L p (shuffleLanes a b widthA widthB undef cs) := by
  induction cs generalizing p undef with
  | nil =>
    rw [shuffleLanes]
    exact .pure fun _ _ => rfl
  | cons c cs ih =>
    rw [shuffleLanes]
    split
    · dsimp only
      have hrest {q : Pairing} (r : Register) : EmitSteady L q (do
          let rest ← shuffleLanes a b widthA widthB (some r) cs
          return (r, (0 : Word)) :: rest) :=
        ih.bind_same fun rest => .pure fun _ _ => rfl
      cases undef with
      | some r => simp_all
      | none => exact Emit.inStep_instruction.bind_same fun r => hrest r
    · split
      · exact ih.bind_same fun rest => .pure fun _ _ => rfl
      · exact .throw

theorem inStep_shuffle {a b : Register} {lanes : List Word} : EmitSteady L p (shuffle a b lanes) := by
  refine .lift_same (inStep_registerLanes a) fun widthA => ?_
  refine .lift_same (inStep_registerLanes b) fun widthB => ?_
  refine inStep_shuffleLanes.bind_same fun lanes => ?_
  dsimp only
  split
  · exact .throw
  · exact Emit.inStep_gather

theorem inStep_compositeValue (i : RawInstruction) (hty : p.types.Maps ty ty') :
    EmitInStep L p (compositeValue i ty) (compositeValue i ty') fun q => Tree.Alike q.types := by
  unfold compositeValue
  split
  · exact inStep_construct i hty
  · exact (Emit.inStep_treeOperand i 2).bind fun _ hq _ _ ht => inStep_extract (hty.mono hq.types) ht
  · refine (Emit.inStep_treeOperand i 2).bind fun _ _ object object' ho => ?_
    exact (Emit.inStep_treeOperand i 3).bind fun _ hq t t' ht => inStep_insert (ho.mono hq.types) ht
  · refine (Emit.inStep_registerOperand i 2).bind_same fun a => ?_
    refine (Emit.inStep_registerOperand i 3).bind_same fun b => ?_
    exact Emit.inStep_leafOf hty inStep_shuffle
  · refine (Emit.inStep_registerOperand i 2).bind_same fun vector => ?_
    refine (Emit.inStep_registerOperand i 3).bind_same fun index => ?_
    refine .lift_same (inStep_registerLanes vector) fun lanes => ?_
    exact Emit.inStep_leafOf hty inStep_extractDynamic
  · refine (Emit.inStep_registerOperand i 2).bind_same fun vector => ?_
    refine (Emit.inStep_registerOperand i 3).bind_same fun value => ?_
    refine (Emit.inStep_registerOperand i 4).bind_same fun index => ?_
    refine .lift_same (inStep_registerLanes vector) fun lanes => ?_
    exact Emit.inStep_leafOf hty inStep_insertDynamic
  · exact (Emit.inStep_treeOperand i 2).bind fun _ _ _ _ ht => .lift (inStep_copy ht)
  · exact .throw

theorem inStep_composite (i : RawInstruction) : EmitSteady L p (composite i) Done := by
  refine .lift_bind (inStep_typeOperand i 0) fun q hq ty ty' hty => ?_
  refine .lift_same (inStep_operand i 1) fun id => ?_
  exact (inStep_compositeValue i hty).bind fun _ _ _ _ ht =>
    .lift (inStep_defineTree id ht)

/-! ### Matrices -/

theorem inStep_columns (ht : t.Alike p.types t') : InStep L p (columns t) (columns t') Equal := by
  cases ht with
  | leaf => exact .pure fun _ _ => rfl
  | node _ hchildren =>
    rw [columns, columns]
    refine (InStep.mapM (S := Equal) hchildren (fun _ _ _ _ _ h => h) ?_).mono fun _ _ _ _ => eq_of_forall₂_eq
    exact fun t t' ht => inStep_register ht

theorem inStep_firstColumn (columns : List Register) : Steady L p (firstColumn columns) := by
  unfold firstColumn
  split
  · exact .pure fun _ _ => rfl
  · exact .meaningless fun _ => rfl

theorem inStep_scalarOfTree (ht : t.Alike p.types t') : InStep L p (scalarOfTree t) (scalarOfTree t') Equal := by
  refine (inStep_shape ht.maps_ty).bind fun q hq s s' hs => ?_
  rw [hs.scalar?_eq]
  cases s.scalar? with
  | some scalar => exact .pure fun _ _ => rfl
  | none => exact .meaningless fun _ => rfl

theorem inStep_matrixOfColumns (scalar : Scalar) (columns : List Register) (rows : Nat) :
    Steady L p (matrixOfColumns scalar columns rows) fun q => Tree.Alike q.types := by
  unfold matrixOfColumns
  simp only [← bind_assoc]
  refine (inStep_keepTypes (fun types => types.matrix? scalar columns.length rows)
    (fun types => types.matrix? scalar columns.length rows) (fun _ _ => True) ?_ ?_).bind
    fun q hq ty ty' hty => ?_
  · intro q hq types types' htypes
    exact ⟨htypes.matrix? scalar columns.length rows, fun ty' found h =>
      ⟨Types.extends_of_matrix? h, trivial⟩⟩
  · exact fun _ _ _ _ _ _ => rfl
  · split
    · exact inStep_leaf hty.1 _
    · simp only [bind_assoc]
      refine (inStep_childType hty.1 0).bind fun q₁ hq₁ column column' hcolumn => ?_
      refine InStep.bind (.mapM_trees fun r _ => ?_) fun q₂ hq₂ ts ts' hts => ?_
      · exact inStep_leaf hcolumn r
      · exact inStep_node (hty.1.mono (hq₁.trans hq₂).types) hts

theorem inStep_knownTranspose? (ht : t.Alike p.types t') :
    InStep L p (knownTranspose? t) (knownTranspose? t') fun q => Option.Rel (Tree.Alike q.types) := by
  refine InStep.get.bind fun q hq c c' hc => ?_
  rw [ht.key_eq]
  exact .pure fun q' hq' =>
    (lookup_alike hc.transposes t.key).mono fun _ _ hu => hu.mono hq'.types

theorem inStep_transpose (ht : t.Alike p.types t') :
    EmitInStep L p (transpose t) (transpose t') fun q => Tree.Alike q.types := by
  refine .lift_bind (inStep_knownTranspose? ht) fun q hq known known' hknown => ?_
  have ht₁ := ht.mono hq.types
  cases hknown with
  | some hu => exact .pure fun _ hq' => hu.mono hq'.types
  | none =>
    refine .lift_same (inStep_columns ht₁) fun columns => ?_
    refine .lift_same (inStep_firstColumn columns) fun first => ?_
    refine .lift_same (inStep_registerLanes first) fun rows => ?_
    refine .lift_same (inStep_scalarOfTree ht₁) fun scalar => ?_
    refine EmitInStep.bind_same (.mapM_same fun row _ => Emit.inStep_gather) fun transposed => ?_
    refine .lift_bind (inStep_matrixOfColumns scalar transposed columns.length)
      fun q₂ hq₂ result result' hresult => ?_
    refine EmitInStep.seq (.modify fun q₃ hq₃ c c' hc => ?_) ?_
    · have hr := hresult.mono hq₃.types
      have hm := ht₁.mono (hq₂.trans hq₃).types
      exact { hc with
        transposes := .cons ⟨hm.key_eq, hr⟩ (.cons ⟨hr.key_eq, hm⟩ hc.transposes) }
    · exact .pure fun _ hq' => hresult.mono hq'.types

/-! ### Products -/

theorem inStep_columnByRows (inner : Nat) (rows : List Register) (column : Register) :
    EmitSteady L p (columnByRows inner rows column) := by
  refine EmitInStep.bind_same (.mapM_same fun row _ => ?_) fun lanes => Emit.inStep_gather
  exact Emit.inStep_alu.bind_same fun r => .pure fun _ _ => rfl

theorem inStep_columnByColumns (first : Register) (others : List Register) (rows : Nat)
    (column : Register) : EmitSteady L p (columnByColumns first others rows column) := by
  refine Emit.inStep_aluWith.bind_same fun start => .foldlM_same fun sum other => ?_
  exact Emit.inStep_aluWith.bind_same fun term => Emit.inStep_alu

theorem inStep_productColumns (first : Register) (left right : List Register) (rows : Nat)
    (rowsOfLeft : Option (List Register)) : EmitSteady L p (productColumns first left right rows rowsOfLeft) := by
  cases rowsOfLeft with
  | some rowsOfLeft => exact .mapM_same fun r _ => inStep_columnByRows _ _ r
  | none => exact .mapM_same fun r _ => inStep_columnByColumns _ _ _ r

theorem inStep_multiplyColumns {a a' b b' : Tree} (ha : a.Alike p.types a') (hb : b.Alike p.types b') :
    EmitInStep L p (multiplyColumns a b) (multiplyColumns a' b') fun q => Tree.Alike q.types := by
  refine .lift_same (inStep_scalarOfTree ha) fun scalar => ?_
  refine .lift_same (inStep_columns ha) fun left => ?_
  refine .lift_same (inStep_columns hb) fun right => ?_
  refine .lift_same (inStep_firstColumn left) fun first => ?_
  refine .lift_same (inStep_registerLanes first) fun rows => ?_
  refine .lift_same (inStep_firstColumn right) fun firstRight => ?_
  refine .lift_same (inStep_registerLanes firstRight) fun inner => ?_
  dsimp only
  split
  · exact .meaningless
  · refine .lift_bind (inStep_knownTranspose? ha) fun q hq known known' hknown => ?_
    have hafter (rowsOfLeft : Option (List Register)) : EmitSteady L q (do
        matrixOfColumns scalar (← productColumns first left right rows rowsOfLeft) rows)
        fun q => Tree.Alike q.types :=
      (inStep_productColumns first left right rows _).bind_same fun product =>
        .lift (inStep_matrixOfColumns scalar product rows)
    cases hknown with
    | none => exact EmitInStep.bind_same (.pure fun _ _ => rfl) hafter
    | some ht =>
      dsimp only
      split
      · refine EmitInStep.bind_same ?_ hafter
        rw [← bind_pure_comp, ← bind_pure_comp]
        exact .lift_same (inStep_columns ht) fun _ => .pure fun _ _ => rfl
      · exact EmitInStep.bind_same (.pure fun _ _ => rfl) hafter

theorem inStep_multiply {a a' b b' : Tree} (ha : a.Alike p.types a') (hb : b.Alike p.types b') :
    EmitInStep L p (multiply a b) (multiply a' b') fun q => Tree.Alike q.types := by
  refine .lift_bind (inStep_knownTranspose? ha) fun q hq x x' hx => ?_
  refine .lift_bind (inStep_knownTranspose? (hb.mono hq.types)) fun q₁ hq₁ y y' hy => ?_
  have ha₁ := ha.mono (hq.trans hq₁).types
  have hb₁ := hb.mono (hq.trans hq₁).types
  cases hx with
  | none => exact inStep_multiplyColumns ha₁ hb₁
  | some hleft =>
    cases hy with
    | none => exact inStep_multiplyColumns ha₁ hb₁
    | some hright =>
      exact (inStep_multiplyColumns hright (hleft.mono hq₁.types)).bind fun _ _ _ _ ht =>
        inStep_transpose ht

theorem inStep_matrixValue (i : RawInstruction) (hty : p.types.Maps ty ty')
    {a a' : Tree} (ha : a.Alike p.types a') :
    EmitInStep L p (matrixValue i ty a) (matrixValue i ty' a') fun q => Tree.Alike q.types := by
  unfold matrixValue
  split
  · exact inStep_transpose ha
  · refine (Emit.inStep_registerOperand i 3).bind_same fun scalar => ?_
    refine .lift_same (inStep_columns ha) fun columns => ?_
    refine .lift_same (inStep_firstColumn columns) fun first => ?_
    refine .lift_same (inStep_registerLanes first) fun rows => ?_
    refine .lift_bind (inStep_childType hty 0) fun q hq part part' hpart => ?_
    exact Emit.inStep_nodeOf (hty.mono hq.types) fun column _ => Emit.inStep_leafOf hpart Emit.inStep_alu
  · refine (Emit.inStep_treeOperand i 3).bind fun q hq m m' hm => ?_
    exact (inStep_transpose hm).bind fun q₁ hq₁ t t' ht =>
      inStep_multiply ht (ha.mono (hq.trans hq₁).types)
  · exact (Emit.inStep_treeOperand i 3).bind fun q hq b b' hb => inStep_multiply (ha.mono hq.types) hb
  · exact (Emit.inStep_treeOperand i 3).bind fun q hq b b' hb => inStep_multiply (ha.mono hq.types) hb
  · refine .lift_same (inStep_register ha) fun column => ?_
    refine (Emit.inStep_registerOperand i 3).bind_same fun row => ?_
    refine .lift_same (inStep_registerLanes column) fun rows => ?_
    refine .lift_same (inStep_registerLanes row) fun count => ?_
    refine .lift_bind (inStep_childType hty 0) fun q hq part part' hpart => ?_
    exact Emit.inStep_nodeOf (hty.mono hq.types) fun lane _ => Emit.inStep_leafOf hpart Emit.inStep_aluWith
  · exact .throw

theorem inStep_matrix (i : RawInstruction) : EmitSteady L p (matrix i) Done := by
  refine .lift_bind (inStep_typeOperand i 0) fun q hq ty ty' hty => ?_
  refine .lift_same (inStep_operand i 1) fun id => ?_
  refine (Emit.inStep_treeOperand i 2).bind fun q₂ hq₂ a a' ha => ?_
  exact (inStep_matrixValue i (hty.mono hq₂.types) ha).bind fun _ _ _ _ ht =>
    .lift (inStep_defineTree id ht)

/-! ### Pointers -/

theorem inStep_lookupPointer (id : Id) : Steady L p (Lower.lookup (·.pointer id))
      fun q => Pointer.Alike q.types :=
  .lookup fun _ _ _ _ ht => ht.pointer id

theorem inStep_constantIndex? (id : Id) : Steady L p (constantIndex? id) := by
  refine (InStep.lookup (R := fun q k k' => k' = k ∧ ∀ n ∈ k, n < q.constants)
    fun q _ t t' ht => ht.constant? id).bind fun q hq k k' ⟨hk, hlt⟩ => ?_
  subst hk
  cases k' with
  | none => exact .pure fun _ _ => rfl
  | some n =>
    refine (inStep_constant (hlt n rfl)).bind fun q₁ hq₁ K K' hK => ?_
    rw [hK.bits?_eq]
    exact .pure fun _ _ => rfl

theorem inStep_indexOf (id : Id) (known : Option Word) : EmitSteady L p (indexOf id known) := by
  cases known with
  | some i => exact .pure fun _ _ => rfl
  | none => exact (Emit.inStep_registerOf id).bind_same fun _ => .pure fun _ _ => rfl

theorem inStep_indexPointer (chain : Id) {a a' : Pointer} (ha : a.Alike p.types a') (index : Id) :
    EmitInStep L p (indexPointer chain a index) (indexPointer chain a' index) fun q => Pointer.Alike q.types := by
  unfold indexPointer
  rw [ha.lane.isSome_eq, ha.place]
  dsimp only
  split
  · exact .meaningless
  · refine .lift_same (inStep_constantIndex? index) fun known => ?_
    refine .lift_bind (inStep_shape ha.ty) fun q hq s s' hs => ?_
    have hp := ha.mono hq.types
    have hpart (place : Place) (n : Nat) :
        EmitInStep L q (do return { a with place, ty := ← Lower.childType a.ty n })
          (do return { a' with place, ty := ← Lower.childType a'.ty n })
          fun q => Pointer.Alike q.types := by
      refine .lift_bind (inStep_childType hp.ty n) fun r₁ hr₁ ty ty' hty => ?_
      exact .pure fun r₂ hr₂ => ⟨rfl, hty.mono hr₂.types, (hp.mono (hr₁.trans hr₂).types).lane⟩
    cases hs using Shape.Alike.kinds with
    | struct =>
      cases known with
      | none => exact .throw
      | some member => exact hpart _ _
    | array | matrix => exact (inStep_indexOf index known).bind_same fun i => hpart _ _
    | vector =>
      refine (inStep_indexOf index known).bind_same fun i => ?_
      refine .lift_bind (inStep_childType hp.ty 0) fun r₁ hr₁ ty ty' hty => ?_
      exact .pure fun r₂ hr₂ => ⟨rfl, hty.mono hr₂.types, .some ⟨rfl, hp.ty.mono (hr₁.trans hr₂).types⟩⟩
    | _ => exact .meaningless

theorem inStep_definePointer (id : Id) {a a' : Pointer} (ha : a.Alike p.types a') :
    InStep L p (Lower.define id (.pointer a)) (Lower.define id (.pointer a')) Done :=
  inStep_define id (.pointer ha)

theorem inStep_accessChain (i : RawInstruction) : EmitSteady L p (accessChain i) Done := by
  refine .lift_same (inStep_operand i 1) fun id => ?_
  refine .lift_same (inStep_operand i 2) fun base => ?_
  refine .lift_bind (inStep_lookupPointer base) fun q₂ hq₂ a a' ha => ?_
  rw [ha.lane.isSome_eq]
  dsimp only
  split
  · exact .meaningless
  · refine EmitInStep.bind (.foldlM (S := fun q => Pointer.Alike q.types)
      (fun _ _ hq _ _ ha => ha.mono hq.types) (fun q _ a a' index ha => ?_) ha)
      fun q₃ hq₃ a a' ha => .lift (inStep_definePointer id ha)
    exact inStep_indexPointer id ha index

/-! ### Loads -/

theorem inStep_loadRegister (place : Place) (hty : p.types.Maps ty ty') :
    EmitInStep L p (loadRegister place ty) (loadRegister place ty') Equal := by
  refine .lift_same (inStep_lanes hty) fun lanes => ?_
  refine Emit.inStep_instruction.bind_same fun r => ?_
  refine .lift_bind (inStep_shape hty) fun q₂ hq₂ s s' hs => ?_
  refine EmitInStep.get.bind fun q₃ hq₃ c c' hc => ?_
  have hmode : (c'.module.vars[place.root]?).any (·.mode = .uniform) =
      (c.module.vars[place.root]?).any (·.mode = .uniform) := by
    have hvar := hc.vars place.root
    generalize c.module.vars[place.root]? = x, c'.module.vars[place.root]? = x' at hvar ⊢
    cases hvar with
    | none => rfl
    | some hv => simp only [Option.any_some, hv.mode_eq]
  rw [hmode, hs.scalar?_eq]
  dsimp only
  split
  · exact Emit.inStep_loadConst.bind_same fun nothing => Emit.inStep_alu
  · exact .pure fun _ _ => rfl

theorem inStep_loadTreeWithin {place : Place} (hty : p.types.Maps ty ty')
    {depth depth' : Nat} (hdepth : Lower.Suffices L p ty' depth depth') :
    EmitInStep L p (loadTreeWithin depth place ty) (loadTreeWithin depth' place ty')
      fun q => Tree.Alike q.types := by
  induction depth generalizing p place ty ty' depth' with
  | zero => exact fun _ _ _ _ _ _ hs => absurd hs hdepth.not_zero
  | succ depth ih =>
    obtain ⟨depth', rfl⟩ := Nat.exists_eq_add_of_le' hdepth.pos
    rw [loadTreeWithin, loadTreeWithin]
    refine .lift_bind (inStep_knownShape hty) fun q hq s s' h => ?_
    obtain ⟨hs, hknown, -⟩ := h
    rw [hs.isRegister_eq, hs.childCount?_eq]
    have hty' := hty.mono hq.types
    split
    · exact Emit.inStep_leafOf hty' (inStep_loadRegister place hty')
    · next hregister =>
      cases s.childCount? with
      | none => exact .lift (.meaningless_type hty' .cannotLoad)
      | some count =>
        have hcomposite := hs.isRegister_eq.trans (Bool.eq_false_of_not_eq_true hregister)
        refine Emit.inStep_nodeOf hty' fun i _ => ?_
        refine .lift_bind (inStep_earlierChild hty' i) fun _ _ child child' h => ?_
        obtain ⟨hmaps, hchild⟩ := h
        rw [hs.child_eq]
        exact ih hmaps (hdepth.child hq hknown hcomposite hchild)

theorem inStep_loadTree (place : Place) (hty : p.types.Maps ty ty') :
    EmitInStep L p (loadTree place ty) (loadTree place ty') fun q => Tree.Alike q.types :=
  EmitInStep.bind (.lift inStep_typeDepth) fun _ hq _ _ hdepth =>
    inStep_loadTreeWithin (hty.mono hq.types) (hdepth _ _ (hty.mono hq.types))

theorem inStep_loadThrough {a a' : Pointer} (id : Id) (ha : a.Alike p.types a') :
    EmitInStep L p (loadThrough id a) (loadThrough id a') Done := by
  obtain ⟨place, ty, lane⟩ := a
  obtain ⟨place', ty', lane'⟩ := a'
  obtain ⟨rfl, hty, hlane⟩ := ha
  cases hlane with
  | none =>
    exact (inStep_loadTree place' hty).bind fun _ _ _ _ ht =>
      .lift (inStep_defineTree id ht)
  | @some l l' hl =>
    obtain ⟨index, vector⟩ := l
    obtain ⟨index', vector'⟩ := l'
    obtain ⟨rfl, hvector⟩ := hl
    refine .lift_same (inStep_lanes hvector) fun lanes => ?_
    refine (inStep_loadRegister place' hvector).bind_same fun whole => ?_
    have hdefine (x : Register) := EmitInStep.lift (inStep_defineRegister (L := L) id hty x)
    cases index' with
    | direct i => exact Emit.inStep_lane.bind_same hdefine
    | dynamic i => exact inStep_extractDynamic.bind_same hdefine

theorem inStep_load (i : RawInstruction) : EmitSteady L p (load i) Done := by
  refine .lift_same (inStep_operand i 1) fun id => ?_
  refine .lift_same (inStep_operand i 2) fun source => ?_
  refine .lift_bind (inStep_lookupPointer source) fun q₂ hq₂ a a' ha => ?_
  refine .lift_bind (inStep_shape ha.ty) fun q₃ hq₃ s s' hs => ?_
  have ha₃ := ha.mono hq₃.types
  cases hs using Shape.Alike.kinds with
  | sampler => exact .lift (inStep_definePointer id ha₃)
  | _ => exact inStep_loadThrough id ha₃

/-! ### Stores and copies -/

mutual

theorem inStep_storeTree (place : Place) : {p : Pairing} → {t t' : Tree} → t.Alike p.types t' →
    EmitInStep L p (storeTree place t) (storeTree place t') Done
  | _, .leaf .., _, .leaf hty => by
    rw [storeTree, storeTree]
    refine .lift_same (inStep_lanes hty) fun lanes => ?_
    exact Emit.inStep_instruction.bind_same fun _ => .pure fun _ _ => trivial
  | _, .node .., _, .node hty hchildren => by
    rw [storeTree, storeTree]
    refine .lift_bind (inStep_shape hty) fun q hq s s' hs => ?_
    exact inStep_storeChildren place hs 0 (Tree.Alike.monoList hq.types hchildren)

theorem inStep_storeChildren (place : Place) {s s' : Shape} : {p : Pairing} → s.Alike L p.types s' →
    (index : Nat) → {ts ts' : List Tree} → List.Forall₂ (Tree.Alike p.types) ts ts' →
    EmitInStep L p (storeChildren place s index ts) (storeChildren place s' index ts') Done
  | _, _, _, [], _, .nil => by
    rw [storeChildren, storeChildren]
    exact .pure fun _ _ => trivial
  | _, hs, index, _ :: _, _, .cons ht hts => by
    rw [storeChildren, storeChildren, hs.child_eq]
    exact (inStep_storeTree _ ht).seq (inStep_storeChildren place hs (index + 1) hts)

end

theorem inStep_store (i : RawInstruction) : EmitSteady L p (store i) Done := by
  refine .lift_same (inStep_operand i 0) fun target => ?_
  refine .lift_bind (inStep_lookupPointer target) fun q₁ hq₁ a a' ha => ?_
  refine .lift_same (inStep_operand i 1) fun value => ?_
  obtain ⟨place, ty, lane⟩ := a
  obtain ⟨place', ty', lane'⟩ := a'
  obtain ⟨rfl, hty, hlane⟩ := ha
  cases hlane with
  | none => exact (Emit.inStep_treeOf value).bind fun _ _ _ _ ht => inStep_storeTree place' ht
  | @some l l' hl =>
    obtain ⟨index, vector⟩ := l
    obtain ⟨index', vector'⟩ := l'
    obtain ⟨rfl, hvector⟩ := hl
    refine .lift_same (inStep_lanes hvector) fun lanes => ?_
    refine (Emit.inStep_registerOf value).bind_same fun scalar => ?_
    refine Emit.inStep_instruction.bind_same fun whole => ?_
    have hwrite (x : Register) : EmitSteady L q₁
        (do let _ ← Emit.instruction (.storeVar place' x (laneMask lanes))) Done :=
      Emit.inStep_instruction.bind_same fun _ => .pure fun _ _ => trivial
    cases index' with
    | direct i => exact inStep_insertLane.bind_same hwrite
    | dynamic i => exact inStep_insertDynamic.bind_same hwrite

theorem inStep_copyTreeWithin {dst src : Place} (hty : p.types.Maps ty ty')
    {depth depth' : Nat} (hdepth : Lower.Suffices L p ty' depth depth') :
    EmitInStep L p (copyTreeWithin depth dst src ty) (copyTreeWithin depth' dst src ty') Done := by
  induction depth generalizing p dst src ty ty' depth' with
  | zero => exact fun _ _ _ _ _ _ hs => absurd hs hdepth.not_zero
  | succ depth ih =>
    obtain ⟨depth', rfl⟩ := Nat.exists_eq_add_of_le' hdepth.pos
    rw [copyTreeWithin, copyTreeWithin]
    refine .lift_bind (inStep_knownShape hty) fun q hq s s' h => ?_
    obtain ⟨hs, hknown, -⟩ := h
    rw [hs.isRegister_eq, hs.childCount?_eq]
    have hty' := hty.mono hq.types
    split
    · exact Emit.inStep_instruction.bind_same fun _ => .pure fun _ _ => trivial
    · next hregister =>
      cases s.childCount? with
      | none => exact .lift (.meaningless_type hty' .cannotCopy)
      | some count =>
        have hcomposite := hs.isRegister_eq.trans (Bool.eq_false_of_not_eq_true hregister)
        refine EmitInStep.forM_same fun i => ?_
        refine .lift_bind (inStep_earlierChild hty' i) fun _ _ child child' h => ?_
        obtain ⟨hmaps, hchild⟩ := h
        rw [hs.child_eq, hs.child_eq]
        exact ih hmaps (hdepth.child hq hknown hcomposite hchild)

theorem inStep_copyMemory (i : RawInstruction) : EmitSteady L p (copyMemory i) Done := by
  refine .lift_same (inStep_operand i 0) fun target => ?_
  refine .lift_bind (inStep_lookupPointer target) fun q₁ hq₁ a a' ha => ?_
  refine .lift_same (inStep_operand i 1) fun source => ?_
  refine .lift_bind (inStep_lookupPointer source) fun q₃ hq₃ b b' hb => ?_
  rw [ha.lane.isSome_eq, hb.lane.isSome_eq, ha.place, hb.place]
  dsimp only
  split
  · exact .meaningless
  · refine EmitInStep.bind (.lift inStep_typeDepth) fun q₄ hq₄ depth depth' hdepth => ?_
    have hty := hb.ty.mono hq₄.types
    exact inStep_copyTreeWithin hty (hdepth _ _ hty)

/-! ### Extended instructions -/

theorem inStep_vectorLength {v : Register} : EmitSteady L p (vectorLength v) := by
  refine .lift_same (inStep_registerLanes v) fun lanes => ?_
  exact Emit.inStep_alu.bind_same fun dot => Emit.inStep_alu

theorem inStep_applyExtended (lanes : Nat) (rule : ExtendedRule) (rs : List Register) :
    EmitSteady L p (applyExtended lanes rule rs) := by
  unfold applyExtended
  split
  · exact Emit.inStep_alu
  · exact Emit.inStep_loadConst.bind_same fun factor => Emit.inStep_alu
  · exact Emit.inStep_alu.bind_same fun raised => Emit.inStep_alu
  · exact inStep_vectorLength
  · refine .lift_same (inStep_registerLanes _) fun width => ?_
    exact Emit.inStep_alu.bind_same fun delta => inStep_vectorLength
  · refine .lift_same (inStep_registerLanes _) fun width => ?_
    refine Emit.inStep_alu.bind_same fun dot => ?_
    exact Emit.inStep_alu.bind_same fun scale => Emit.inStep_alu
  · exact .throw

theorem inStep_extended (i : RawInstruction) : EmitSteady L p (extended i) Done := by
  refine .lift_bind (inStep_typeOperand i 0) fun q hq ty ty' hty => ?_
  refine .lift_same (inStep_operand i 1) fun id => ?_
  refine .lift_same (inStep_operand i 2) fun set => ?_
  refine .lift_same (.lookup fun _ _ _ _ ht => ht.extendedSet set) fun known => ?_
  cases known with
  | unknown name => exact .throw
  | glsl450 =>
    refine .lift_same (inStep_operand i 3) fun number => ?_
    cases ExtendedRule.ofNumber? number.toNat with
    | none => exact .throw
    | some rule =>
      refine EmitInStep.bind_same (.mapM_same fun id _ => Emit.inStep_registerOf id)
        fun registers => ?_
      dsimp only
      split
      · exact .throw
      · refine .lift_same (inStep_lanes hty) fun lanes => ?_
        exact (inStep_applyExtended lanes rule registers).bind_same fun r =>
          .lift (inStep_defineRegister id hty r)

/-! ### Textures -/

theorem inStep_maskedSources (i : RawInstruction) (roles : List TextureRole) (index : Nat) :
    EmitSteady L p (maskedSources i roles index) :=
  .mapM_same fun entry _ => (Emit.inStep_registerOperand i entry.2).bind_same fun _ =>
    .pure fun _ _ => rfl

theorem inStep_texture (i : RawInstruction) : EmitSteady L p (texture i) Done := by
  refine .lift_bind (inStep_typeOperand i 0) fun q hq ty ty' hty => ?_
  refine .lift_same (inStep_operand i 1) fun id => ?_
  refine .lift_same (inStep_operand i 2) fun image => ?_
  refine .lift_bind (inStep_lookupPointer image) fun q₃ hq₃ a a' ha => ?_
  refine .lift_bind (inStep_shape ha.ty) fun q₄ hq₄ s s' hs => ?_
  have hty₄ := hty.mono (hq₃.trans hq₄).types
  rw [ha.place]
  cases hs using Shape.Alike.kinds with
  | sampler dim shadow arrayed result =>
    refine (Emit.inStep_registerOperand i 3).bind_same fun coordinate => ?_
    split
    · extract_lets access access'
      have haccess (reference : List TextureSource) :
          EmitInStep L q₄ (access reference) (access' reference) Done := by
        simp only [access, access']
        split
        · exact .throw
        · refine (inStep_maskedSources i _ _).bind_same fun further => ?_
          refine .lift_same (inStep_registerLanes coordinate) fun coordinates => ?_
          refine .lift_same (inStep_lanes hty₄) fun lanes => ?_
          exact Emit.inStep_instruction.bind_same fun x => .lift (inStep_defineRegister id hty₄ x)
      split
      · refine (Emit.inStep_registerOperand i 4).bind_same fun value => ?_
        simp_all
      · exact EmitInStep.bind_same (.pure fun _ _ => rfl) haccess
    · exact .throw
  | _ => exact .meaningless

/-! ### Phis -/

theorem inStep_phiTree (hty : p.types.Maps ty ty') :
    EmitInStep L p (phiTree ty) (phiTree ty') fun q => Tree.Alike q.types :=
  Emit.inStep_treeOfType (fun _ _ => Emit.inStep_instruction) hty

theorem inStep_phi (before : Option Id) (i : RawInstruction) : EmitSteady L p (phi before i) Done := by
  refine .lift_bind (inStep_typeOperand i 0) fun q hq ty ty' hty => ?_
  refine .lift_same (inStep_operand i 1) fun id => ?_
  refine .lift_same (inStep_ofExcept _) fun pairs => ?_
  cases before with
  | some label =>
    dsimp only
    cases listedValue? pairs label with
    | none => exact .meaningless
    | some value =>
      exact (Emit.inStep_treeOf value).bind fun _ _ _ _ ht => .lift (inStep_defineTree id ht)
  | none =>
    refine (inStep_phiTree hty).bind fun q₃ hq₃ t t' ht => ?_
    refine EmitInStep.seq (.lift (inStep_defineTree id ht)) ?_
    exact .modify fun q₅ hq₅ c c' hc =>
      { hc with
        pendingPhis := .cons ⟨rfl, ht.mono hq₅.types⟩ hc.pendingPhis }

end Code

/-! ### Instructions of a block -/

namespace Body

theorem inStep_undef (i : RawInstruction) : EmitSteady L p (undef i) Done := by
  refine .lift_bind (inStep_typeOperand i 0) fun q hq ty ty' hty => ?_
  refine (Emit.inStep_treeOfType (fun _ _ => Emit.inStep_instruction) hty).bind fun q₁ hq₁ t t' ht => ?_
  exact .lift_same (inStep_operand i 1) fun id => .lift (inStep_defineTree id ht)

theorem inStep_instruction (before : Option Id) (i : RawInstruction)
    (hi : (Event.instruction i.op i.length).width? = none) :
    EmitSteady L p (instruction before i) Done := by
  unfold instruction
  split
  case h_1 | h_2 | h_3 => exact .pure fun _ _ => trivial
  case h_4 => exact inStep_undef i
  case h_5 => exact .lift (Declaration.inStep_variableDeclaration true i)
  case h_6 | h_7 => exact Code.inStep_accessChain i
  case h_8 => exact Code.inStep_load i
  case h_9 => exact Code.inStep_store i
  case h_10 => exact Code.inStep_copyMemory i
  case h_11 => exact Code.inStep_phi before i
  case h_12 | h_13 | h_14 | h_15 | h_16 | h_17 | h_18 => exact Code.inStep_composite i
  case h_19 | h_20 | h_21 | h_22 | h_23 | h_24 => exact Code.inStep_matrix i
  case h_25 | h_26 | h_27 | h_28 | h_29 => exact Code.inStep_texture i
  case h_30 => exact Code.inStep_extended i
  split
  · next rule hrule =>
    refine Code.inStep_arithmetic (fun dx dy hwidth => ?_) i
    rw [Event.width?, hrule, hwidth] at hi
    cases hi
  · exact .throw

theorem instruction_width {before : Option Id} {i : RawInstruction} {dx dy : AluOp}
    (hi : Code.AluRule.ofOpcode? i.op = some (.fwidth dx dy)) :
    instruction before i = Code.arithmetic (.fwidth dx dy) i := by
  unfold instruction
  split
  case h_31 => rw [hi]
  all_goals
    rename_i hop
    rw [hop] at hi
    cases hi

theorem inStep_width (hp : p.due = []) {before : Option Id} {i : RawInstruction} {dx dy : AluOp}
    (hi : Code.AluRule.ofOpcode? i.op = some (.fwidth dx dy)) :
    EmitSteady L p (reported before i) Done := by
  rw [reported, instruction_width hi]
  intro spot q hq c c' hc
  have hq₀ : q.due = [] := hq.due.trans hp
  -- the width is due from here on, and until its code is there
  have hdue : Context.Alike L { q with due := [(dx, dy)] }
      { c with events := .instruction i.op i.length :: c.events }
      { c' with events := .instruction i.op i.length :: c'.events } := by
    have hwidths := hc.widths
    rw [Context.widths, Pairing.announced, hq₀, append_nil] at hwidths
    refine { hc with widths := ?_ }
    have hwidth : (Event.instruction i.op i.length).width? = some (dx, dy) := by
      rw [Event.width?, hi]
    rw [Context.widths, reverse_cons, filterMap_append, hwidths, Pairing.announced]
    simp [hwidth, Pairing.past]
  refine (Code.abreast_arithmetic_width hdue rfl i).mono fun _ _ d d' h => ?_
  obtain ⟨q', hq', hd⟩ := h
  exact ⟨q', ⟨hq'.types, hq'.known, hq'.constants, hq'.made, hq'.due.trans hq₀.symm⟩, hd, trivial⟩

theorem inStep_reported (hp : p.due = []) (before : Option Id) (i : RawInstruction) :
    EmitSteady L p (reported before i) Done := by
  cases hi : (Event.instruction i.op i.length).width? with
  | none =>
    exact EmitInStep.seq (.lift (inStep_report hi _)) (inStep_instruction before i hi)
  | some pair =>
    rw [Event.width?] at hi
    split at hi
    · next hrule => exact inStep_width hp hrule
    · cases hi

theorem phi_offset (before : Option Id) (i : RawInstruction) (offset : Nat) :
    Code.phi before { i with offset } = Code.phi before i := by
  unfold Code.phi Code.phiPairs
  simp only [RawInstruction.pairsFrom_offset]
  rfl

theorem instruction_offset (before : Option Id) (i : RawInstruction) (offset : Nat) :
    instruction before { i with offset } = instruction before i := by
  unfold instruction
  simp only [phi_offset]
  rfl

end Body

end ShaderIR.Spirv
