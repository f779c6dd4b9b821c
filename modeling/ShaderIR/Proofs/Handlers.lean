import ShaderIR.Proofs.Emission
import ShaderIR.Spirv.Body

/-!
# Every instruction of a block makes code

Each instruction of a block only makes code at its spot, and no code it makes leaves the block.
-/

namespace ShaderIR.Spirv

open EStateM List Lower

/-- An instruction that does not leave its block. -/
def Stays (i : Instruction) : Prop := i.exit? = none

theorem stays_phi (lanes : Nat) : Stays (.phi [] lanes) := rfl

/-- An instruction that does not leave its block and is no phi. -/
def Plain (i : Instruction) : Prop := i.exit? = none ∧ i.isPhi = false

theorem plain_loadConst (bits : List Word) : Plain (.loadConst bits) := ⟨rfl, rfl⟩

theorem Grows.stays {spot : Spot} {c c' : Context} (h : Grows Plain spot c c') :
    Grows Stays spot c c' := h.weaken fun _ hi => hi.1

variable {spot : Spot} {b : Bench}

/-! ### Operations -/

variable {r vector : Register} {lanes : Nat} {rs : List Register} {t : Tree}

namespace Emit

variable {i : Instruction} {op : AluOp} {lanes : Nat}

theorem makes_plain (hi : Plain i) (hc : b.context.Admits i) :
    Makes Plain spot b (instruction i) fun _ _ => True :=
  (makes_instruction hi hc).trivially

theorem makes_aluWith {sources : List Source} : Makes Plain spot b (aluWith op sources lanes) fun _ _ => True :=
  makes_plain ⟨rfl, rfl⟩ (Context.admits_of_nil rfl rfl)

theorem makes_aluLanes {registers : List Register} :
    Makes Plain spot b (alu op registers lanes) fun b' r => HasLanes b'.context r lanes := by
  refine .bind (.each registers fun r _ b' _ => ?_) fun _ sources _ _ => ?_
  · exact .look fun _ _ => .pure trivial
  · have hplain : Plain (.alu op sources lanes) := ⟨rfl, rfl⟩
    exact (makes_instruction hplain (Context.admits_of_nil rfl rfl)).mono fun _ _ _ hr => ⟨_, hr.1, rfl⟩

theorem makes_alu {registers : List Register} : Makes Plain spot b (alu op registers lanes) fun _ _ => True :=
  makes_aluLanes.trivially

theorem makes_loadConst {bits : List Word} : Makes Plain spot b (loadConst bits) fun _ _ => True :=
  makes_plain ⟨rfl, rfl⟩ (Context.admits_of_nil rfl rfl)

theorem makes_lane {index : Word} : Makes Plain spot b (lane r index) fun _ _ => True := makes_aluWith

theorem makes_gather {sources : List (Register × Word)} : Makes Plain spot b (gather sources) fun b' r =>
      b'.context.function.instructions[r]? = some (gatherInstruction sources) := by
  have hplain : Plain (gatherInstruction sources) := ⟨rfl, rfl⟩
  exact (makes_instruction hplain (Context.admits_of_nil rfl rfl)).mono fun _ _ _ h => h.1

end Emit

namespace Code

variable {i : RawInstruction} {ty : TypeId}

/-! ### Arithmetic -/

theorem makes_fwidth {dx dy : AluOp} : Makes Plain spot b (fwidth dx dy r lanes) fun _ _ => True := by
  refine .get ?_
  refine .bind Emit.makes_alu fun _ _ _ _ => ?_
  refine .bind Emit.makes_alu fun _ _ _ _ => ?_
  refine .bind Emit.makes_alu fun _ _ _ _ => ?_
  exact .bind Emit.makes_alu fun _ _ _ _ => Emit.makes_alu

theorem makes_applyRule {op : Opcode} {rule : AluRule} :
    Makes Plain spot b (applyRule op lanes rule rs) fun _ _ => True := by
  unfold applyRule
  split
  · exact Emit.makes_alu
  · exact Emit.makes_alu
  · exact .look fun _ _ => Emit.makes_alu
  · exact .look fun _ _ => Emit.makes_alu
  · exact .look fun _ _ => Emit.makes_alu
  · exact Emit.makes_alu
  · exact makes_fwidth
  · exact .throw _ rfl

theorem gives_defineTree {kinds : Instruction → Prop} {id : Id} (hid : i.operand 1 = .ok id)
    (ht : t ∈ b.trees) : Lower.Gives kinds spot b i (Lower.define id (.tree t)) := by
  refine gives_define hid ?_ (.inl ⟨t, rfl⟩) (by simp)
  rintro t' ⟨⟩
  exact ht

theorem gives_defineRegister {id : Id} (hid : i.operand 1 = .ok id) :
    Lower.Gives Plain spot b i (Lower.defineRegister id ty r) :=
  .bind (ensures_leaf ty r) fun _ _ _ ht => gives_defineTree hid ht.1

theorem gives_arithmetic {rule : AluRule} : Emit.Gives Plain spot b i (arithmetic rule i) := by
  refine .look fun ty _ => .operand fun id hid => ?_
  refine .look fun lanes _ => ?_
  refine .bind (.each _ fun id _ _ _ => Emit.makes_registerOf plain_loadConst id) fun b₁ registers _ _ => ?_
  dsimp only
  split
  · exact .throw _ rfl
  · exact .bind makes_applyRule fun _ r _ _ => .lift (gives_defineRegister hid)

/-! ### Lanes chosen at run time -/

theorem makes_extractDynamic {index : Register} :
    Makes Plain spot b (extractDynamic vector lanes index) fun _ _ => True := by
  refine .bind Emit.makes_lane fun _ first _ _ => ?_
  refine .foldlM _ trivial fun acc _ lane _ b' _ => ?_
  refine .bind Emit.makes_loadConst fun _ number _ _ => ?_
  exact .bind Emit.makes_alu fun _ _ _ _ => Emit.makes_aluWith

theorem makes_insertDynamic {value index : Register} :
    Makes Plain spot b (insertDynamic vector lanes value index) fun _ _ => True := by
  refine .bind (.each _ fun lane _ b' _ => ?_) fun _ _ _ _ => Emit.makes_gather.trivially
  refine .bind Emit.makes_loadConst fun _ number _ _ => ?_
  refine .bind Emit.makes_alu fun _ _ _ _ => ?_
  exact .bind Emit.makes_aluWith fun _ _ _ _ => .pure trivial

theorem makes_insertLane {value : Register} {index : Word} :
    Makes Plain spot b (insertLane vector lanes value index) fun _ _ => True :=
  Emit.makes_gather.trivially

/-! ### Composites -/

theorem makes_leafOf {x : Emit Register} (hx : Makes Plain spot b (x) fun _ _ => True) :
    Makes Plain spot b (do Lower.leaf ty (← x)) fun b' t => t ∈ b'.trees :=
  .bind hx fun _ r _ _ => .lift ((ensures_leaf ty r).mono fun _ _ _ h => h.1)

theorem ensures_nodeOver {ts : List Tree} (h : ∀ t ∈ ts, t ∈ b.trees) :
    Ensures Plain spot b (Lower.node ty ts) fun b' t => t ∈ b'.trees :=
  (ensures_node ty h).mono fun _ _ _ h => h.1

theorem makes_construct : Makes Plain spot b (construct i ty) fun b' t => t ∈ b'.trees := by
  unfold construct
  refine .look fun shape _ => ?_
  cases shape.lanes? with
  | some lanes =>
    refine .bind (.each _ fun id _ b' _ => ?_) fun b₁ parts _ _ => ?_
    · refine .bind (Emit.makes_registerOf plain_loadConst id) fun _ r _ _ => ?_
      exact .look fun _ _ => .pure trivial
    · dsimp only
      split
      · exact .throw _ rfl
      · exact makes_leafOf Emit.makes_gather.trivially
  | none =>
    dsimp only
    split
    · exact .throw _ rfl
    · refine .bind (.trees _ fun id _ _ _ => Emit.makes_treeOf plain_loadConst id) fun b₁ ts _ hts => ?_
      exact .lift (ensures_nodeOver hts)

theorem makes_extract {path : List Word} (ht : t ∈ b.trees) :
    Makes Plain spot b (extract ty path t) fun b' t' => t' ∈ b'.trees := by
  induction path generalizing b t with
  | nil =>
    rw [extract]
    exact .pure ht
  | cons i rest ih =>
    cases t with
    | leaf key ty' r =>
      rw [extract]
      split
      · exact .meaningless _
      · refine .look fun lanes _ => ?_
        dsimp only
        split
        · exact .meaningless _
        · exact makes_leafOf Emit.makes_lane
    | node key ty' children =>
      rw [extract]
      cases hchild : children[i.toNat]? with
      | none => exact .meaningless _
      | some child =>
        refine .coming_by (.children ht) (ih ?_)
        exact mem_append_left _ (mem_of_getElem? hchild)

theorem makes_insert {object : Tree} {path : List Word} (ho : object ∈ b.trees) (ht : t ∈ b.trees) :
    Makes Plain spot b (insert object path t) fun b' t' => t' ∈ b'.trees := by
  induction path generalizing b t with
  | nil =>
    rw [insert]
    exact .pure ho
  | cons i rest ih =>
    cases t with
    | leaf key ty r =>
      rw [insert]
      refine .look fun lanes _ => ?_
      split
      · exact .meaningless _
      · refine .look fun value _ => ?_
        exact makes_leafOf makes_insertLane
    | node key ty children =>
      rw [insert]
      cases hchild : children[i.toNat]? with
      | none => exact .meaningless _
      | some child =>
        refine .coming_by (.children ht) (.bind (ih ?_ ?_) fun b₁ replaced h₁ hreplaced => ?_)
        · exact mem_append_right _ ho
        · exact mem_append_left _ (mem_of_getElem? hchild)
        · refine .lift (ensures_nodeOver fun t ht' => ?_)
          rcases mem_or_eq_of_mem_set ht' with h | rfl
          · exact h₁.trees (mem_append_left _ h)
          · exact hreplaced

theorem ensures_copyList (ts : List Tree)
    (h : ∀ t ∈ ts, ∀ {b : Bench}, Ensures Plain spot b (copy t) fun b' t' => t' ∈ b'.trees) {b : Bench} :
    Ensures Plain spot b (copyList ts) fun b' ts' => ∀ t ∈ ts', t ∈ b'.trees := by
  induction ts generalizing b with
  | nil =>
    rw [copyList]
    exact .pure (by simp)
  | cons t ts ih =>
    rw [copyList]
    refine .bind (h t (mem_cons_self ..)) fun b₁ t' _ ht' => ?_
    refine .bind (ih fun t ht => h t (mem_cons_of_mem _ ht)) fun b₂ ts' h₂ hts' => .pure ?_
    simp only [mem_cons, forall_eq_or_imp]
    exact ⟨h₂.trees ht', hts'⟩

theorem ensures_copy (t : Tree) {b : Bench} : Ensures Plain spot b (copy t) fun b' t' => t' ∈ b'.trees := by
  induction t using Tree.inductionOn generalizing b with
  | leaf _ ty r =>
    rw [copy]
    exact (ensures_leaf ty r).mono fun _ _ _ h => h.1
  | node _ ty children ih =>
    rw [copy]
    exact .bind (ensures_copyList children fun t ht => ih t ht) fun _ ts _ hts => ensures_nodeOver hts

theorem makes_shuffleLanes {s : Register} {m n : Nat} {undef : Option Register} {lanes : List Word} :
    Makes Plain spot b (shuffleLanes r s m n undef lanes) fun _ _ => True := by
  induction lanes generalizing b undef with
  | nil =>
    rw [shuffleLanes]
    exact .pure trivial
  | cons c cs ih =>
    rw [shuffleLanes]
    split
    · dsimp only
      have hrest {b : Bench} (u : Register) : Makes Plain spot b (do
            let rest ← shuffleLanes r s m n (some u) cs
            return (u, (0 : Word)) :: rest) fun _ _ => True :=
        .bind ih fun _ _ _ _ => .pure trivial
      cases undef with
      | some u => simp_all
      | none =>
        exact .bind (Emit.makes_plain ⟨rfl, rfl⟩ (Context.admits_of_nil rfl rfl)) fun _ u _ _ => hrest u
    · split
      · exact .bind ih fun _ _ _ _ => .pure trivial
      · exact .throw _ rfl

theorem makes_shuffle {s : Register} {lanes : List Word} :
    Makes Plain spot b (shuffle r s lanes) fun _ _ => True := by
  refine .look fun m _ => ?_
  refine .look fun n _ => ?_
  refine .bind makes_shuffleLanes fun _ lanes _ _ => ?_
  dsimp only
  split
  · exact .throw _ rfl
  · exact Emit.makes_gather.trivially

theorem makes_compositeValue : Makes Plain spot b (compositeValue i ty) fun b' t => t ∈ b'.trees := by
  have hreg {b : Bench} (k : Nat) : Makes Plain spot b (Emit.registerOperand i k) fun _ _ => True :=
    Emit.makes_registerOperand plain_loadConst i k
  have htree {b : Bench} (k : Nat) : Makes Plain spot b (Emit.treeOperand i k) fun b' t => t ∈ b'.trees :=
    Emit.makes_treeOperand plain_loadConst i k
  unfold compositeValue
  split
  · exact makes_construct
  · exact .bind (htree 2) fun _ t _ ht => makes_extract ht
  · refine .bind (htree 2) fun b₁ object _ ho => ?_
    exact .bind (htree 3) fun b₂ t h₂ ht => makes_insert (h₂.trees ho) ht
  · refine .bind (hreg 2) fun _ _ _ _ => .bind (hreg 3) fun _ _ _ _ => ?_
    exact makes_leafOf makes_shuffle
  · refine .bind (hreg 2) fun _ r _ _ => .bind (hreg 3) fun _ _ _ _ => ?_
    exact .look fun _ _ => makes_leafOf makes_extractDynamic
  · refine .bind (hreg 2) fun _ r _ _ => .bind (hreg 3) fun _ _ _ _ => ?_
    refine .bind (hreg 4) fun _ _ _ _ => ?_
    exact .look fun _ _ => makes_leafOf makes_insertDynamic
  · exact .bind (htree 2) fun _ t _ _ => .lift (ensures_copy t)
  · exact .throw _ rfl

theorem gives_composite : Emit.Gives Plain spot b i (composite i) := by
  refine .look fun ty _ => .operand fun id hid => ?_
  exact .bind makes_compositeValue fun _ t _ ht => .lift (gives_defineTree hid ht)

/-! ### Extended instructions -/

theorem makes_vectorLength {v : Register} : Makes Plain spot b (vectorLength v) fun _ _ => True := by
  refine .look fun lanes _ => ?_
  exact .bind Emit.makes_alu fun _ _ _ _ => Emit.makes_alu

theorem makes_applyExtended {rule : ExtendedRule} :
    Makes Plain spot b (applyExtended lanes rule rs) fun _ _ => True := by
  unfold applyExtended
  split
  · exact Emit.makes_alu
  · exact .bind Emit.makes_loadConst fun _ _ _ _ => Emit.makes_alu
  · exact .bind Emit.makes_alu fun _ _ _ _ => Emit.makes_alu
  · exact makes_vectorLength
  · refine .look fun lanes _ => ?_
    exact .bind Emit.makes_alu fun _ _ _ _ => makes_vectorLength
  · refine .look fun lanes _ => ?_
    exact .bind Emit.makes_alu fun _ _ _ _ => .bind Emit.makes_alu fun _ _ _ _ => Emit.makes_alu
  · exact .throw _ rfl

theorem gives_extended : Emit.Gives Plain spot b i (extended i) := by
  refine .look fun ty _ => .operand fun id hid => ?_
  refine .look fun set _ => ?_
  refine .look fun kind _ => ?_
  cases kind with
  | unknown name => exact .throw _ rfl
  | glsl450 =>
    refine .look fun number _ => ?_
    split
    · exact .throw _ rfl
    · refine .bind (.each _ fun id _ _ _ => Emit.makes_registerOf plain_loadConst id) fun _ registers _ _ => ?_
      dsimp only
      split
      · exact .throw _ rfl
      · refine .look fun lanes _ => ?_
        exact .bind makes_applyExtended fun _ _ _ _ => .lift (gives_defineRegister hid)

/-! ### Memory access -/

instance (id : Id) : Lower.Peeks (constantIndex? id) := by
  refine .bind fun c => ?_
  cases c with
  | none => exact inferInstance
  | some c => exact .bind fun _ => inferInstance

theorem makes_indexOf {id : Id} {known : Option Word} :
    Makes Plain spot b (indexOf id known) fun _ _ => True := by
  cases known with
  | some i => exact .pure trivial
  | none => exact .bind (Emit.makes_registerOf plain_loadConst id) fun _ _ _ _ => .pure trivial

theorem makes_indexPointer {chain index : Id} {p : Pointer} :
    Makes Plain spot b (indexPointer chain p index) fun _ q => q.place.root = p.place.root := by
  have hchild {b : Bench} (k : Nat) (f : TypeId → Pointer) (hf : ∀ ty, (f ty).place.root = p.place.root) :
      Makes Plain spot b (do return f (← Lower.childType p.ty k))
        fun _ q => q.place.root = p.place.root :=
    .bind (.lift (ensures_childType p.ty k)) fun _ ty _ _ => .pure (hf ty)
  unfold indexPointer
  dsimp only
  split
  · exact .meaningless _
  · refine .look fun known _ => ?_
    refine .look fun shape _ => ?_
    split
    · split
      · exact .throw _ rfl
      · exact hchild _ _ fun _ => rfl
    · exact .bind makes_indexOf fun _ _ _ _ => hchild 0 _ fun _ => rfl
    · exact .bind makes_indexOf fun _ _ _ _ => hchild 0 _ fun _ => rfl
    · exact .bind makes_indexOf fun _ _ _ _ => hchild 0 _ fun _ => rfl
    · exact .meaningless _

theorem gives_definePointer {id : Id} {p : Pointer} (hid : i.operand 1 = .ok id)
    (hp : b.context.HasRoot p.place.root) :
    Lower.Gives Plain spot b i (Lower.define id (.pointer p)) := by
  refine gives_define hid (by simp) (.inr ⟨p, rfl⟩) ?_
  rintro q ⟨⟩
  exact hp

theorem gives_accessChain : Emit.Gives Plain spot b i (accessChain i) := by
  refine .operand fun id hid => ?_
  refine .look fun base _ => ?_
  refine .look fun pointer hpointer => ?_
  dsimp only
  split
  · exact .meaningless _
  · refine .bind (.foldlM (P := fun p => p.place.root = pointer.place.root) _ rfl
      fun p hp index _ _ _ => makes_indexPointer.mono fun _ _ _ hq => hq.trans hp) fun b₁ p h₁ hp => ?_
    exact .lift (gives_definePointer hid (hp ▸ h₁.grows.hasRoot (Context.hasRoot_of_lookup hpointer)))

theorem makes_loadRegister {place : Place} (hplace : b.context.HasRoot place.root) :
    Makes Plain spot b (loadRegister place ty) fun b' r =>
      ∀ n, Lower.lanes ty b.context = .ok n b.context → HasLanes b'.context r n := by
  refine .look fun lanes hlanes => ?_
  have hplain : Plain (.loadVar place lanes) := ⟨rfl, rfl⟩
  refine Makes.mono (Q := fun b' r => HasLanes b'.context r lanes) ?_ fun _ _ _ hr n hn => ?_
  · refine .bind (Emit.makes_instruction hplain (Context.admits_of_place rfl rfl hplace)) fun _ r _ hr => ?_
    refine .look fun shape _ => ?_
    refine .get ?_
    dsimp only
    split
    · exact .bind Emit.makes_loadConst fun _ _ _ _ => Emit.makes_aluLanes
    · exact .pure ⟨_, hr.1, rfl⟩
  · cases hlanes.symm.trans hn
    exact hr

theorem makes_loadTreeWithin {depth : Nat} {place : Place} (hplace : b.context.HasRoot place.root) :
    Makes Plain spot b (loadTreeWithin depth place ty) (Emit.MadeFor (fun _ _ => True) depth b ty) := by
  have hP (b b' : Bench) (r : Register) (_ : Emits Plain spot b b') (h : True) : True := h
  induction depth generalizing b place ty with
  | zero => exact .throw _ rfl
  | succ depth ih =>
    rw [loadTreeWithin]
    refine .look fun shape hs => ?_
    split
    · next hreg =>
      obtain ⟨n, hn⟩ := Option.isSome_iff_exists.mp hreg
      have hlanes : Lower.lanes ty b.context = .ok n b.context :=
        lanes_of_shape? (shape?_of_shape hs (by rintro rfl; cases hn)) hn
      refine Emit.makes_leafFor hP hs hn ((makes_loadRegister hplace).mono ?_)
      exact fun _ _ _ hr => ⟨hr n hlanes, trivial⟩
    · split
      · exact .meaningless _
      · next hcount =>
        refine Emit.makes_nodeFor hP (f := fun i => loadTreeWithin depth (place.child shape i.toUInt32)) hs hcount
          fun i _ _ hb' => ih ?_
        rw [Place.child_root]
        exact hb'.grows.hasRoot hplace

theorem makes_loadTree {place : Place} (hplace : b.context.HasRoot place.root) :
    Makes Plain spot b (loadTree place ty)
      (Emit.MadeFor (fun _ _ => True) (b.context.module.types.size + 1) b ty) := by
  refine .look fun depth hdepth => ?_
  obtain ⟨rfl, -⟩ : _ = depth ∧ _ := pure_eq_ok.mp hdepth
  exact makes_loadTreeWithin hplace

theorem gives_load : Emit.Gives Plain spot b i (load i) := by
  refine .operand fun id hid => ?_
  refine .look fun source _ => ?_
  refine .look fun src hsrc => ?_
  have hroot := Context.hasRoot_of_lookup hsrc
  refine .look fun shape _ => ?_
  split
  · exact .lift (gives_definePointer hid hroot)
  · unfold loadThrough
    split
    · refine .look fun lanes _ => ?_
      refine .bind (makes_loadRegister hroot) fun _ whole _ _ => ?_
      dsimp only
      split
      · exact .bind Emit.makes_lane fun _ _ _ _ => .lift (gives_defineRegister hid)
      · exact .bind makes_extractDynamic fun _ _ _ _ => .lift (gives_defineRegister hid)
    · exact .bind (makes_loadTree hroot) fun _ _ _ ⟨_, _, ht⟩ => .lift (gives_defineTree hid ht.mem)

theorem makes_storeChildren (place : Place) (shape : Shape) (index : Nat) (ts : List Tree)
    (h : ∀ t ∈ ts, ∀ (place : Place) {b : Bench}, b.context.HasRoot place.root →
      Makes Plain spot b (storeTree place t) fun _ _ => True)
    {b : Bench} (hplace : b.context.HasRoot place.root) :
    Makes Plain spot b (storeChildren place shape index ts) fun _ _ => True := by
  induction ts generalizing b index with
  | nil =>
    rw [storeChildren]
    exact .pure trivial
  | cons t ts ih =>
    rw [storeChildren]
    refine .bind (h t (mem_cons_self ..) _ ?_) fun _ _ h₁ _ =>
      ih _ (fun t ht => h t (mem_cons_of_mem _ ht)) (h₁.grows.hasRoot hplace)
    rw [Place.child_root]
    exact hplace

theorem makes_storeTree (place : Place) (t : Tree) {b : Bench} (hplace : b.context.HasRoot place.root) :
    Makes Plain spot b (storeTree place t) fun _ _ => True := by
  induction t using Tree.inductionOn generalizing b place with
  | leaf _ ty r =>
    rw [storeTree]
    refine .look fun lanes _ => ?_
    exact .bind (Emit.makes_plain ⟨rfl, rfl⟩ (Context.admits_of_place rfl rfl hplace))
      fun _ _ _ _ => .pure trivial
  | node _ ty children ih =>
    rw [storeTree]
    exact .look fun shape _ =>
      makes_storeChildren place shape 0 children (fun t ht place _ hplace => ih t ht place hplace) hplace

theorem makes_store : Makes Plain spot b (store i) fun _ _ => True := by
  refine .look fun target _ => ?_
  refine .look fun dst hdst => ?_
  have hroot := Context.hasRoot_of_lookup hdst
  refine .look fun value _ => ?_
  split
  · refine .look fun lanes _ => ?_
    refine .bind (Emit.makes_registerOf plain_loadConst value) fun b₁ scalar h₁ _ => ?_
    have hroot₁ := h₁.grows.hasRoot hroot
    refine .bind (Emit.makes_plain ⟨rfl, rfl⟩ (Context.admits_of_place rfl rfl hroot₁)) fun b₂ whole h₂ _ => ?_
    have hroot₂ := h₂.grows.hasRoot hroot₁
    have hwrite {b₃ : Bench} (h₃ : Emits Plain spot b₂ b₃) (r : Register) : Makes Plain spot b₃ (do
          let _ ← Emit.instruction (.storeVar dst.place r (laneMask lanes))) fun _ _ => True :=
      .bind (Emit.makes_plain ⟨rfl, rfl⟩ (Context.admits_of_place rfl rfl (h₃.grows.hasRoot hroot₂)))
        fun _ _ _ _ => .pure trivial
    dsimp only
    split
    · exact .bind makes_insertLane fun _ r h₃ _ => hwrite h₃ r
    · exact .bind makes_insertDynamic fun _ r h₃ _ => hwrite h₃ r
  · exact .bind (Emit.makes_treeOf plain_loadConst value) fun _ t h₁ _ =>
      makes_storeTree _ t (h₁.grows.hasRoot hroot)

theorem makes_copyTreeWithin {depth : Nat} {dst src : Place}
    (hdst : b.context.HasRoot dst.root) (hsrc : b.context.HasRoot src.root) :
    Makes Plain spot b (copyTreeWithin depth dst src ty) fun _ _ => True := by
  induction depth generalizing b dst src ty with
  | zero => exact .throw _ rfl
  | succ depth ih =>
    rw [copyTreeWithin]
    refine .look fun shape _ => ?_
    split
    · exact .bind (Emit.makes_plain ⟨rfl, rfl⟩ (Context.admits_copyVar hdst hsrc)) fun _ _ _ _ => .pure trivial
    · split
      · exact .meaningless _
      · refine .forM _ fun i _ b' hb' => ?_
        refine .bind (.lift (ensures_childType ty i)) fun b₁ _ h₁ _ => ih ?_ ?_
        all_goals
          rw [Place.child_root]
          exact (hb'.trans h₁).grows.hasRoot ‹_›

theorem makes_copyMemory : Makes Plain spot b (copyMemory i) fun _ _ => True := by
  refine .look fun target _ => ?_
  refine .look fun dst hdst => ?_
  refine .look fun source _ => ?_
  refine .look fun src hsrc => ?_
  dsimp only
  split
  · exact .meaningless _
  · exact .look fun _ _ =>
      makes_copyTreeWithin (Context.hasRoot_of_lookup hdst) (Context.hasRoot_of_lookup hsrc)

/-! ### Matrices -/

instance (t : Tree) : Lower.Peeks (columns t) := by
  cases t with
  | leaf => exact inferInstanceAs (Lower.Peeks (pure _))
  | node => exact .mapM _

theorem columns_eq_leaves {c c' : Context} {registers : List Register}
    (h : columns t c = .ok registers c') : registers = t.leaves := by
  cases t with
  | leaf key ty r =>
    obtain ⟨rfl, -⟩ := pure_eq_ok.mp h
    simp [Tree.leaves]
  | node key ty children =>
    change children.mapM Lower.register c = _ at h
    rw [Tree.leaves]
    induction children generalizing registers c with
    | nil =>
      rw [mapM_nil] at h
      obtain ⟨rfl, -⟩ := pure_eq_ok.mp h
      simp [Tree.leavesOfList]
    | cons t ts ih =>
      rw [mapM_cons] at h
      obtain ⟨r, c₁, hr, h⟩ := bind_eq_ok.mp h
      obtain ⟨rs, c₂, hrs, h⟩ := bind_eq_ok.mp h
      obtain ⟨rfl, rfl⟩ := pure_eq_ok.mp h
      rw [Tree.leavesOfList, ← ih hrs]
      cases t with
      | leaf key ty r' =>
        obtain ⟨rfl, -⟩ := pure_eq_ok.mp hr
        simp [Tree.leaves]
      | node => exact (throw_eq_ok.mp hr).elim

instance (registers : List Register) : Lower.Peeks (firstColumn registers) := by
  cases registers with
  | nil => exact inferInstanceAs (Lower.Peeks (Lower.meaningless _))
  | cons r _ => exact inferInstanceAs (Lower.Peeks (pure r))

instance (t : Tree) : Lower.Peeks (scalarOfTree t) := by
  refine .bind fun shape => ?_
  cases shape.scalar? <;> exact inferInstance

instance (t : Tree) : Lower.Peeks (knownTranspose? t) := .bind fun _ => inferInstance

theorem leavesOfList_of_forall₂ {ts : List Tree}
    (h : List.Forall₂ (fun r t => t.leaves = [r]) rs ts) : Tree.leavesOfList ts = rs := by
  induction h with
  | nil => simp [Tree.leavesOfList]
  | cons ht _ ih => simp [Tree.leavesOfList, ht, ih]

theorem ensures_matrixOfColumns {scalar : Scalar} {columns : List Register} {rows : Nat} :
    Ensures Plain spot b (matrixOfColumns scalar columns rows) fun b' t =>
      t ∈ b'.trees ∧ t.leaves = columns ∧ (1 ≤ columns.length ∧ columns.length ≤ 4) ∧ 1 ≤ rows ∧ rows ≤ 4 := by
  unfold matrixOfColumns
  refine .look fun c hc => ?_
  obtain ⟨rfl, -⟩ := get_eq_ok.mp hc
  refine .bind (ensures_keepTypes fun ty types h => Types.extends_of_matrix? h) ?_
  rintro b₁ ty - ⟨types, h, -⟩
  have hsize := Types.size_of_matrix? h
  split
  · rename_i column
    exact (ensures_leaf ty column).mono fun _ _ _ ht => ⟨ht.1, ht.2, hsize⟩
  · refine .bind (ensures_childType ty 0) fun b₂ columnType _ _ => ?_
    refine .bind (.mapM (S := fun b r t => t ∈ b.trees ∧ t.leaves = [r]) ?_ columns
      fun r _ _ _ => ensures_leaf columnType r) fun b₃ ts _ hts => ?_
    · rintro b b' r t hb ⟨ht, hr⟩
      exact ⟨hb.trees ht, hr⟩
    · have hleaves : Tree.leavesOfList ts = columns := leavesOfList_of_forall₂ (hts.imp fun _ _ h => h.2)
      have hmem : ∀ t ∈ ts, t ∈ b₃.trees := Ensures.forall_of_forall₂ (hts.imp fun _ _ h => h.1)
      refine (ensures_node ty hmem).mono fun b₄ t _ ht => ⟨ht.1, ?_, hsize⟩
      rw [ht.2.1, hleaves]

theorem makes_transpose {matrix : Tree} (hm : matrix ∈ b.trees) :
    Makes Plain spot b (transpose matrix) fun b' t =>
      t ∈ b'.trees ∧ b'.context.transposes.lookup matrix.key = some t := by
  unfold transpose
  refine .look fun known hknown => ?_
  obtain ⟨c, _, hc, hlookup⟩ := bind_eq_ok.mp hknown
  obtain ⟨rfl, rfl⟩ := get_eq_ok.mp hc
  obtain ⟨hlookup, -⟩ := pure_eq_ok.mp hlookup
  cases known with
  | some known =>
    exact .coming_by (.single (.known hm hlookup)) (.pure ⟨mem_cons_self .., hlookup⟩)
  | none =>
    refine .look fun columns hcolumns => ?_
    obtain rfl := columns_eq_leaves hcolumns
    refine .look fun first hfirst => ?_
    have hhead : ∀ r ∈ matrix.leaves.head?, r = first := by
      cases hl : matrix.leaves with
      | nil =>
        simp_all
      | cons r rs =>
        rw [hl] at hfirst
        obtain ⟨rfl, -⟩ := pure_eq_ok.mp hfirst
        simp
    refine .look fun rows hrows => ?_
    obtain ⟨i, hi, rfl⟩ := registerLanes_eq_ok hrows
    refine .look fun scalar _ => ?_
    refine .bind (.mapM (S := fun b row r => b.context.function.instructions[r]? =
        some (gatherInstruction (matrix.leaves.map fun column => (column, row.toUInt32))))
      ?_ _ fun row _ _ _ => Emit.makes_gather) fun b₁ transposed h₁ htransposed => ?_
    · exact fun b b' _ r h hr => h.grows.getElem?_instructions hr
    refine .bind (.lift ensures_matrixOfColumns) fun b₂ result h₂ hresult => ?_
    obtain ⟨hmem, hleaves, hcount, hrows⟩ := hresult
    have hlen : transposed.length = i.lanes := by simpa using htransposed.length_eq.symm
    have hgathered : Gathered b₂.context.function matrix result := by
      refine ⟨hrows, hleaves ▸ hcount, ?_, ?_⟩
      · intro r hr
        obtain rfl := hhead r hr
        exact ⟨i, (h₁.trans h₂).grows.getElem?_instructions hi, by rw [hleaves, hlen]⟩
      · intro row r hr
        rw [hleaves] at hr
        exact h₂.grows.getElem?_instructions (Ensures.of_forall₂_range htransposed hr)
    have hm₂ := (h₁.trans h₂).trees hm
    refine .bind (Makes.modify (.transposed hm₂ hmem hgathered) ⟨rfl, rfl⟩) ?_
    rintro b₃ - - rfl
    exact .pure ⟨hmem, by simp⟩

theorem makes_columnByRows {inner : Nat} {rows : List Register} {column : Register} :
    Makes Plain spot b (columnByRows inner rows column) fun _ _ => True := by
  refine .bind (.each _ fun row _ _ _ => ?_) fun _ _ _ _ => Emit.makes_gather.trivially
  exact .bind Emit.makes_alu fun _ _ _ _ => .pure trivial

theorem makes_columnByColumns {first : Register} {others : List Register} {rows : Nat} {column : Register} :
    Makes Plain spot b (columnByColumns first others rows column) fun _ _ => True := by
  refine .bind Emit.makes_aluWith fun _ start _ _ => ?_
  refine .foldlM _ trivial fun sum _ other _ _ _ => ?_
  exact .bind Emit.makes_aluWith fun _ _ _ _ => Emit.makes_alu

theorem makes_productColumns {first : Register} {left right : List Register} {rows : Nat}
    {rowsOfLeft : Option (List Register)} :
    Makes Plain spot b (productColumns first left right rows rowsOfLeft) fun _ _ => True := by
  cases rowsOfLeft with
  | some rowsOfLeft => exact .each _ fun _ _ _ _ => makes_columnByRows
  | none => exact .each _ fun _ _ _ _ => makes_columnByColumns

theorem makes_multiplyColumns {s : Tree} :
    Makes Plain spot b (multiplyColumns s t) fun b' t' => t' ∈ b'.trees := by
  unfold multiplyColumns
  refine .look fun scalar _ => ?_
  refine .look fun left _ => ?_
  refine .look fun right _ => ?_
  refine .look fun first _ => ?_
  refine .look fun rows _ => ?_
  refine .look fun other _ => ?_
  refine .look fun height _ => ?_
  dsimp only
  split
  · exact .meaningless _
  · refine .look fun known _ => ?_
    have hafter {b : Bench} (rowsOfLeft : Option (List Register)) : Makes Plain spot b (do
        matrixOfColumns scalar (← productColumns first left right rows rowsOfLeft) rows)
        fun b' t' => t' ∈ b'.trees :=
      .bind makes_productColumns fun _ _ _ _ => .lift (ensures_matrixOfColumns.mono fun _ _ _ h => h.1)
    cases known with
    | none => exact .bind (Q := fun _ _ => True) (.pure trivial) fun _ _ _ _ => hafter _
    | some known =>
      dsimp only
      split
      · refine .bind (Q := fun _ _ => True) ?_ fun _ _ _ _ => hafter _
        rw [← bind_pure_comp]
        exact .look fun _ _ => .pure trivial
      · exact .bind (Q := fun _ _ => True) (.pure trivial) fun _ _ _ _ => hafter _

theorem makes_multiply {s : Tree} : Makes Plain spot b (multiply s t) fun b' t' => t' ∈ b'.trees := by
  refine .look fun left _ => ?_
  refine .look fun right _ => ?_
  split
  · exact .bind makes_multiplyColumns fun _ product _ hp =>
      (makes_transpose hp).mono fun _ _ _ h => h.1
  · exact makes_multiplyColumns

theorem makes_matrixValue {s : Tree} (hs : s ∈ b.trees) :
    Makes Plain spot b (matrixValue i ty s) fun b' t => t ∈ b'.trees := by
  unfold matrixValue
  split
  · exact (makes_transpose hs).mono fun _ _ _ h => h.1
  · refine .bind (Emit.makes_registerOperand plain_loadConst i 3) fun _ scalar _ _ => ?_
    refine .look fun columns _ => ?_
    refine .look fun first _ => ?_
    refine .look fun rows _ => ?_
    refine .bind (.lift (ensures_childType ty 0)) fun _ columnType _ _ => ?_
    refine .bind (.trees _ fun column _ _ _ => makes_leafOf Emit.makes_alu) fun _ _ _ hts => ?_
    exact .lift (ensures_nodeOver hts)
  · refine .bind (Emit.makes_treeOperand plain_loadConst i 3) fun _ matrix _ hmatrix => ?_
    exact .bind (makes_transpose hmatrix) fun _ _ _ _ => makes_multiply
  · exact .bind (Emit.makes_treeOperand plain_loadConst i 3) fun _ _ _ _ => makes_multiply
  · exact .bind (Emit.makes_treeOperand plain_loadConst i 3) fun _ _ _ _ => makes_multiply
  · refine .look fun column _ => ?_
    refine .bind (Emit.makes_registerOperand plain_loadConst i 3) fun _ row _ _ => ?_
    refine .look fun rows _ => ?_
    refine .look fun count _ => ?_
    refine .bind (.lift (ensures_childType ty 0)) fun _ columnType _ _ => ?_
    refine .bind (.trees _ fun lane _ _ _ => makes_leafOf Emit.makes_aluWith) fun _ _ _ hts => ?_
    exact .lift (ensures_nodeOver hts)
  · exact .throw _ rfl

theorem gives_matrix : Emit.Gives Plain spot b i (matrix i) := by
  refine .look fun ty _ => .operand fun id hid => ?_
  refine .bind (Emit.makes_treeOperand plain_loadConst i 2) fun _ s _ hs => ?_
  exact .bind (makes_matrixValue hs) fun _ _ _ ht => .lift (gives_defineTree hid ht)

/-! ### Textures -/

theorem makes_maskedSources {roles : List TextureRole} {index : Nat} :
    Makes Plain spot b (maskedSources i roles index) fun _ _ => True := by
  refine .each _ fun role _ _ _ => ?_
  exact .bind (Emit.makes_registerOperand plain_loadConst i _) fun _ _ _ _ => .pure trivial

theorem gives_texture : Emit.Gives Plain spot b i (texture i) := by
  unfold texture
  refine .look fun ty _ => .operand fun id hid => ?_
  refine .look fun image _ => ?_
  refine .look fun sampler hsampler => ?_
  refine .look fun shape _ => ?_
  split
  · refine .bind (Emit.makes_registerOperand plain_loadConst i 3) fun b₁ coordinate h₁ _ => ?_
    have hroot := h₁.grows.hasRoot (Context.hasRoot_of_lookup hsampler)
    split
    · extract_lets access
      have haccess {b₂ : Bench} (h₂ : Emits Plain spot b₁ b₂) (reference : List TextureSource) :
          Emit.Gives Plain spot b₂ i (access reference) := by
        simp only [access]
        split
        · exact .throw _ rfl
        · refine .bind makes_maskedSources fun b₃ _ h₃ _ => ?_
          refine .look fun _ _ => ?_
          refine .look fun _ _ => ?_
          have hroot₃ := (h₂.trans h₃).grows.hasRoot hroot
          exact .bind (Emit.makes_plain ⟨rfl, rfl⟩ (Context.admits_of_place rfl rfl hroot₃))
            fun _ _ _ _ => .lift (gives_defineRegister hid)
      split
      · refine .bind (Emit.makes_registerOperand plain_loadConst i 4) fun _ _ h₂ _ => ?_
        simp_all
      · exact .bind (Q := fun _ _ => True) (.pure trivial) fun _ r h₂ _ => haccess h₂ r
    · exact .throw _ rfl
  · exact .meaningless _

/-! ### Phis -/

theorem makes_phiTree {kinds : Instruction → Prop} (hk : ∀ lanes, kinds (.phi [] lanes)) :
    Makes kinds spot b (phiTree ty) fun b' t =>
      t ∈ b'.trees ∧ ∀ r ∈ t.leaves, ∃ lanes, b'.context.function.instructions[r]? = some (.phi [] lanes) := by
  refine (Emit.makes_treeOfType (P := fun b r => ∃ lanes, b.context.function.instructions[r]? = some (.phi [] lanes))
    ?_ (fun lanes b => ?_) ty).mono fun _ _ _ ⟨_, _, ht⟩ => ⟨ht.mem, ht.registers⟩
  · rintro b b' r h ⟨lanes, hr⟩
    exact ⟨lanes, h.grows.getElem?_instructions hr⟩
  · refine (Emit.makes_instruction (hk lanes) (Context.admits_of_nil rfl rfl)).mono ?_
    exact fun _ _ _ h => ⟨⟨_, h.1, rfl⟩, lanes, h.1⟩

instance : Lower.Peeks (Lower.ofExcept (phiPairs i)) := by
  have hgo (l : List Word) (e : Error) (he : RawInstruction.pairsFrom.go i l = .error e) :
      e.redefined? = none := by
    induction l using RawInstruction.pairsFrom.go.induct generalizing e with
    | case1 => cases he
    | case2 => cases he; rfl
    | case3 a b rest ih =>
      rw [RawInstruction.pairsFrom.go] at he
      cases hrest : RawInstruction.pairsFrom.go i rest with
      | error e' =>
        rw [hrest] at he
        cases he
        exact ih _ hrest
      | ok pairs =>
        rw [hrest] at he
        cases he
  refine .ofExcept fun e h => ?_
  unfold phiPairs at h
  cases hpairs : i.pairsFrom 2 with
  | error e' =>
    simp only [hpairs, bind, Except.bind] at h
    cases h
    exact hgo _ _ hpairs
  | ok pairs =>
    simp only [hpairs, bind, Except.bind] at h
    split at h
    · cases h
      rfl
    · cases h

theorem gives_phi {before : Option Id} : Emit.Gives Stays spot b i (phi before i) := by
  refine .look fun ty _ => .operand fun id hid => ?_
  refine .look fun pairs _ => ?_
  cases before with
  | some label =>
    dsimp only
    split
    · exact .bind (Emit.makes_treeOf (fun _ => rfl) _) fun _ _ _ ht =>
        .lift (gives_defineTree hid ht)
    · exact .meaningless _
  | none =>
    refine .bind (makes_phiTree stays_phi) fun b₁ tree _ htree => ?_
    have hgives : Lower.Gives Stays spot _ _ _ := gives_defineTree hid htree.1
    -- remembering the phi comes last and cannot fail
    refine ⟨fun a c h => ?_, fun e c h => ?_⟩
    · obtain ⟨_, d, hdefine, hmodify⟩ := Emit.bind_eq_ok.mp h
      obtain rfl := modify_eq_ok.mp hmodify
      obtain ⟨⟨b₂, rfl, hb₂⟩, hplaced, id', v, hid', hdefined⟩ := hgives.ok _ _ hdefine
      refine ⟨⟨⟨_, b₂.trees⟩, rfl, hb₂.trans (.single (.pend (stays_phi 0) ?_))⟩, hplaced, id', v, hid', hdefined⟩
      obtain ⟨ids, hids, hcontext⟩ := define_eq_ok.mp hdefine
      rw [hcontext]
      exact IdTable.get_of_define hids
    · rcases Emit.bind_eq_error.mp h with h | ⟨_, _, _, h⟩
      · exact hgives.error e c h
      · cases h

end Code

/-! ### Variables and whole blocks -/

namespace Declaration

variable {i : RawInstruction}

theorem ensures_decorateVariable {id : Id} {v : Variable} {d : ResolvedDecoration} :
    Ensures Plain spot b (decorateVariable id v d) fun _ v' => v'.mode = v.mode := by
  have hreport {b : Bench} (e : Event) (v' : Variable) (hv' : v'.mode = v.mode) :
      Ensures Plain spot b (do Lower.report e; return v') fun _ v' => v'.mode = v.mode :=
    .bind (ensures_report e) fun _ _ _ _ => .pure hv'
  unfold decorateVariable
  dsimp only
  split
  case h_3 =>
    split
    · exact hreport _ _ rfl
    · exact .pure rfl
  case h_4 => exact .look fun _ _ => .pure rfl
  all_goals first | exact .pure rfl | exact hreport _ _ rfl

theorem ensures_addVariable {var : Variable} {owned : Bool}
    (hinit : ∀ k ∈ var.init, ∃ id, b.context.ids.get id = .ok (.constant k))
    (howned : owned = true → var.mode = .functionLocal) :
    Ensures Plain spot b (Lower.addVariable var owned) fun b' v => b'.context.HasRoot v :=
  .of_step (addVariable_eq_ok.mpr ⟨rfl, rfl⟩) (.declare hinit howned) ⟨rfl, rfl⟩
    (.inl (by simp [Context.withVariable]))

instance (decorations : List ResolvedDecoration) (storage : StorageClass) :
    Lower.Peeks (Lower.ofExcept (modeOf decorations storage)) := by
  refine .ofExcept fun e h => ?_
  cases storage <;> cases h
  rfl

theorem gives_variableDeclaration {inFunction : Bool} :
    Lower.Gives Plain spot b i (variableDeclaration inFunction i) := by
  unfold variableDeclaration
  refine .look fun pointer _ => ?_
  refine .look fun type _ => ?_
  dsimp only
  split
  · exact .throw _ rfl
  · refine .look fun id hid => ?_
    refine .look fun storage _ => ?_
    split
    · refine .look fun decorations _ => ?_
      refine .look fun mode _ => ?_
      refine .look fun _ _ => ?_
      refine .bind (.foldlM (P := fun var => var.mode = mode) _ rfl fun _ hmode _ _ _ _ =>
        ensures_decorateVariable.mono fun _ _ _ h => h.trans hmode) fun _ var _ hmode => ?_
      refine .look fun init hinit => ?_
      refine .bind (ensures_addVariable (mem_of_initializer hinit) fun howned => ?_) fun _ _ _ hv =>
        Code.gives_definePointer (operand_eq_ok.mp hid).1 hv
      simp_all
    · exact .throw _ rfl

end Declaration

namespace Body

variable {i : RawInstruction}

theorem gives_undef : Emit.Gives Plain spot b i (undef i) := by
  refine .look fun ty _ => ?_
  have hundef (n : Nat) (b : Bench) : Makes Plain spot b (Emit.instruction (.undef n))
      fun b' r => HasLanes b'.context r n ∧ True :=
    (Emit.makes_instruction ⟨rfl, rfl⟩ (Context.admits_of_nil rfl rfl)).mono fun _ _ _ h => ⟨⟨_, h.1, rfl⟩, trivial⟩
  refine .bind (Emit.makes_treeOfType (fun _ _ _ _ h => h) hundef ty) fun _ t _ ⟨_, _, ht⟩ => ?_
  exact .operand fun id hid => .lift (Code.gives_defineTree hid ht.mem)

end Body

/-- Whether an instruction of a block has a result. -/
def RawInstruction.hasResult (i : RawInstruction) : Bool :=
  i.op ∉ [.opNop, .opLine, .opNoLine, .opStore, .opCopyMemory]

namespace Body

variable {i : RawInstruction} {before : Option Id} {is : List RawInstruction} {c : Context}

theorem makes_instruction (hi : i.hasResult = false) :
    Makes Plain spot b (instruction before i) fun _ _ => True := by
  have hop : i.op ∈ [.opNop, .opLine, .opNoLine, .opStore, .opCopyMemory] :=
    Decidable.not_not.mp (of_decide_eq_false hi)
  simp only [mem_cons, not_mem_nil, or_false] at hop
  unfold instruction
  rcases hop with hop | hop | hop | hop | hop <;> rw [hop]
  · exact .pure trivial
  · exact .pure trivial
  · exact .pure trivial
  · exact Code.makes_store
  · exact Code.makes_copyMemory

theorem gives_plain (hi : i.hasResult) (hphi : i.op ≠ .opPhi) :
    Emit.Gives Plain spot b i (instruction before i) := by
  have hop : i.op ∉ [.opNop, .opLine, .opNoLine, .opStore, .opCopyMemory] := of_decide_eq_true hi
  unfold instruction
  split
  case h_1 h | h_2 h | h_3 h | h_9 h | h_10 h => simp [h] at hop
  case h_4 => exact gives_undef
  case h_5 => exact .lift Declaration.gives_variableDeclaration
  case h_6 | h_7 => exact Code.gives_accessChain
  case h_8 => exact Code.gives_load
  case h_11 h => exact absurd h hphi
  case h_12 | h_13 | h_14 | h_15 | h_16 | h_17 | h_18 => exact Code.gives_composite
  case h_19 | h_20 | h_21 | h_22 | h_23 | h_24 => exact Code.gives_matrix
  case h_25 | h_26 | h_27 | h_28 | h_29 => exact Code.gives_texture
  case h_30 => exact Code.gives_extended
  -- the opcodes that are left have a rule or none
  split
  · exact Code.gives_arithmetic
  · exact .throw _ rfl

theorem instruction_phi (hi : i.op = .opPhi) : instruction before i = Code.phi before i := by
  unfold instruction
  rw [hi]

theorem gives_instruction (hi : i.hasResult) : Emit.Gives Stays spot b i (instruction before i) := by
  by_cases hphi : i.op = .opPhi
  · rw [instruction_phi hphi]
    exact Code.gives_phi
  · exact Lower.Gives.weaken (gives_plain hi hphi) fun _ h => h.1

theorem emits_of_plain (hphi : i.op ≠ .opPhi) (h : instruction before i spot b.context = .ok () c) :
    ∃ b', b'.context = c ∧ Emits Plain spot b b' := by
  cases hi : i.hasResult with
  | false =>
    obtain ⟨b', hc, hb', -⟩ := (makes_instruction hi).ok () c h
    exact ⟨b', hc, hb'⟩
  | true => exact ((gives_plain hi hphi).ok () c h).1

theorem emits_of_instructions (h : instructions before is spot b.context = .ok () c) :
    ∃ b', b'.context = c ∧ Emits Stays spot b b' := by
  induction is generalizing b with
  | nil =>
    obtain ⟨-, rfl⟩ := pure_eq_ok.mp h
    exact ⟨b, rfl, .refl b⟩
  | cons i is ih =>
    obtain ⟨_, d, hi, hrest⟩ := Emit.bind_eq_ok.mp h
    obtain ⟨_, d₁, hreport, hi⟩ := Emit.bind_eq_ok.mp hi
    obtain ⟨b₁, rfl, hb₁, -⟩ := (ensures_report _).ok () d₁ hreport
    have hmade : ∃ b₂, b₂.context = d ∧ Emits Stays spot b₁ b₂ := by
      cases hresult : i.hasResult with
      | false =>
        obtain ⟨b₂, hd, hb₂, -⟩ := (makes_instruction hresult).ok () d hi
        exact ⟨b₂, hd, hb₂.mono fun _ h => h.1⟩
      | true => exact ((gives_instruction hresult).ok () d hi).1
    obtain ⟨b₂, rfl, hb₂⟩ := hmade
    obtain ⟨b₃, hc, hb₃⟩ := ih hrest
    exact ⟨b₃, hc, hb₁.trans (hb₂.trans hb₃)⟩

end Body

end ShaderIR.Spirv
