import ShaderIR.Proofs.Declarations
import ShaderIR.Proofs.Handlers
import ShaderIR.Proofs.RoundTrip

/-!
# Trees have the shapes of their types

A tree is made for a type, loaded from a place, or loaded from a constant. Whichever it is, it mirrors its type,
if the constant was declared with a value of its type: a scalar with a word, a composite with constants of the
types of its parts, or anything with zeros. So all trees of one type have the same leaves in the same order.
-/

namespace ShaderIR

open EStateM List Spirv

/-- The shape of a constituent of a composite constant. -/
def Types.part? (types : Types) (s : Shape) (index : Nat) : Option Shape :=
  match s with
  | .vector _ scalar => some (.scalar scalar)
  | s => types.childShape? s index

namespace Spirv

/-! ### Well-typed declarations -/

/-- An instruction declares a constant of a shape. -/
structure DeclaresConstant (c : Context) (i : RawInstruction) (s : Shape) (c' : Context) (k : ConstantId) : Prop where
  succeeds : Declaration.constant i c = .ok () c'
  type : ∃ ty, Lower.typeOperand i 0 c = .ok ty c ∧ c.module.types.shape? ty = some s
  result : ∃ id, i.operand 1 = .ok id ∧ c'.ids.get id = .ok (.constant k)

/-- A constant was declared with a value of its type. -/
inductive Context.Declared : Context → ConstantId → Shape → Prop
  | scalar {c c' i scalar k} (h : DeclaresConstant c i (.scalar scalar) c' k)
      (hop : i.op ∈ [.opConstant, .opConstantTrue, .opConstantFalse, .opSpecConstant, .opSpecConstantTrue,
        .opSpecConstantFalse]) : Declared c' k (.scalar scalar)
  | composite {c c' i s k} (h : DeclaresConstant c i s c' k)
      (hop : i.op ∈ [.opConstantComposite, .opSpecConstantComposite]) (part : Nat → Shape)
      (hpart : ∀ j < (i.operandsFrom 2).length, c.module.types.part? s j = some (part j))
      (hparts : ∀ (j : Nat) id child, (i.operandsFrom 2)[j]? = some id → c.ids.get id = .ok (.constant child) →
        Declared c child (part j)) : Declared c' k s
  | zero {c c' ty name k s} (h : Declaration.zero ty name c = .ok k c') (hs : c.module.types.shape? ty = some s) :
      Declared c' k s
  /-- Whatever is read after the constant adds to the types and constants. -/
  | later {c c' k s} (h : Declared c k s) (hc : c.module.Precedes c'.module) : Declared c' k s

variable {c c' : Context} {k : ConstantId} {s : Shape} {i : RawInstruction}

theorem DeclaresConstant.exists_value (h : DeclaresConstant c i s c' k) (hop : i.op ≠ .opConstantNull) :
    c.module.Precedes c'.module ∧ ∃ name ty value, c'.module.constants[k]? = some { name, ty, value } ∧
      c.module.types.shape? ty = some s ∧
      ((∃ w, value = .flat [w]) ∧ i.op ∉ [.opConstantComposite, .opSpecConstantComposite] ∨
        Declaration.compositeValue ty (i.operandsFrom 2) c = .ok value c ∧
          i.op ∈ [.opConstantComposite, .opSpecConstantComposite]) := by
  obtain ⟨hok, ⟨ty, hty, hs⟩, id, hid, hk⟩ := h
  refine ⟨(Declaration.along_constant i hok).precedes, ?_⟩
  obtain ⟨-, hnull⟩ | ⟨ty', id', value, ids, hty', hid', hvalue, hids, rfl⟩ := Declaration.constant_eq_ok hok
  · exact (hop hnull).elim
  · cases hty.symm.trans hty'
    cases hid.symm.trans hid'
    cases (IdTable.get_of_define hids).symm.trans hk
    exact ⟨c.ids.name? id, ty, value, by simp, hs, hvalue⟩

theorem length_of_partWords {n : Nat} {bits : List Word} (h : c.module.Holds k s) (hn : s.lanes? = some n)
    (hbits : Declaration.partWords k c = .ok bits c) : bits.length = n := by
  cases h with
  | @flat _ _ _ words _ hk _ hsize =>
    have hwords : Declaration.partWords k c = .ok words c :=
      (EStateM.bind_of_ok (Emit.constant_eq_ok.mpr ⟨by rw [Context.constantAt, hk, Option.getD_some], rfl⟩)).trans rfl
    cases hwords.symm.trans hbits
    cases s with
    | matrix => cases hn
    | _ => exact Option.some.inj (hsize.symm.trans hn)
  | composite _ _ hcount => cases (Shape.lanes?_of_childCount? hcount).symm.trans hn

/-- Constants of the shapes of its parts make up a constant of a shape. -/
theorem holds_compositeValue {ty : TypeId} {name : Option String} {value : ConstantValue} {ids : List Id}
    {part : Nat → Shape} (hm : c.module.Precedes c'.module)
    (hk : c'.module.constants[k]? = some { name, ty, value }) (hty : c.module.types.shape? ty = some s)
    (hvalue : Declaration.compositeValue ty ids c = .ok value c)
    (hpart : ∀ j < ids.length, c.module.types.part? s j = some (part j))
    (hparts : ∀ (j : Nat) id child, ids[j]? = some id → c.ids.get id = .ok (.constant child) →
      c.module.Holds child (part j)) : c'.module.Holds k s := by
  obtain ⟨-, s', children, hs', hcount, hids, hvalue⟩ := Declaration.compositeValue_eq_ok hvalue
  cases hty.symm.trans hs'
  have hchildren (j : Nat) (child : ConstantId) (hj : children[j]? = some child) :
      c.module.types.part? s j = some (part j) ∧ c.module.Holds child (part j) := by
    obtain ⟨id, hid, hget⟩ := Ensures.exists_of_forall₂ hids hj
    exact ⟨hpart j (List.getElem?_eq_some_iff.mp hid).1, hparts j id child hid hget⟩
  have hlength {parts : List (List Word)} {n : Nat} {s' : Shape} (hs' : ∀ j, c.module.types.part? s j = some s')
      (hn : s'.lanes? = some n)
      (h : Forall₂ (fun k bits => Declaration.partWords k c = .ok bits c) children parts) :
      parts.flatten.length = children.length * n := by
    have hall : ∀ bits ∈ parts, bits.length = n := by
      intro bits hbits
      obtain ⟨j, hj⟩ := List.mem_iff_getElem?.mp hbits
      obtain ⟨child, hchild, hwords⟩ := Ensures.exists_of_forall₂ h hj
      obtain ⟨hp, hheld⟩ := hchildren j child hchild
      cases (hs' j).symm.trans hp
      exact length_of_partWords hheld hn hwords
    rw [length_flatten, map_eq_replicate_iff.mpr hall, sum_replicate_nat, h.length_eq]
  have hty' := hm.types.shape? hty
  cases s with
  | vector size scalar =>
    obtain ⟨parts, rfl, hparts⟩ := hvalue
    refine .flat hk hty' ?_
    rw [hlength (fun _ => rfl) rfl hparts, Nat.mul_one]
    exact hcount
  | matrix columns rows scalar =>
    obtain ⟨parts, rfl, hparts⟩ := hvalue
    refine .flat hk hty' ?_
    rw [hlength (fun _ => rfl) rfl hparts, ← Option.some.inj hcount]
    rfl
  | array | struct =>
    subst hvalue
    refine .of_children hk hty' hcount fun j child hj => ?_
    obtain ⟨hp, hheld⟩ := hchildren j child hj
    exact ⟨part j, hm.types.childShape? hp, hheld.mono hm⟩
  | scalar =>
    obtain ⟨hp, -⟩ := hchildren 0 _ (getElem?_eq_getElem (Nat.lt_of_lt_of_eq Nat.one_pos (Option.some.inj hcount)))
    cases hp
  | _ => cases hcount

theorem Context.Declared.holds (h : c.Declared k s) : c.module.Holds k s := by
  induction h with
  | scalar h hop =>
    obtain ⟨hm, name, ty, value, hk, hty, ⟨⟨w, rfl⟩, -⟩ | ⟨-, hop'⟩⟩ := h.exists_value (by rintro heq; simp [heq] at hop)
    · exact .flat hk (hm.types.shape? hty) rfl
    · grind
  | composite h hop part hpart _ ih =>
    obtain ⟨hm, name, ty, value, hk, hty, ⟨-, hop'⟩ | ⟨hvalue, -⟩⟩ :=
      h.exists_value (by rintro heq; simp [heq] at hop)
    · exact (hop' hop).elim
    · exact holds_compositeValue hm hk hty hvalue hpart ih
  | zero h hs =>
    obtain ⟨hd, s', hs', hheld⟩ := Declaration.addsConstant_zero _ _ h
    cases (hd.precedes.types.shape? hs).symm.trans hs'
    exact hheld
  | later _ hc ih => exact ih.mono hc

/-! ### Trees -/

/-- A tree comes about for a type. -/
inductive Context.MakesTree (c : Context) (ty : TypeId) (t : Tree) (c' : Context) : Prop
  | type {spot : Spot} {g : Nat → Instruction}
      (hg : ∀ n, (g n).lanes = n ∧ (g n).places = [] ∧ (g n).sourceBlocks = [])
      (h : Emit.treeOfType (fun lanes => Emit.instruction (g lanes)) ty spot c = .ok t c')
  | load {spot : Spot} {place : Place} (hplace : c.HasRoot place.root) (h : Code.loadTree place ty spot c = .ok t c')
  | constant {spot : Spot} {k : ConstantId} {s : Shape} (hs : c.module.types.shape? ty = some s)
      (hd : c.Declared k s) (h : Emit.constantTree k spot c = .ok t c')

theorem Context.MakesTree.mirrors {ty : TypeId} {t : Tree} (h : c.MakesTree ty t c') :
    c.module.types.Extends c'.module.types ∧
      ∃ s depth, c'.module.types.shape? ty = some s ∧ t.MirrorsWithin c' depth s := by
  cases h with
  | type hg h =>
    obtain ⟨htypes, s, hs, ht⟩ := Emit.mirrors_treeOfType hg h
    exact ⟨htypes, s, _, htypes.shape? hs, ht⟩
  | load hplace h =>
    obtain ⟨b, rfl, hb, -, s, hs, ht⟩ := (Code.makes_loadTree (b := ⟨c, []⟩) hplace).ok t c' h
    exact ⟨hb.grows.types, s, _, hb.grows.types.shape? hs, ht.mirrors⟩
  | @constant spot k s hs hd h =>
    have hmakes : Makes (fun _ => True) spot ⟨c, []⟩ (Emit.constantTree k) _ :=
      Emit.makes_constantTree (fun _ => trivial) k
    obtain ⟨b, rfl, hb, -, -, ht⟩ := hmakes.ok t c' h
    obtain ⟨depth, ht⟩ := ht s hd.holds
    exact ⟨hb.grows.types, s, depth, hb.grows.types.shape? hs, ht⟩

/-- A tree that comes about for a type mirrors the type, and so all of them have the same leaves in the same
order, whether they are made, loaded from a place or loaded from a constant that was declared with a value of
its type. -/
theorem trees_mirror_their_type {ty : TypeId} {t : Tree} (h : c.MakesTree ty t c') :
    (∃ s depth, c'.module.types.shape? ty = some s ∧ t.MirrorsWithin c' depth s) ∧
    ∀ (d d' : Context) (t' : Tree), d.MakesTree ty t' d' → c'.module.types.Extends d'.module.types →
      t.form c' = t'.form d' ∧ t.leaves.length = t'.leaves.length := by
  obtain ⟨-, s, depth, hs, ht⟩ := h.mirrors
  refine ⟨⟨s, depth, hs, ht⟩, fun d d' t' h' htypes => ?_⟩
  obtain ⟨-, s', depth', hs', ht'⟩ := h'.mirrors
  cases (htypes.shape? hs).symm.trans hs'
  have hform := ht.form_eq ht' htypes
  exact ⟨hform, Tree.length_leaves_eq hform⟩

theorem trees_mirror_their_type_flaggedMatrices :
    ∃ t c k d t' d', Code.loadTree Code.flaggedPlace 3 (.append 0) Code.flaggedMatrices = .ok t c ∧
      Declaration.zero 3 none c = .ok k d ∧ Emit.constantTree k (.append 0) d = .ok t' d' ∧
      t.form c = t'.form d' ∧ t'.leaves.length = 3 := by
  obtain ⟨t', d', h, hleaves⟩ := exists_ok_of_check (s := Code.flaggedMatrices) (m := do
    let _ ← Code.loadTree Code.flaggedPlace 3 (.append 0)
    Emit.constantTree (← Declaration.zero 3 none) (.append 0)) (p := fun t _ => t.leaves.length == 3)
    (by decide +kernel)
  obtain ⟨t, c, hload, h₁⟩ := bind_eq_ok.mp h
  obtain ⟨k, d, hzero, htree⟩ := bind_eq_ok.mp h₁
  obtain ⟨⟨s, -, hs, -⟩, hsame⟩ := trees_mirror_their_type (.load (.inl (by decide)) hload)
  have htypes := (Declaration.addsConstant_zero 3 none hzero).1.precedes.types
  have hmade : d.MakesTree 3 t' d' := .constant (htypes.shape? hs) (.zero hzero hs) htree
  exact ⟨t, c, k, d, t', d', hload, hzero, htree, (hsame d d' t' hmade (htypes.trans hmade.mirrors.1)).1,
    eq_of_beq hleaves⟩

end Spirv

end ShaderIR
