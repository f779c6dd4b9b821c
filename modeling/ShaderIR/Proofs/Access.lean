import ShaderIR.Proofs.Slots
import ShaderIR.Spirv.Code.Memory

/-!
# The code of loads, stores and copies

A load and a copy go through a type, and a store through a value, each in a recursion of its own. All
three come down to going through the slots of the type in order: the code of a store is one write for
each slot, that of a copy one copy, and that of a load one read, followed by a comparison with zero
where the slot holds booleans of a uniform.
-/

namespace ShaderIR

open EStateM List

namespace Spirv

/-! ### Trees of a shape -/

namespace Tree

mutual

/-- A tree has the parts of a value of a shape, with a register for each slot. -/
def Fits (types : Types) : Tree → Shape → Prop
  | leaf _ ty _, s => s.isRegister ∧ (types.shape? ty).bind Shape.lanes? = s.lanes?
  | node _ ty children, s =>
    s.childCount? = some children.length ∧
      (types.shape? ty).map Shape.isStruct = some s.isStruct ∧ FitChildren types s 0 children

/-- Trees have the parts of the children of a value of a shape from child `i` on. -/
def FitChildren (types : Types) (s : Shape) (i : Nat) : List Tree → Prop
  | [] => True
  | t :: ts =>
    (∃ c, types.childShape? s i = some c ∧ t.Fits types c) ∧ FitChildren types s (i + 1) ts

end

variable {types types' : Types}

mutual

theorem Fits.of_extends (hext : types.Extends types') : ∀ {t : Tree} {s : Shape}, t.Fits types s → t.Fits types' s
  | leaf key ty r, s, ⟨hreg, hlanes⟩ => by
    refine ⟨hreg, ?_⟩
    cases hty : types.shape? ty with
    | none =>
      rw [Shape.isRegister, ← hlanes, hty] at hreg
      cases hreg
    | some shape => rw [hext.shape? hty, ← hty, hlanes]
  | node key ty children, s, ⟨hcount, hstruct, hchildren⟩ => by
    obtain ⟨shape, hty, hstruct⟩ := Option.map_eq_some_iff.mp hstruct
    refine ⟨hcount, ?_, FitChildren.of_extends hext hchildren⟩
    rw [hext.shape? hty, Option.map_some, hstruct]

theorem FitChildren.of_extends (hext : types.Extends types') : ∀ {ts : List Tree} {s : Shape} {i : Nat},
      FitChildren types s i ts → FitChildren types' s i ts
  | [], _, _, _ => trivial
  | _ :: _, _, _, ⟨⟨c, hc, hfits⟩, hrest⟩ =>
    ⟨⟨c, hext.childShape? hc, hfits.of_extends hext⟩, FitChildren.of_extends hext hrest⟩

end

end Tree

/-! ### Stores -/

namespace Code

variable {spot : Spot} {c c' : Context} {types : Types} {p : Place} {s : Shape} {depth : Nat}

/-- Writes registers to slots of a value that is kept at `p`. -/
def storeCode (p : Place) (slots : List Slot) (rs : List Register) : List Instruction :=
  List.zipWith (fun slot r => .storeVar (slot.place p) r (laneMask slot.lanes)) slots rs

theorem storeCode_under (step : Step) (slots : List Slot) (rs : List Register) :
    storeCode (p.extend step.link) slots rs = storeCode p (slots.map (.under step)) rs := by
  unfold storeCode
  rw [zipWith_map_left]
  simp only [Slot.place_extend]
  rfl

theorem storeCode_append {slots slots' : List Slot} {rs rs' : List Register} (h : slots.length = rs.length) :
    storeCode p (slots ++ slots') (rs ++ rs') = storeCode p slots rs ++ storeCode p slots' rs' :=
  zipWith_append h

mutual

/-- A store writes the registers of a tree to the slots of its shape in order. -/
theorem storeTree_eq : ∀ {t : Tree} {c : Context} {p : Place} {s : Shape} {depth : Nat}, c.module.types = types →
      t.Fits types s → types.StorableWithin depth s →
      storeTree p t spot c = .ok () (c.withFunction
          (c.function.insertAll spot (storeCode p (types.slotsWithin depth s) t.leaves))) ∧
        (types.slotsWithin depth s).length = t.leaves.length
  | .leaf key ty r, c, p, s, 0, _, _, h => h.elim
  | .leaf key ty r, c, p, s, depth + 1, htypes, ⟨hreg, hlanes⟩, h => by
    obtain ⟨n, hn⟩ := Option.isSome_iff_exists.mp hreg
    obtain ⟨shape, hty, hshape⟩ := Option.bind_eq_some_iff.mp (hlanes.trans hn)
    rw [Types.slotsWithin_register hreg, storeTree]
    rw [← htypes] at hty
    refine ⟨(Emit.lift_of_ok (Lower.lanes_of_shape? hty hshape)).trans ?_, rfl⟩
    simp [storeCode, Tree.leaves, Slot.lanes, hn]
    rfl
  | .node key ty children, c, p, s, 0, _, _, h => h.elim
  | .node key ty children, c, p, s, depth + 1, htypes, ⟨hcount, hstruct, hfit⟩, h => by
    obtain ⟨shape, hty, hstruct⟩ := Option.map_eq_some_iff.mp hstruct
    obtain ⟨hstore, hlength⟩ := storeChildren_eq (p := p) htypes hfit hstruct fun j _ hj =>
      h.children hcount j (by omega)
    rw [← htypes] at hty
    rw [Types.slotsWithin_composite hcount, storeTree, Tree.leaves]
    exact ⟨(Emit.lift_of_ok (Lower.shape_of_shape? hty)).trans hstore, hlength⟩

/-- Stores of children write their registers to the slots of the children in order. -/
theorem storeChildren_eq : ∀ {ts : List Tree} {c : Context} {p : Place} {s shape : Shape} {depth i : Nat},
      c.module.types = types → Tree.FitChildren types s i ts → shape.isStruct = s.isStruct →
      (∀ j, i ≤ j → j < i + ts.length →
        ∃ child, types.childShape? s j = some child ∧ types.StorableWithin depth child) →
      storeChildren p shape i ts spot c = .ok () (c.withFunction (c.function.insertAll spot
          (storeCode p ((List.range' i ts.length).flatMap (types.childSlots depth s)) (Tree.leavesOfList ts)))) ∧
        ((List.range' i ts.length).flatMap (types.childSlots depth s)).length = (Tree.leavesOfList ts).length
  | [], c, p, s, shape, depth, i, _, _, _, _ => ⟨rfl, rfl⟩
  | t :: ts, c, p, s, shape, depth, i, htypes, ⟨⟨child, hchild, hfits⟩, hrest⟩, hstruct, h => by
    obtain ⟨child', hchild', hstorable⟩ := h i (Nat.le_refl i) (by simp)
    obtain rfl := Option.some_inj.mp (hchild.symm.trans hchild')
    obtain ⟨hstore, hlength⟩ := storeTree_eq (p := p.child shape i.toUInt32) htypes hfits hstorable
    obtain ⟨hstores, hlengths⟩ := storeChildren_eq (p := p) (c := c.withFunction (c.function.insertAll
      spot (storeCode (p.child shape i.toUInt32) (types.slotsWithin depth child) t.leaves))) htypes
      hrest hstruct fun j hij hj => h j (by omega) (by rw [length_cons]; omega)
    have hplace : p.child shape i.toUInt32 = p.extend (s.step i).link := by
      rw [Place.child_eq, Shape.step, hstruct, Shape.step]
    rw [storeChildren, Tree.leavesOfList, length_cons, List.range'_succ, flatMap_cons, Types.childSlots_eq hchild]
    refine ⟨(Emit.bind_of_ok hstore).trans (hstores.trans ?_), ?_⟩
    · rw [storeCode_append (by rw [length_map, hlength]), ← storeCode_under, ← hplace, Function.insertAll_append]
      rfl
    simp_all

end

/-! ### Loads -/

/-- How many instructions read a slot. -/
def slotWidth (uniform : Bool) (slot : Slot) : Nat := if slot.isBool && uniform then 3 else 1

/-- Reads a slot of a value that is kept at `p`, from register `r` on. -/
def loadSlot (uniform : Bool) (p : Place) (r : Register) (slot : Slot) : List Instruction :=
  .loadVar (slot.place p) slot.lanes ::
    if slot.isBool && uniform then
      [.loadConst [0], .alu .ine [.fit r slot.lanes, .fit (r + 1) 1] slot.lanes]
    else
      []

/-- The register that holds a slot once it is read from register `r` on. -/
def slotRegister (uniform : Bool) (r : Register) (slot : Slot) : Register :=
  if slot.isBool && uniform then r + 2 else r

/-- Reads slots of a value that is kept at `p`, from register `r` on. -/
def loadCode (uniform : Bool) (p : Place) : (r : Register) → List Slot → List Instruction
  | _, [] => []
  | r, slot :: slots => loadSlot uniform p r slot ++ loadCode uniform p (r + slotWidth uniform slot) slots

/-- The registers that hold slots once they are read from register `r` on. -/
def loadRegisters (uniform : Bool) : (r : Register) → List Slot → List Register
  | _, [] => []
  | r, slot :: slots =>
    slotRegister uniform r slot :: loadRegisters uniform (r + slotWidth uniform slot) slots

section

variable {uniform : Bool} {r : Register} {slots slots' : List Slot} {slot : Slot} {step : Step}

@[simp] theorem length_loadSlot : (loadSlot uniform p r slot).length = slotWidth uniform slot := by
  unfold loadSlot slotWidth
  split <;> rfl

theorem loadSlot_under : loadSlot uniform (p.extend step.link) r slot =
    loadSlot uniform p r (slot.under step) := by
  simp only [loadSlot, Slot.place_extend]
  rfl

theorem loadCode_under : loadCode uniform (p.extend step.link) r slots =
    loadCode uniform p r (slots.map (.under step)) := by
  induction slots generalizing r with
  | nil => rfl
  | cons slot slots ih =>
    rw [loadCode, map_cons, loadCode, loadSlot_under, ih]
    rfl

theorem loadRegisters_under : loadRegisters uniform r (slots.map (.under step)) = loadRegisters uniform r slots := by
  induction slots generalizing r with
  | nil => rfl
  | cons slot slots ih =>
    rw [map_cons, loadRegisters, loadRegisters, ih]
    rfl

theorem loadCode_append : loadCode uniform p r (slots ++ slots') = loadCode uniform p r slots ++
    loadCode uniform p (r + (loadCode uniform p r slots).length) slots' := by
  induction slots generalizing r with
  | nil => rfl
  | cons slot slots ih =>
    rw [cons_append, loadCode, loadCode, ih, append_assoc, length_append, length_loadSlot, Nat.add_assoc]

theorem loadRegisters_append : loadRegisters uniform r (slots ++ slots') = loadRegisters uniform r slots ++
      loadRegisters uniform (r + (loadCode uniform p r slots).length) slots' := by
  induction slots generalizing r with
  | nil => rfl
  | cons slot slots ih =>
    rw [cons_append, loadRegisters, loadRegisters, ih, loadCode, cons_append,
      length_append, length_loadSlot, Nat.add_assoc]

end

/-- Whether a variable is a uniform. -/
def isUniform (c : Context) (v : VariableId) : Bool := (c.module.vars[v]?).any (·.mode = .uniform)

/-- Between two states, slots of a value that is kept at `p` were read into registers. -/
structure Loads (spot : Spot) (p : Place) (slots : List Slot) (c : Context) (rs : List Register)
    (c' : Context) : Prop where
  inserts : Inserts spot (loadCode (isUniform c p.root) p c.function.instructions.size slots) c c'
  registers_eq : rs = loadRegisters (isUniform c p.root) c.function.instructions.size slots

namespace Loads

variable {slots slots' : List Slot} {rs rs' : List Register} {c'' : Context} {step : Step}

theorem isUniform_eq {is : List Instruction} (h : Inserts spot is c c') : isUniform c' = isUniform c := by
  obtain ⟨types, nextKey, -, rfl⟩ := h
  rfl

protected theorem nil (h : Inserts spot [] c c') : Loads spot p [] c [] c' := ⟨h, rfl⟩

theorem append (h : Loads spot p slots c rs c') (h' : Loads spot p slots' c' rs' c'') :
    Loads spot p (slots ++ slots') c (rs ++ rs') c'' := by
  obtain ⟨hinserts, rfl⟩ := h
  obtain ⟨hinserts', rfl⟩ := h'
  rw [isUniform_eq hinserts, hinserts.size] at hinserts'
  constructor
  · rw [loadCode_append]
    exact hinserts.trans hinserts'
  · rw [loadRegisters_append (p := p), isUniform_eq hinserts, hinserts.size]

theorem after (h : Inserts spot [] c c') (h' : Loads spot p slots c' rs c'') :
    Loads spot p slots c rs c'' := (Loads.nil h).append h'

theorem followed (h : Loads spot p slots c rs c') (h' : Inserts spot [] c' c'') :
    Loads spot p slots c rs c'' := by
  simpa using h.append (Loads.nil h')

theorem under (h : Loads spot (p.extend step.link) slots c rs c') :
    Loads spot p (slots.map (.under step)) c rs c' := by
  obtain ⟨hinserts, rfl⟩ := h
  rw [loadCode_under] at hinserts
  exact ⟨hinserts, loadRegisters_under.symm⟩

end Loads

variable {ty : TypeId}

theorem loadRegister_eq (spot : Spot) (p : Place) {n : Nat} (hs : c.module.types.shape? ty = some s)
    (hn : s.lanes? = some n) :
    ∃ r c', loadRegister p ty spot c = .ok r c' ∧ Loads spot p [⟨[], s⟩] c [r] c' := by
  have hload : Emit.instruction (.loadVar p n) spot c = _ := Emit.instruction_eq _
  have hshape : (c.withFunction (c.function.insert spot (.loadVar p n)).2).module.types.shape? ty = some s := hs
  unfold loadRegister
  rw [Emit.lift_of_ok (Lower.lanes_of_shape? hs hn), Emit.bind_of_ok hload,
    Emit.lift_of_ok (Lower.shape_of_shape? hshape)]
  have hget {f : Context → Emit Register} {d : Context} : (get >>= f) spot d = f d spot d := rfl
  rw [hget]
  split
  case isTrue h =>
    have hbool : ((⟨[], s⟩ : Slot).isBool && isUniform c p.root) = true := h
    refine ⟨_, _, (Emit.bind_of_ok (Emit.instruction_eq _)).trans
      (Emit.alu_pair (i := .loadVar p n) (j := .loadConst [0]) ?_ ?_), ?_, ?_⟩
    · rw [Context.withFunction, Function.insert_instructions, Context.withFunction,
        Function.insert_instructions, Array.getElem?_push_lt (by simp), Array.getElem_push_eq]
    · rw [Context.withFunction, Function.insert_instructions, Array.getElem?_push_size]
    · refine ⟨c.module.types, c.nextKey, .refl _, ?_⟩
      simp [loadCode, loadSlot, hbool, Slot.lanes, hn, Instruction.lanes, Context.withFunction, Context.fresh]
    · simp [loadRegisters, slotRegister, hbool, Context.withFunction, Context.fresh]
  case isFalse h =>
    have hbool : ((⟨[], s⟩ : Slot).isBool && isUniform c p.root) = false := Bool.eq_false_of_not_eq_true h
    refine ⟨_, _, rfl, ?_, ?_⟩
    · refine ⟨c.module.types, c.nextKey, .refl _, ?_⟩
      simp [loadCode, loadSlot, hbool, Slot.lanes, hn, Context.withFunction]
    · simp [loadRegisters, slotRegister, hbool]

theorem childType_of_childShape? (spot : Spot) {i : Nat} {child : Shape}
    (hs : c.module.types.shape? ty = some s) (hc : c.module.types.childShape? s i = some child) :
    ∃ ty' c', Lower.childType ty i c = .ok ty' c' ∧ c'.module.types.shape? ty' = some child ∧
      Inserts spot [] c c' := by
  obtain ⟨ty', types', hchild, hshape⟩ := Types.exists_child? hs hc
  refine ⟨ty', { c with module := { c.module with types := types' } }, ?_, hshape, types', c.nextKey,
    Types.extends_of_child? hchild, rfl⟩
  refine get_bind.trans ?_
  rw [hchild]
  rfl

/-- Loads of children one after another read the slots of the children in order. -/
theorem loads_mapM {load : Nat → Emit Tree} {part : Nat → List Slot} {k i : Nat}
    (h : ∀ j, i ≤ j → j < i + k → ∀ d : Context, c.module.types.Extends d.module.types →
      ∃ t d' child, load j spot d = .ok t d' ∧ Loads spot p (part j) d t.leaves d' ∧
        d'.module.types.childShape? s j = some child ∧ t.Fits d'.module.types child) :
    ∃ ts c', (List.range' i k).mapM load spot c = .ok ts c' ∧
      Loads spot p ((List.range' i k).flatMap part) c (Tree.leavesOfList ts) c' ∧ ts.length = k ∧
      Tree.FitChildren c'.module.types s i ts := by
  induction k generalizing c i with
  | zero => exact ⟨[], c, rfl, .nil (.refl spot c), rfl, trivial⟩
  | succ k ih =>
    obtain ⟨t, c₁, child, hload, hloads, hchild, hfits⟩ := h i (by omega) (by omega) c (.refl _)
    have hext := hloads.inserts.types
    obtain ⟨ts, c₂, hload', hloads', hlength, hfits'⟩ := ih (c := c₁) (i := i + 1)
      fun j hij hj d hd => h j (by omega) (by omega) d (hext.trans hd)
    have hext' := hloads'.inserts.types
    refine ⟨t :: ts, c₂, ?_, ?_, by simp [hlength], ⟨child, hext'.childShape? hchild, ?_⟩, hfits'⟩
    · rw [List.range'_succ, mapM_cons, Emit.bind_of_ok hload, Emit.bind_of_ok hload']
      rfl
    · rw [List.range'_succ, flatMap_cons]
      exact hloads.append hloads'
    · exact hfits.of_extends hext'

theorem loadTreeWithin_eq (hext : types.Extends c.module.types)
    (hs : c.module.types.shape? ty = some s) (h : types.StorableWithin depth s) :
    ∃ t c', loadTreeWithin depth p ty spot c = .ok t c' ∧
      Loads spot p (types.slotsWithin depth s) c t.leaves c' ∧ t.Fits c'.module.types s := by
  induction depth generalizing c p ty s with
  | zero => exact h.elim
  | succ depth ih =>
    rw [loadTreeWithin, Emit.lift_of_ok (Lower.shape_of_shape? hs)]
    by_cases hreg : s.isRegister
    · obtain ⟨n, hn⟩ := Option.isSome_iff_exists.mp hreg
      obtain ⟨r, c₁, hload, hloads⟩ := loadRegister_eq spot p hs hn
      rw [if_pos hreg, Types.slotsWithin_register hreg]
      refine ⟨_, _, (Emit.bind_of_ok hload).trans rfl, ?_, hreg, ?_⟩
      · exact hloads.followed (.key spot c₁ _)
      · change (c₁.module.types.shape? ty).bind Shape.lanes? = s.lanes?
        rw [hloads.inserts.types.shape? hs]
        rfl
    · rcases h with h | ⟨count, hcount, -, hchildren⟩
      · exact (hreg h).elim
      rw [if_neg hreg, Types.slotsWithin_composite hcount]
      simp only [hcount, range_eq_range']
      have hchild : ∀ j, 0 ≤ j → j < 0 + count → ∀ d : Context, c.module.types.Extends d.module.types →
          ∃ t d' child, (do
              let child ← Lower.childType ty j
              loadTreeWithin depth (p.child s j.toUInt32) child : Emit Tree) spot d = .ok t d' ∧
            Loads spot p (types.childSlots depth s j) d t.leaves d' ∧
            d'.module.types.childShape? s j = some child ∧ t.Fits d'.module.types child := by
        intro j _ hj d hd
        obtain ⟨child, hchild, hstorable⟩ := hchildren j (by omega)
        obtain ⟨ty', d₁, hty', hshape, hinserts⟩ := childType_of_childShape? spot (hd.shape? hs)
          ((hext.trans hd).childShape? hchild)
        have hext₁ := (hext.trans hd).trans hinserts.types
        obtain ⟨t, d', hload, hloads, hfits⟩ := ih (p := p.child s j.toUInt32) hext₁ hshape hstorable
        rw [Place.child_eq] at hloads
        refine ⟨t, d', child, (Emit.lift_of_ok hty').trans hload, ?_,
          (hext₁.trans hloads.inserts.types).childShape? hchild, hfits⟩
        rw [Types.childSlots_eq hchild]
        exact .after hinserts hloads.under
      obtain ⟨ts, c₁, hload, hloads, hlength, hfits⟩ := loads_mapM hchild
      refine ⟨_, _, (Emit.bind_of_ok hload).trans rfl, hloads.followed (.key spot c₁ _), ?_, ?_, hfits⟩
      · rw [hlength, hcount]
      · change (c₁.module.types.shape? ty).map Shape.isStruct = some s.isStruct
        rw [hloads.inserts.types.shape? hs, Option.map_some]

/-! ### Copies -/

/-- Copies slots of a value that is kept at `src` to a value that is kept at `dst`. -/
def copyCode (dst src : Place) (slots : List Slot) : List Instruction :=
  slots.map fun slot => .copyVar (slot.place dst) (slot.place src)

theorem copyCode_under {dst src : Place} {step : Step} {slots : List Slot} :
    copyCode (dst.extend step.link) (src.extend step.link) slots =
      copyCode dst src (slots.map (.under step)) := by
  simp only [copyCode, map_map, Slot.place_extend]
  rfl

/-- Copies of children one after another copy the slots of the children in order. -/
theorem copies_forM {dst src : Place} {copy : Nat → Emit Unit} {part : Nat → List Slot} {k i : Nat}
    (h : ∀ j, i ≤ j → j < i + k → ∀ d : Context, c.module.types.Extends d.module.types →
      ∃ d', copy j spot d = .ok () d' ∧ Inserts spot (copyCode dst src (part j)) d d') :
    ∃ c', (List.range' i k).forM copy spot c = .ok () c' ∧
      Inserts spot (copyCode dst src ((List.range' i k).flatMap part)) c c' := by
  induction k generalizing c i with
  | zero => exact ⟨c, rfl, .refl spot c⟩
  | succ k ih =>
    obtain ⟨c₁, hcopy, hinserts⟩ := h i (by omega) (by omega) c (.refl _)
    obtain ⟨c₂, hcopy', hinserts'⟩ := ih (c := c₁) (i := i + 1)
      fun j hij hj d hd => h j (by omega) (by omega) d (hinserts.types.trans hd)
    refine ⟨c₂, ?_, ?_⟩
    · rw [List.range'_succ]
      exact (Emit.bind_of_ok hcopy).trans hcopy'
    · rw [List.range'_succ, flatMap_cons, copyCode, map_append]
      exact hinserts.trans hinserts'

theorem copyTreeWithin_eq (dst src : Place) (hext : types.Extends c.module.types)
    (hs : c.module.types.shape? ty = some s) (h : types.StorableWithin depth s) :
    ∃ c', copyTreeWithin depth dst src ty spot c = .ok () c' ∧
      Inserts spot (copyCode dst src (types.slotsWithin depth s)) c c' := by
  induction depth generalizing c dst src ty s with
  | zero => exact h.elim
  | succ depth ih =>
    rw [copyTreeWithin, Emit.lift_of_ok (Lower.shape_of_shape? hs)]
    rcases h with hreg | ⟨count, hcount, -, hchildren⟩
    · rw [if_pos hreg, Types.slotsWithin_register hreg]
      refine ⟨_, Emit.bind_of_ok (Emit.instruction_eq _), ?_⟩
      rw [copyCode, map_singleton, Slot.place_nil, Slot.place_nil]
      exact Inserts.instruction spot c _
    · rw [if_neg (by simp [Shape.isRegister_of_childCount? hcount]), Types.slotsWithin_composite hcount]
      simp only [hcount, range_eq_range']
      refine copies_forM fun j _ hj d hd => ?_
      obtain ⟨child, hchild, hstorable⟩ := hchildren j (by omega)
      obtain ⟨ty', d₁, hty', hshape, hinserts⟩ := childType_of_childShape? spot (hd.shape? hs)
        ((hext.trans hd).childShape? hchild)
      obtain ⟨d', hcopy, hinserts'⟩ := ih (dst.child s j.toUInt32) (src.child s j.toUInt32)
        ((hext.trans hd).trans hinserts.types) hshape hstorable
      rw [Place.child_eq, Place.child_eq, copyCode_under, ← Types.childSlots_eq hchild] at hinserts'
      exact ⟨d', (Emit.lift_of_ok hty').trans hcopy, hinserts.trans hinserts'⟩

theorem copyMemory_eq (spot : Spot) {i : RawInstruction} {target source : Id} {dst src : Pointer}
    (htarget : i.operand 0 = .ok target) (hdst : c.ids.pointer target = .ok dst)
    (hsource : i.operand 1 = .ok source) (hsrc : c.ids.pointer source = .ok src)
    (hlanes : dst.lane = none ∧ src.lane = none)
    (hs : c.module.types.shape? src.ty = some s) (h : c.module.types.Storable s) :
    ∃ c', copyMemory i spot c = .ok () c' ∧
      Inserts spot (copyCode dst.place src.place (c.module.types.slots s)) c c' := by
  obtain ⟨c', hcopy, hinserts⟩ : ∃ c', copyTreeWithin _ _ _ _ spot c = .ok () c' ∧ _ :=
    copyTreeWithin_eq dst.place src.place (.refl _) hs (h.within hs)
  refine ⟨c', ?_, hinserts⟩
  unfold copyMemory
  rw [Emit.lift_of_ok (Lower.operand_eq_ok.mpr ⟨htarget, rfl⟩),
    Emit.lift_of_ok (Lower.lookup_eq_ok.mpr ⟨hdst, rfl⟩),
    Emit.lift_of_ok (Lower.operand_eq_ok.mpr ⟨hsource, rfl⟩),
    Emit.lift_of_ok (Lower.lookup_eq_ok.mpr ⟨hsrc, rfl⟩)]
  simp only [hlanes, Option.isSome_none, Bool.or_false]
  exact hcopy

end Code

end Spirv

end ShaderIR
