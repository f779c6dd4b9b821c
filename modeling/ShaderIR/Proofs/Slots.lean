import Mathlib.Data.Finset.Card
import Mathlib.Data.List.Pairwise
import ShaderIR.Proofs.Straight

/-!
# The slots of a value in memory

A value is kept in one memory slot for each scalar, vector and matrix column that it is made of. Which
slots these are depends on its type alone, and no two of them are the same.

Types refer to types by number, so a value cannot be nested deeper than there are types: each further
level would have to be of a type of its own.
-/

namespace ShaderIR

open List

/-- Whether the children of a shape are members. -/
def Shape.isStruct : Shape → Bool
  | struct _ => true
  | _ => false

theorem Shape.isRegister_of_childCount? {s : Shape} {count : Nat} (h : s.childCount? = some count) :
    s.isRegister = false := by
  rw [isRegister, lanes?_of_childCount? h, Option.isSome_none]

/-- A link whose index is known when the place is built. -/
structure Step where
  isMember : Bool
  index : Word
deriving DecidableEq, Repr

/-- The link that a step takes. -/
def Step.link (step : Step) : Link :=
  if step.isMember then .member step.index else .element (.direct step.index)

/-- The step to child `i` of a value of a shape. -/
def Shape.step (s : Shape) (i : Nat) : Step := ⟨s.isStruct, i.toUInt32⟩

theorem Place.child_eq (p : Place) (s : Shape) (i : Nat) : p.child s i.toUInt32 = p.extend (s.step i).link := by
  cases s <;> rfl

/-- One of the slots that a value is kept in: the steps that lead to it, and the scalar or vector it
holds. -/
structure Slot where
  steps : List Step
  leaf : Shape
deriving DecidableEq, Repr

namespace Slot

/-- The index path from a value to the slot. -/
def path (slot : Slot) : List Word := slot.steps.map (·.index)

/-- The lanes that the slot holds. -/
def lanes (slot : Slot) : Nat := slot.leaf.lanes?.getD 0

/-- Whether the slot holds booleans. -/
def isBool (slot : Slot) : Bool := slot.leaf.scalar?.any (·.kind = .bool)

/-- The same slot, seen from a value one step further out. -/
def under (step : Step) (slot : Slot) : Slot := { slot with steps := step :: slot.steps }

/-- The place of the slot of a value that is kept at `p`. -/
def place (slot : Slot) (p : Place) : Place := { p with path := p.path ++ slot.steps.map Step.link }

variable {slot : Slot} {step : Step} {p : Place} {s : RunState}

@[simp] theorem place_nil (leaf : Shape) : (⟨[], leaf⟩ : Slot).place p = p := by
  simp [place]

theorem place_extend : slot.place (p.extend step.link) = (slot.under step).place p := by
  simp [place, under, Place.extend]

@[simp] theorem registers_place (slot : Slot) (p : Place) : (slot.place p).registers = p.registers := by
  unfold place Place.registers
  rw [filterMap_append, filterMap_map, append_right_eq_self, filterMap_eq_nil_iff]
  rintro ⟨isMember, index⟩ -
  cases isMember <;> rfl

theorem resolve_place : s.resolve (slot.place p) = s.resolve p ++ slot.path := by
  unfold RunState.resolve place path
  rw [map_append, map_map]
  congr 1
  refine map_congr_left ?_
  rintro ⟨isMember, index⟩ -
  cases isMember <;> rfl

end Slot

/-! ### Types that values in memory have -/

namespace Types

variable {types types' : Types} {s : Shape} {depth : Nat} {ty : TypeId}

/-- Values of a shape are made of scalars and vectors, nested at most `depth` deep. No composite has
more children than there are indices. -/
def StorableWithin (types : Types) : (depth : Nat) → Shape → Prop
  | 0, _ => False
  | depth + 1, s =>
    s.isRegister ∨ ∃ count, s.childCount? = some count ∧ count ≤ UInt32.size ∧
      ∀ i < count, ∃ c, types.childShape? s i = some c ∧ types.StorableWithin depth c

instance StorableWithin.decidable (types : Types) :
    (depth : Nat) → (s : Shape) → Decidable (types.StorableWithin depth s)
  | 0, _ => isFalse id
  | depth + 1, s =>
    have := StorableWithin.decidable types depth
    decidable_of_iff (s.isRegister ∨ ∃ count ∈ s.childCount?, count ≤ UInt32.size ∧
      ∀ i < count, ∃ c ∈ types.childShape? s i, types.StorableWithin depth c) Iff.rfl

/-- Values of a shape are made of scalars and vectors, nested to any depth. -/
def Storable (types : Types) (s : Shape) : Prop := ∃ depth, types.StorableWithin depth s

/-- The slots of a value of a shape that is nested at most `depth` deep, in order. -/
def slotsWithin (types : Types) : (depth : Nat) → Shape → List Slot
  | 0, _ => []
  | depth + 1, s =>
    if s.isRegister then
      [⟨[], s⟩]
    else
      (List.range (s.childCount?.getD 0)).flatMap fun i =>
        (((types.childShape? s i).map (types.slotsWithin depth)).getD []).map (.under (s.step i))

/-- The slots of a value of a shape in order: types only refer to types before them. -/
def slots (types : Types) (s : Shape) : List Slot := types.slotsWithin (types.size + 1) s

/-- The slots of a child, seen from the whole. -/
def childSlots (types : Types) (depth : Nat) (s : Shape) (i : Nat) : List Slot :=
  (((types.childShape? s i).map (types.slotsWithin depth)).getD []).map (.under (s.step i))

theorem slotsWithin_register (h : s.isRegister) : types.slotsWithin (depth + 1) s = [⟨[], s⟩] := by
  rw [slotsWithin, if_pos h]

theorem slotsWithin_composite {count : Nat} (h : s.childCount? = some count) :
    types.slotsWithin (depth + 1) s = (List.range' 0 count).flatMap (types.childSlots depth s) := by
  rw [slotsWithin, if_neg (by simp [Shape.isRegister_of_childCount? h]), h, Option.getD_some, range_eq_range']
  rfl

theorem childSlots_eq {i : Nat} {c : Shape} (h : types.childShape? s i = some c) :
    types.childSlots depth s i = (types.slotsWithin depth c).map (.under (s.step i)) := by
  rw [childSlots, h]
  rfl

/-! ### Nesting -/

theorem isRegister_or_of_childShape? {i : Nat} {c : Shape} (h : types.childShape? s i = some c) :
    c.isRegister ∨ ∃ ty, types.shape? ty = some c := by
  cases s with
  | array base length => exact .inr ⟨base, h⟩
  | struct members =>
    obtain ⟨member, -, hty⟩ := Option.bind_eq_some_iff.mp h
    exact .inr ⟨member.ty, hty⟩
  | matrix columns rows scalar =>
    cases h
    exact .inl rfl
  | _ => cases h

namespace StorableWithin

theorem register (h : s.isRegister) : types.StorableWithin (depth + 1) s := .inl h

theorem mono {depth' : Nat} (h : types.StorableWithin depth s) (hext : types.Extends types')
    (hle : depth ≤ depth') : types'.StorableWithin depth' s := by
  induction depth generalizing s depth' with
  | zero => exact h.elim
  | succ depth ih =>
    obtain ⟨depth', rfl⟩ := Nat.exists_eq_add_of_le' (Nat.lt_of_lt_of_le (Nat.succ_pos depth) hle)
    rcases h with h | ⟨count, hcount, hchild, hchildren⟩
    · exact register h
    · refine .inr ⟨count, hcount, hchild, fun i hi => ?_⟩
      obtain ⟨c, hc, hstorable⟩ := hchildren i hi
      exact ⟨c, hext.childShape? hc, ih hstorable (Nat.le_of_succ_le_succ hle)⟩

theorem succ (h : types.StorableWithin depth s) : types.StorableWithin (depth + 1) s :=
  h.mono (.refl types) (Nat.le_succ depth)

theorem children {count : Nat} (h : types.StorableWithin (depth + 1) s) (hcount : s.childCount? = some count) :
    ∀ i < count, ∃ c, types.childShape? s i = some c ∧ types.StorableWithin depth c := by
  rcases h with h | ⟨count', hcount', -, hchildren⟩
  · rw [Shape.isRegister_of_childCount? hcount] at h
    cases h
  simp_all

theorem slotsWithin_eq (h : types.StorableWithin depth s) (hext : types.Extends types') :
    types'.slotsWithin depth s = types.slotsWithin depth s := by
  induction depth generalizing s with
  | zero => rfl
  | succ depth ih =>
    rcases h with h | ⟨count, hcount, -, hchildren⟩
    · rw [slotsWithin_register h, slotsWithin_register h]
    · rw [slotsWithin_composite hcount, slotsWithin_composite hcount]
      refine flatMap_congr fun i hi => ?_
      obtain ⟨c, hc, hstorable⟩ := hchildren i (by simpa using hi)
      rw [childSlots_eq hc, childSlots_eq (hext.childShape? hc), ih hstorable]

end StorableWithin

/-- The types of the table whose values are nested at most `depth` deep. -/
noncomputable def storableTypes (types : Types) (depth : Nat) : Finset TypeId := open Classical in
  (Finset.range types.size).filter fun ty =>
    ∃ s, types.shape? ty = some s ∧ types.StorableWithin depth s

theorem lt_size_of_shape? (h : types.shape? ty = some s) : ty < types.size := by
  obtain ⟨t, ht, -⟩ := Option.map_eq_some_iff.mp h
  exact (Array.getElem?_eq_some_iff.mp ht).1

theorem mem_storableTypes :
    ty ∈ types.storableTypes depth ↔ ∃ s, types.shape? ty = some s ∧ types.StorableWithin depth s := by
  simp only [storableTypes, Finset.mem_filter, Finset.mem_range, and_iff_right_iff_imp]
  rintro ⟨s, hs, -⟩
  exact lt_size_of_shape? hs

theorem storableWithin_of_subset
    (h : types.storableTypes (depth + 2) ⊆ types.storableTypes (depth + 1)) {depth' : Nat}
    (hs : types.shape? ty = some s) (hstorable : types.StorableWithin depth' s) :
    types.StorableWithin (depth + 1) s := by
  induction depth' generalizing s ty with
  | zero => exact hstorable.elim
  | succ depth' ih =>
    rcases hstorable with hreg | ⟨count, hcount, hle, hchildren⟩
    · exact .register hreg
    · have hsucc : types.StorableWithin (depth + 2) s := by
        refine .inr ⟨count, hcount, hle, fun i hi => ?_⟩
        obtain ⟨c, hc, hc'⟩ := hchildren i hi
        refine ⟨c, hc, ?_⟩
        rcases isRegister_or_of_childShape? hc with hreg | ⟨ty', hty'⟩
        · exact .register hreg
        · exact ih hty' hc'
      obtain ⟨s', hs', hs''⟩ := mem_storableTypes.mp (h (mem_storableTypes.mpr ⟨s, hs, hsucc⟩))
      simp_all

theorem le_card_storableTypes (types : Types) (depth : Nat) : depth ≤ (types.storableTypes (depth + 1)).card ∨
      ∀ depth' ty s, types.shape? ty = some s → types.StorableWithin depth' s →
        types.StorableWithin (depth + 1) s := by
  induction depth with
  | zero => exact .inl (Nat.zero_le _)
  | succ depth ih =>
    rcases ih with ih | ih
    · by_cases hsub : types.storableTypes (depth + 2) ⊆ types.storableTypes (depth + 1)
      · exact .inr fun depth' ty s hs h => (storableWithin_of_subset hsub hs h).succ
      · left
        have hssub : types.storableTypes (depth + 1) ⊂ types.storableTypes (depth + 1 + 1) := by
          refine ⟨fun ty hty => ?_, hsub⟩
          obtain ⟨s, hs, h⟩ := mem_storableTypes.mp hty
          exact mem_storableTypes.mpr ⟨s, hs, h.succ⟩
        have := Finset.card_lt_card hssub
        omega
    · exact .inr fun depth' ty s hs h => (ih depth' ty s hs h).succ

theorem Storable.within (hs : types.shape? ty = some s) (h : types.Storable s) :
    types.StorableWithin (types.size + 1) s := by
  obtain ⟨depth, h⟩ := h
  rcases types.le_card_storableTypes types.size with hcard | hall
  · -- all types of the table are reached
    have hrange : types.storableTypes (types.size + 1) = Finset.range types.size := by
      refine Finset.eq_of_subset_of_card_le (fun ty' hty' => ?_) (by rwa [Finset.card_range])
      obtain ⟨s', hs', -⟩ := mem_storableTypes.mp hty'
      exact Finset.mem_range.mpr (lt_size_of_shape? hs')
    have hmem := Finset.mem_range.mpr (lt_size_of_shape? hs)
    rw [← hrange] at hmem
    obtain ⟨s', hs', h'⟩ := mem_storableTypes.mp hmem
    simp_all
  · exact hall depth ty s hs h

/-! ### No two slots are the same -/

theorem isRegister_of_mem_slotsWithin {slot : Slot} (h : slot ∈ types.slotsWithin depth s) :
    slot.leaf.isRegister := by
  induction depth generalizing s slot with
  | zero => cases h
  | succ depth ih =>
    rw [slotsWithin] at h
    split at h
    · obtain rfl := mem_singleton.mp h
      assumption
    · obtain ⟨i, -, h⟩ := mem_flatMap.mp h
      obtain ⟨slot', h', rfl⟩ := mem_map.mp h
      cases hc : types.childShape? s i with
      | none => simp [hc] at h'
      | some c =>
        simp only [hc, Option.map_some, Option.getD_some] at h'
        change slot'.leaf.isRegister = true
        exact ih h'

theorem toUInt32_inj {i j : Nat} (hi : i < UInt32.size) (hj : j < UInt32.size)
    (h : i.toUInt32 = j.toUInt32) : i = j := by
  have := congrArg UInt32.toNat h
  simpa [Nat.mod_eq_of_lt, hi, hj] using this

theorem StorableWithin.nodup (h : types.StorableWithin depth s) :
    ((types.slotsWithin depth s).map Slot.path).Nodup := by
  induction depth generalizing s with
  | zero => exact nodup_nil
  | succ depth ih =>
    rcases h with h | ⟨count, hcount, hle, hchildren⟩
    · rw [slotsWithin_register h]
      exact nodup_singleton _
    · have hpaths (i : Nat) (hi : i < count) : ∃ paths : List (List Word), paths.Nodup ∧
          (types.childSlots depth s i).map Slot.path = paths.map (i.toUInt32 :: ·) := by
        obtain ⟨c, hc, hstorable⟩ := hchildren i hi
        refine ⟨_, ih hstorable, ?_⟩
        rw [childSlots_eq hc, map_map, map_map]
        rfl
      rw [slotsWithin_composite hcount, map_flatMap, nodup_flatMap]
      refine ⟨fun i hi => ?_, ?_⟩
      · grind
      · -- slots of different children differ in their first index
        refine List.Pairwise.imp_of_mem ?_ (nodup_range' : (List.range' 0 count).Nodup)
        intro i j hi hj hne path hpath hpath'
        have hi : i < count := by simpa using hi
        have hj : j < count := by simpa using hj
        obtain ⟨paths, -, heq⟩ := hpaths i hi
        obtain ⟨paths', -, heq'⟩ := hpaths j hj
        simp only [heq] at hpath
        simp only [heq'] at hpath'
        obtain ⟨rest, -, rfl⟩ := mem_map.mp hpath
        obtain ⟨rest', -, hrest⟩ := mem_map.mp hpath'
        exact hne (toUInt32_inj (by omega) (by omega) (List.cons.inj hrest).1.symm)

end Types

end ShaderIR
