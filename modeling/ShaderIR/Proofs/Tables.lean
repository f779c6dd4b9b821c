import Mathlib.Tactic.Common
import ShaderIR.Spirv.IdTable

/-!
# Tables that only grow

Types keep their numbers when further types are added, and an id that has a meaning keeps it when
other ids get theirs.
-/

namespace ShaderIR

/-! ### Types -/

namespace Types

variable {types types' types'' : Types} {ty ty' : TypeId}

/-- Every type that the first table has, the second has under the same number. -/
def Extends (types types' : Types) : Prop := ∀ ty t, types.get? ty = some t → types'.get? ty = some t

namespace Extends

@[refl] protected theorem refl (types : Types) : types.Extends types := fun _ _ h => h

protected theorem trans (h : types.Extends types') (h' : types'.Extends types'') :
    types.Extends types'' := fun ty t ht => h' ty t (h ty t ht)

theorem shape? (h : types.Extends types') {shape : Shape} (hs : types.shape? ty = some shape) :
    types'.shape? ty = some shape := by
  obtain ⟨t, ht, rfl⟩ := Option.map_eq_some_iff.mp hs
  exact Option.map_eq_some_iff.mpr ⟨t, h ty t ht, rfl⟩

end Extends

theorem extends_insert (types : Types) (t : Ty) : types.Extends (types.insert t).2 := by
  unfold Interner.insert
  cases types.find? t with
  | some i => exact .refl types
  | none =>
    intro ty t' h
    obtain ⟨hlt, -⟩ := Array.getElem?_eq_some_iff.mp h
    change (types.items.push t)[ty]? = some t'
    rw [Array.getElem?_push_lt hlt]
    exact (Array.getElem?_eq_getElem hlt).symm.trans h

variable {scalar : Scalar}

theorem extends_of_vector? {lanes : Nat} (h : types.vector? scalar lanes = some (ty, types')) :
    types.Extends types' := by
  unfold vector? at h
  split at h
  · obtain rfl : (types.insertShape _).2 = types' := congrArg Prod.snd (Option.some.inj h)
    exact extends_insert types _
  · obtain ⟨size, -, hsize⟩ := Option.map_eq_some_iff.mp h
    obtain rfl : (types.insertShape _).2 = types' := congrArg Prod.snd hsize
    exact extends_insert types _

theorem extends_of_matrix? {columns rows : Nat}
    (h : types.matrix? scalar columns rows = some (ty, types')) : types.Extends types' := by
  unfold matrix? at h
  split at h
  · exact extends_of_vector? h
  · split at h
    · obtain rfl : (types.insertShape _).2 = types' := congrArg Prod.snd (Option.some.inj h)
      exact extends_insert types _
    · simp at h

theorem lanes_of_vector? {lanes : Nat} (h : types.vector? scalar lanes = some (ty, types')) :
    1 ≤ lanes ∧ lanes ≤ 4 := by
  unfold vector? at h
  split at h
  · omega
  · obtain ⟨size, hsize, -⟩ := Option.map_eq_some_iff.mp h
    unfold VectorSize.ofLanes? at hsize
    split at hsize <;> simp at hsize ⊢

theorem size_of_matrix? {columns rows : Nat} (h : types.matrix? scalar columns rows = some (ty, types')) :
    (1 ≤ columns ∧ columns ≤ 4) ∧ 1 ≤ rows ∧ rows ≤ 4 := by
  have hsize {n : Nat} {size : VectorSize} (hn : VectorSize.ofLanes? n = some size) : 1 ≤ n ∧ n ≤ 4 := by
    unfold VectorSize.ofLanes? at hn
    split at hn <;> simp at hn ⊢
  unfold matrix? at h
  split at h
  · exact ⟨by omega, lanes_of_vector? h⟩
  grind

theorem extends_of_child? {index : Nat} (h : types.child? ty index = some (ty', types')) :
    types.Extends types' := by
  unfold child? at h
  split at h
  · cases h
    exact .refl _
  · obtain ⟨member, -, hmember⟩ := Option.map_eq_some_iff.mp h
    cases hmember
    exact .refl _
  · exact extends_of_vector? h
  · exact extends_of_vector? h
  · simp at h

end Types

/-! ### Ids -/

namespace Spirv.IdTable

variable {ids ids' ids'' : IdTable} {id : Id} {v : Value}

/-- Every id that has a meaning in the first table has the same in the second. -/
def Extends (ids ids' : IdTable) : Prop := ∀ id v, ids.get id = .ok v → ids'.get id = .ok v

namespace Extends

@[refl] protected theorem refl (ids : IdTable) : ids.Extends ids := fun _ _ h => h

protected theorem trans (h : ids.Extends ids') (h' : ids'.Extends ids'') : ids.Extends ids'' :=
  fun id v hv => h' id v (h id v hv)

end Extends

theorem get_eq_ok : ids.get id = .ok v ↔ ∃ s, ids.slots[id.toNat]? = some s ∧ s.value = some v := by
  unfold get slot
  cases ids.slots[id.toNat]? with
  | none => simp [bind, Except.bind]
  | some s =>
    simp only [bind, Except.bind, Option.some.injEq, exists_eq_left']
    cases s.value with
    | none => simp
    | some w => simp

theorem define_eq_ok : ids.define id v = .ok ids' ↔ ∃ s, ids.slots[id.toNat]? = some s ∧ s.value = none ∧
        ids' = ⟨ids.slots.setIfInBounds id.toNat { s with value := some v }⟩ := by
  unfold define slot
  cases hs : ids.slots[id.toNat]? with
  | none => simp [bind, Except.bind]
  | some s =>
    simp only [bind, Except.bind, Option.some.injEq, exists_eq_left']
    cases s.value with
    | none => simp [update, hs, eq_comm]
    | some w => simp

section

variable (h : ids.define id v = .ok ids')
include h

theorem get_of_define : ids'.get id = .ok v := by
  obtain ⟨s, hs, -, rfl⟩ := define_eq_ok.mp h
  obtain ⟨hlt, -⟩ := Array.getElem?_eq_some_iff.mp hs
  exact get_eq_ok.mpr ⟨{ s with value := some v }, by simp [hlt], rfl⟩

theorem get_define_of_ne {other : Id} {w : Value}
    (hne : other ≠ id) : ids'.get other = .ok w ↔ ids.get other = .ok w := by
  obtain ⟨s, hs, -, rfl⟩ := define_eq_ok.mp h
  have hne' : id.toNat ≠ other.toNat := fun he => hne (UInt32.toNat_inj.mp he).symm
  simp only [get_eq_ok, Array.getElem?_setIfInBounds_ne hne']

theorem get_ne_ok_of_define (w : Value) : ids.get id ≠ .ok w := by
  obtain ⟨s, hs, hnone, -⟩ := define_eq_ok.mp h
  intro hw
  obtain ⟨s', hs', hsome⟩ := get_eq_ok.mp hw
  simp_all

theorem eq_or_get_of_define {other : Id} {w : Value}
    (hget : ids'.get other = .ok w) : (other = id ∧ w = v) ∨ ids.get other = .ok w := by
  by_cases hother : other = id
  · subst hother
    exact .inl ⟨rfl, Except.ok.inj (hget.symm.trans (get_of_define h))⟩
  · exact .inr ((get_define_of_ne h hother).mp hget)

theorem extends_of_define : ids.Extends ids' := by
  intro other w hw
  by_cases hne : other = id
  · subst hne
    exact absurd hw (get_ne_ok_of_define h w)
  · exact (get_define_of_ne h hne).mpr hw

end

theorem block_eq_ok {n : Nat} : ids.block id = .ok n ↔ ids.get id = .ok (.block n) := by
  unfold block
  cases ids.get id with
  | error e => simp [bind, Except.bind]
  | ok v => cases v <;> simp [bind, Except.bind]

theorem get_of_constant {k : ConstantId} (h : ids.constant id = .ok k) : ids.get id = .ok (.constant k) := by
  unfold constant at h
  cases hv : ids.get id with
  | error e => simp [hv, bind, Except.bind] at h
  | ok v =>
    rw [hv] at h
    cases v <;> simp [bind, Except.bind] at h
    rw [h]

theorem pointer_eq_ok {p : Pointer} : ids.pointer id = .ok p ↔ ids.get id = .ok (.pointer p) := by
  unfold pointer
  cases ids.get id with
  | error e => simp [bind, Except.bind]
  | ok v => cases v <;> simp [bind, Except.bind]

end Spirv.IdTable

end ShaderIR
