import Mathlib.Tactic.Common
import ShaderIR.Proofs.Interning
import ShaderIR.Proofs.Tables
import ShaderIR.Spirv.Lowering

/-!
# Trees that mirror a shape

A value is made of scalars and vectors that are nested as its type says. A tree mirrors a shape if it has a
register with the right number of lanes for each scalar and vector, and a node with one tree for each element,
member and column. So how a tree is nested, and which lanes it has, depends on the shape alone. A constant holds
a shape if it has words for its scalars, vectors and matrices, and a constant for each element and member.
-/

namespace ShaderIR

open List

theorem VectorSize.one_le_lanes (size : VectorSize) : 1 ≤ size.lanes := by
  cases size <;> decide

theorem Shape.lanes?_of_childCount? {s : Shape} {count : Nat} (h : s.childCount? = some count) :
    s.lanes? = none := by
  cases s <;> first | rfl | cases h

namespace Types

variable {types types' : Types} {ty : TypeId} {s : Shape}

theorem shape?_insertShape (types : Types) (s : Shape) :
    (types.insertShape s).2.shape? (types.insertShape s).1 = some s := by
  rw [shape?, insertShape, Interner.get?_insert]
  rfl

theorem Extends.size_le (h : types.Extends types') : types.size ≤ types'.size := by
  by_contra hlt
  have hlt : types'.size < types.size := Nat.lt_of_not_le hlt
  have hget : types.get? types'.size = some types.items[types'.size] := Array.getElem?_eq_getElem hlt
  exact absurd (Array.getElem?_eq_some_iff.mp (h _ _ hget)).1 (Nat.lt_irrefl _)

/-- The shape of a child of a value of some shape. -/
def childShape? (types : Types) (s : Shape) (index : Nat) : Option Shape :=
  match s with
  | .array base _ => types.shape? base
  | .struct members => members[index]?.bind fun m => types.shape? m.ty
  | .matrix _ rows scalar => some (.vector rows scalar)
  | _ => none

theorem Extends.childShape? (h : types.Extends types') {i : Nat} {c : Shape}
    (hc : types.childShape? s i = some c) : types'.childShape? s i = some c := by
  cases s with
  | array base length => exact h.shape? hc
  | struct members =>
    obtain ⟨member, hmember, hty⟩ := Option.bind_eq_some_iff.mp hc
    exact Option.bind_eq_some_iff.mpr ⟨member, hmember, h.shape? hty⟩
  | matrix columns rows scalar => exact hc
  | _ => cases hc

theorem child?_matrix {columns rows : VectorSize} {scalar : Scalar}
    (hs : types.shape? ty = some (.matrix columns rows scalar)) (i : Nat) :
    types.child? ty i = some (types.insertShape (.vector rows scalar)) := by
  rw [child?, hs]
  cases rows <;> rfl

theorem exists_child? {i : Nat} {c : Shape} (hs : types.shape? ty = some s)
    (hc : types.childShape? s i = some c) :
    ∃ child types', types.child? ty i = some (child, types') ∧ types'.shape? child = some c := by
  cases s with
  | array base length =>
    refine ⟨base, types, ?_, hc⟩
    rw [child?, hs]
  | struct members =>
    obtain ⟨member, hmember, hty⟩ := Option.bind_eq_some_iff.mp hc
    refine ⟨member.ty, types, ?_, hty⟩
    rw [child?, hs]
    simp [hmember]
  | matrix columns rows scalar =>
    cases hc
    exact ⟨_, _, child?_matrix hs i, shape?_insertShape types _⟩
  | _ => cases hc

/-- The type of a child has the shape of the child. -/
theorem shape?_of_child? {i : Nat} {child : TypeId} (hs : types.shape? ty = some s) (hlanes : s.lanes? = none)
    (h : types.child? ty i = some (child, types')) : types'.shape? child = types'.childShape? s i := by
  cases s with
  | array base length =>
    rw [child?, hs] at h
    cases h
    rfl
  | struct members =>
    rw [child?, hs] at h
    obtain ⟨member, hmember, h⟩ := Option.map_eq_some_iff.mp h
    cases h
    rw [childShape?, hmember, Option.bind_some]
  | matrix columns rows scalar =>
    rw [child?_matrix hs, Option.some_inj, Prod.ext_iff] at h
    obtain ⟨rfl, rfl⟩ := h
    exact shape?_insertShape types _
  | scalar | vector => cases hlanes
  | _ => simp [child?, hs] at h

end Types

/-! ### Constants -/

/-- How many words a flat constant of a shape has. -/
def Shape.flatSize? : Shape → Option Nat
  | .matrix columns rows _ => some (columns.lanes * rows.lanes)
  | s => s.lanes?

namespace Module

/-- A module has the types and constants of another under the same numbers, and maybe more. -/
structure Precedes (m m' : Module) : Prop where
  types : m.types.Extends m'.types
  constants : ∀ (k : Nat) (constant : Constant), m.constants[k]? = some constant → m'.constants[k]? = some constant

variable {m m' m'' : Module} {k : ConstantId} {s : Shape}

@[refl] protected theorem Precedes.refl (m : Module) : m.Precedes m := ⟨.refl _, fun _ _ h => h⟩

protected theorem Precedes.trans (h : m.Precedes m') (h' : m'.Precedes m'') : m.Precedes m'' :=
  ⟨h.types.trans h'.types, fun k constant hk => h'.constants k constant (h.constants k constant hk)⟩

/-- A constant has the words, or the children, of a value of a shape. -/
inductive Holds (m : Module) : ConstantId → Shape → Prop
  | flat {k name ty bits s} (hk : m.constants[k]? = some { name, ty, value := .flat bits })
      (hty : m.types.shape? ty = some s) (hsize : s.flatSize? = some bits.length) : Holds m k s
  | composite {k name ty children s} (hk : m.constants[k]? = some { name, ty, value := .composite children })
      (hty : m.types.shape? ty = some s) (hcount : s.childCount? = some children.length) (shape : Nat → Shape)
      (hshape : ∀ i < children.length, m.types.childShape? s i = some (shape i))
      (hchildren : ∀ (i : Nat) child, children[i]? = some child → Holds m child (shape i)) : Holds m k s

namespace Holds

theorem mono (h : m.Holds k s) (hm : m.Precedes m') : m'.Holds k s := by
  induction h with
  | flat hk hty hsize => exact .flat (hm.constants _ _ hk) (hm.types.shape? hty) hsize
  | composite hk hty hcount shape hshape _ ih =>
    exact .composite (hm.constants _ _ hk) (hm.types.shape? hty) hcount shape
      (fun i hi => hm.types.childShape? (hshape i hi)) ih

theorem lt_size (h : m.Holds k s) : k < m.constants.size := by
  cases h with
  | flat hk | composite hk => exact (Array.getElem?_eq_some_iff.mp hk).1

theorem of_children {name : Option String} {ty : TypeId} {children : List ConstantId}
    (hk : m.constants[k]? = some { name, ty, value := .composite children }) (hty : m.types.shape? ty = some s)
    (hcount : s.childCount? = some children.length) (h : ∀ (i : Nat) child, children[i]? = some child →
      ∃ s', m.types.childShape? s i = some s' ∧ m.Holds child s') : m.Holds k s := by
  refine .composite hk hty hcount (fun i => (m.types.childShape? s i).getD .void) (fun i hi => ?_)
    fun i child hchild => ?_
  · obtain ⟨s', hs', -⟩ := h i _ (getElem?_eq_getElem hi)
    rw [hs', Option.getD_some]
  · obtain ⟨s', hs', hheld⟩ := h i child hchild
    rwa [hs', Option.getD_some]

end Holds

end Module

namespace Spirv

variable {c c' : Context} {r : Register} {n : Nat}

/-! ### Nests -/

/-- A value taken apart down to its lanes. -/
inductive Nest (α : Type) where
  | vector (lanes : List α)
  | composite (parts : List (Nest α))

namespace Tree

variable {α : Type}

mutual

/-- The nest of a tree whose registers have given lanes. -/
def nest (lanes : Register → List α) : Tree → Nest α
  | leaf _ _ r => .vector (lanes r)
  | node _ _ children => .composite (nestOfList lanes children)

def nestOfList (lanes : Register → List α) : List Tree → List (Nest α)
  | [] => []
  | t :: ts => t.nest lanes :: nestOfList lanes ts

end

theorem nestOfList_eq_map (lanes : Register → List α) (ts : List Tree) :
    nestOfList lanes ts = ts.map (nest lanes) := by
  induction ts with
  | nil => rfl
  | cons t ts ih => rw [nestOfList, ih, map_cons]

end Tree

mutual

/-- The numbers of lanes of the vectors of a value from left to right. -/
def Nest.widths {α : Type} : Nest α → List Nat
  | vector lanes => [lanes.length]
  | composite parts => widthsOfList parts

def Nest.widthsOfList {α : Type} : List (Nest α) → List Nat
  | [] => []
  | v :: vs => v.widths ++ widthsOfList vs

end

variable {α : Type}

mutual

theorem Tree.widths_nest {lanes : Register → List α} :
    ∀ t : Tree, (t.nest lanes).widths = t.leaves.map fun r => (lanes r).length
  | leaf _ _ _ => rfl
  | node _ _ children => widthsOfList_nestOfList children

theorem Tree.widthsOfList_nestOfList {lanes : Register → List α} :
    ∀ ts : List Tree,
      Nest.widthsOfList (nestOfList lanes ts) = (leavesOfList ts).map fun r => (lanes r).length
  | [] => rfl
  | t :: ts => by
    rw [nestOfList, Nest.widthsOfList, leavesOfList, map_append, widths_nest t,
      widthsOfList_nestOfList ts]

end

/-! ### Registers -/

/-- How many lanes the register of a function has. -/
def laneCount (c : Context) (r : Register) : Nat :=
  (c.function.instructions[r]?.map Instruction.lanes).getD 0

/-- A register of `n` lanes. -/
def HasLanes (c : Context) (q : Register) (n : Nat) : Prop :=
  ∃ i, c.function.instructions[q]? = some i ∧ i.lanes = n

instance : Decidable (HasLanes c r n) :=
  decidable_of_iff (c.function.instructions[r]?.map Instruction.lanes = some n) Option.map_eq_some_iff

theorem HasLanes.laneCount_eq (h : HasLanes c r n) : laneCount c r = n := by
  obtain ⟨i, hi, rfl⟩ := h
  rw [laneCount, hi]
  rfl

theorem HasLanes.lt {q : Nat} (h : HasLanes c q n) : q < c.function.instructions.size := by
  obtain ⟨i, hi, -⟩ := h
  grind

namespace Tree

/-- How a tree is nested, and how many lanes its vectors have. -/
def form (c : Context) (t : Tree) : Nest Unit := t.nest fun r => List.replicate (laneCount c r) ()

section

variable (c : Context) (key : Nat) (ty : TypeId) (r : Register) (children : List Tree)

theorem form_leaf : (leaf key ty r).form c = .vector (List.replicate (laneCount c r) ()) := rfl

theorem form_node : (node key ty children).form c = .composite (children.map (form c)) :=
  congrArg Nest.composite (nestOfList_eq_map _ children)

end

/-! ### Mirrors -/

/-- A tree has the parts of a value of a shape that is nested at most `depth` deep: a register of as many lanes
for a scalar or a vector, and a tree for each child of a composite. -/
def MirrorsWithin (c : Context) : (depth : Nat) → Shape → Tree → Prop
  | 0, _, _ => False
  | _ + 1, s, leaf _ ty r => c.module.types.shape? ty = some s ∧ ∃ n, s.lanes? = some n ∧ HasLanes c r n
  | depth + 1, s, node _ ty children =>
    c.module.types.shape? ty = some s ∧ s.childCount? = some children.length ∧
      ∀ i t, children[i]? = some t →
        ∃ child, c.module.types.childShape? s i = some child ∧ t.MirrorsWithin c depth child

namespace MirrorsWithin

variable {depth depth' : Nat} {s : Shape} {t t' : Tree}

theorem mono (h : t.MirrorsWithin c depth s) (hle : depth ≤ depth')
    (htypes : c.module.types.Extends c'.module.types)
    (hregisters : ∀ r n, HasLanes c r n → HasLanes c' r n) : t.MirrorsWithin c' depth' s := by
  induction depth generalizing s t depth' with
  | zero => exact h.elim
  | succ depth ih =>
    obtain ⟨depth', rfl⟩ := Nat.exists_eq_add_of_le' (Nat.lt_of_lt_of_le (Nat.succ_pos depth) hle)
    cases t with
    | leaf key ty r =>
      obtain ⟨hty, n, hn, hr⟩ := h
      exact ⟨htypes.shape? hty, n, hn, hregisters r n hr⟩
    | node key ty children =>
      obtain ⟨hty, hcount, hchildren⟩ := h
      refine ⟨htypes.shape? hty, hcount, fun i t ht => ?_⟩
      obtain ⟨child, hchild, ht⟩ := hchildren i t ht
      exact ⟨child, htypes.childShape? hchild, ih ht (Nat.le_of_succ_le_succ hle)⟩

/-- Trees that mirror one shape are nested alike and have the same lanes. -/
theorem form_eq (h : t.MirrorsWithin c depth s) (h' : t'.MirrorsWithin c' depth' s)
    (htypes : c.module.types.Extends c'.module.types) : t.form c = t'.form c' := by
  induction depth generalizing depth' s t t' with
  | zero => exact h.elim
  | succ depth ih =>
    cases depth' with
    | zero => exact h'.elim
    | succ depth' =>
      cases t with
      | leaf key ty r =>
        obtain ⟨-, n, hn, hr⟩ := h
        cases t' with
        | leaf key' ty' r' =>
          obtain ⟨-, n', hn', hr'⟩ := h'
          cases hn.symm.trans hn'
          rw [form_leaf, form_leaf, hr.laneCount_eq, hr'.laneCount_eq]
        | node key' ty' children' => cases hn.symm.trans (Shape.lanes?_of_childCount? h'.2.1)
      | node key ty children =>
        obtain ⟨-, hcount, hchildren⟩ := h
        cases t' with
        | leaf key' ty' r' =>
          obtain ⟨-, n, hn, -⟩ := h'
          cases hn.symm.trans (Shape.lanes?_of_childCount? hcount)
        | node key' ty' children' =>
          obtain ⟨-, hcount', hchildren'⟩ := h'
          have hlength : children.length = children'.length := Option.some.inj (hcount.symm.trans hcount')
          rw [form_node, form_node]
          refine congrArg Nest.composite (List.ext_getElem (by simpa using hlength) fun i hi hi' => ?_)
          rw [List.length_map] at hi hi'
          obtain ⟨child, hchild, ht⟩ := hchildren i _ (getElem?_eq_getElem hi)
          obtain ⟨child', hchild', ht'⟩ := hchildren' i _ (getElem?_eq_getElem hi')
          cases (htypes.childShape? hchild).symm.trans hchild'
          simpa using ih ht ht'

end MirrorsWithin

theorem length_leaves_eq {t t' : Tree} (h : t.form c = t'.form c') : t.leaves.length = t'.leaves.length := by
  simpa [form, widths_nest] using congrArg (fun v => v.widths.length) h

end Tree

end Spirv

end ShaderIR
