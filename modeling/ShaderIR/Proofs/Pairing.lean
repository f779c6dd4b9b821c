import Mathlib.Data.List.Forall2
import Mathlib.Data.List.Nodup
import Mathlib.Tactic.Common
import ShaderIR.Proofs.Growth
import ShaderIR.Proofs.Interning
import ShaderIR.Proofs.Tables
import ShaderIR.Spirv.Code.Arithmetic

/-!
# Things of two readings that belong together

Two readings of streams that differ in little build tables that differ in little. What may differ are
names, the numbers of types that names tell apart, and the second of the derivatives that the width of
a derivative adds up. A pairing says which type of the second reading belongs to a type of the first;
everything that mentions types belongs together along the pairing.
-/

/-- Entries of two arrays with the same index belong together. -/
def Array.Pointwise {α β : Type} (R : α → β → Prop) (a : Array α) (b : Array β) : Prop :=
  ∀ i : Nat, Option.Rel R a[i]? b[i]?

/-- What the second of two look-ups comes to, given the first: related results, and the same error if
that matters. -/
def Except.Follows {ε α β : Type} (strict : Prop) (R : α → β → Prop) : Except ε α → Except ε β → Prop
  | .ok a, y => ∃ b, y = .ok b ∧ R a b
  | .error e, y => strict → y = .error e

namespace Option.Rel

variable {α β γ δ : Type} {R S : α → β → Prop} {a : Option α} {b : Option β}

protected theorem mono (hRS : ∀ a b, R a b → S a b) (h : Option.Rel R a b) : Option.Rel S a b := by
  cases h with
  | some h => exact .some (hRS _ _ h)
  | none => exact .none

theorem exists_of_some {x : α} (h : Option.Rel R (Option.some x) b) : ∃ y, b = Option.some y ∧ R x y := by
  cases h with
  | some h => exact ⟨_, rfl, h⟩

theorem eq_none (h : Option.Rel R Option.none b) : b = Option.none := by
  cases h
  rfl

theorem isSome_eq (h : Option.Rel R a b) : b.isSome = a.isSome := by
  cases h <;> rfl

end Option.Rel

namespace Array.Pointwise

variable {α β : Type} {R S : α → β → Prop} {a : Array α} {b : Array β}

section

variable (h : a.Pointwise R b)
include h

theorem size_eq : b.size = a.size := by
  rcases Nat.lt_trichotomy a.size b.size with hlt | heq | hlt
  · have hrel := h a.size
    simp_all
  · exact heq.symm
  · have hrel := h b.size
    simp_all

protected theorem mono (hRS : ∀ x y, R x y → S x y) : a.Pointwise S b :=
  fun i => (h i).mono hRS

protected theorem push {x : α} {y : β} (hxy : R x y) :
    (a.push x).Pointwise R (b.push y) := by
  intro i
  rw [Array.getElem?_push, Array.getElem?_push, h.size_eq]
  split
  · exact .some hxy
  · exact h i

protected theorem setIfInBounds {x : α} {y : β} (hxy : R x y) (k : Nat) :
    (a.setIfInBounds k x).Pointwise R (b.setIfInBounds k y) := by
  intro i
  rw [Array.getElem?_setIfInBounds, Array.getElem?_setIfInBounds, h.size_eq]
  split
  · split
    · exact .some hxy
    · exact .none
  · exact h i

end

theorem eq_of_eq {b : Array α} (h : a.Pointwise (fun x y => y = x) b) : b = a := by
  apply Array.ext_getElem?
  intro i
  cases hi : a[i]? with
  | none =>
    have hrel := h i
    rw [hi] at hrel
    exact hrel.eq_none
  | some x =>
    have hrel := h i
    rw [hi] at hrel
    obtain ⟨y, hy, rfl⟩ := hrel.exists_of_some
    exact hy

end Array.Pointwise

namespace Except.Follows

variable {ε α β γ δ : Type} {strict : Prop} {R : α → β → Prop} {S : γ → δ → Prop}
  {x : Except ε α} {y : Except ε β}

protected theorem ok {a : α} {b : β} (h : R a b) :
    Except.Follows strict R (.ok a : Except ε α) (.ok b) := ⟨b, rfl, h⟩

protected theorem error {e e' : ε} (h : strict → e' = e) :
    Except.Follows strict R (.error e) (.error e') := fun hs => by rw [h hs]

protected theorem bind {f : α → Except ε γ} {g : β → Except ε δ} (h : Except.Follows strict R x y)
    (hf : ∀ a b, R a b → Except.Follows strict S (f a) (g b)) :
    Except.Follows strict S (x >>= f) (y >>= g) := by
  cases x with
  | ok a =>
    obtain ⟨b, rfl, hab⟩ := h
    exact hf a b hab
  | error e =>
    intro hs
    rw [h hs]
    rfl

end Except.Follows

namespace ShaderIR

open List

/-! ### Lists with the same keys -/

/-- Associations of the same keys, with values that belong together. -/
def KeyedAlike {κ α β : Type} (R : α → β → Prop) (p : κ × α) (q : κ × β) : Prop := q.1 = p.1 ∧ R p.2 q.2

variable {α β : Type} {l : List α} {l' : List β}

theorem lookup_alike {κ : Type} [BEq κ] {R : α → β → Prop} {l : List (κ × α)} {l' : List (κ × β)}
    (h : List.Forall₂ (KeyedAlike R) l l') (k : κ) : Option.Rel R (l.lookup k) (l'.lookup k) := by
  induction h with
  | nil => exact .none
  | @cons p q _ _ hpq _ ih =>
    obtain ⟨key, a⟩ := p
    obtain ⟨key', b⟩ := q
    obtain ⟨rfl, hab⟩ : key' = key ∧ R a b := hpq
    rw [lookup_cons, lookup_cons]
    split
    · exact .some hab
    · exact ih

theorem filter_alike {κ : Type} {R : α → β → Prop} {l : List (κ × α)} {l' : List (κ × β)}
    (h : List.Forall₂ (KeyedAlike R) l l') (keep : κ → Bool) :
    List.Forall₂ (KeyedAlike R) (l.filter fun x => keep x.1) (l'.filter fun x => keep x.1) := by
  induction h with
  | nil => exact .nil
  | @cons _ _ _ _ hpq _ ih =>
    rw [filter_cons, filter_cons, hpq.1]
    split
    · exact .cons hpq ih
    · exact ih

theorem getElem?_alike {R : α → β → Prop} (h : List.Forall₂ R l l') (i : Nat) : Option.Rel R l[i]? l'[i]? := by
  induction h generalizing i with
  | nil => exact .none
  | cons hab _ ih =>
    cases i with
    | zero => exact .some hab
    | succ i => exact ih i

theorem exists_alike_of_mem {R : α → β → Prop} (h : List.Forall₂ R l l') {b : β} (hb : b ∈ l') : ∃ a, R a b := by
  induction h with
  | nil => cases hb
  | cons hab _ ih =>
    grind

theorem eq_of_forall₂_eq {l' : List α} (h : List.Forall₂ (fun a b => b = a) l l') : l' = l := by
  induction h with
  | nil => rfl
  | cons hab _ ih => rw [hab, ih]

theorem forall_of_forall₂_left {P : α → Prop} (h : List.Forall₂ (fun a _ => P a) l l') : ∀ a ∈ l, P a := by
  induction h with
  | nil => exact fun _ ha => nomatch ha
  | cons ha _ ih => exact forall_mem_cons.mpr ⟨ha, ih⟩

theorem forall₂_and_right {R : α → β → Prop} {P : β → Prop} (h : List.Forall₂ R l l')
    (hP : ∀ b ∈ l', P b) : List.Forall₂ (fun a b => R a b ∧ P b) l l' := by
  induction h with
  | nil => exact .nil
  | cons hab _ ih =>
    simp_all

theorem forall₂_replicate {R : α → β → Prop} {a : α} {b : β} (h : R a b) (n : Nat) :
    List.Forall₂ R (List.replicate n a) (List.replicate n b) := by
  induction n with
  | zero => exact .nil
  | succ n ih => exact .cons h ih

theorem set_alike {R : α → β → Prop} (h : List.Forall₂ R l l') {a : α} {b : β} (hab : R a b)
    (i : Nat) : List.Forall₂ R (l.set i a) (l'.set i b) := by
  induction h generalizing i with
  | nil => exact .nil
  | cons h hs ih =>
    cases i with
    | zero => exact .cons hab hs
    | succ i => exact .cons h (ih i)

namespace Spirv

/-- What two readings may differ in. -/
structure Latitude where
  /-- What becomes of a name in the second reading. -/
  rename : Option String → Option String
  rename_none : rename none = none
  /-- How each reading expands the width of a derivative. -/
  first : FwidthExpansion
  second : FwidthExpansion
  /-- Whether the second reading is to fail as the first does. -/
  Strict : Prop
  rename_of_strict : Strict → ∀ name, rename name = name

/-- Two readings that give all names alike. -/
def Latitude.named (first second : FwidthExpansion) (Strict : Prop) : Latitude where
  rename := id
  rename_none := rfl
  first
  second
  Strict
  rename_of_strict := fun _ _ => rfl

/-- Names that belong together: a name may also be kept. -/
def Latitude.Named (L : Latitude) (name name' : Option String) : Prop := name' = name ∨ name' = L.rename name

theorem Latitude.Named.same (L : Latitude) (name : Option String) : L.Named name name := .inl rfl

theorem Latitude.Named.eq {L : Latitude} {name name' : Option String} (h : L.Named name name')
    (hL : ∀ name, L.rename name = name) : name' = name := by
  rcases h with rfl | rfl
  · rfl
  · exact hL name

/-! ### Types -/

/-- The type of the second reading for each type of the first, by number. -/
abbrev TypeMap := List TypeId

/-- The type of the second reading that belongs to a type of the first. -/
def TypeMap.Maps (w : TypeMap) (ty ty' : TypeId) : Prop := w[ty]? = some ty'

end Spirv

open Spirv

variable {L : Latitude} {w w' : TypeMap} {n n' : Nat}

theorem Spirv.TypeMap.Maps.mono {ty ty' : TypeId} (h : w.Maps ty ty') (hw : w <+: w') : w'.Maps ty ty' := by
  obtain ⟨rest, rfl⟩ := hw
  obtain ⟨hlt, -⟩ := List.getElem?_eq_some_iff.mp h
  exact (List.getElem?_append_left hlt).trans h

/-- Members that belong together. -/
def Member.Alike (L : Latitude) (w : TypeMap) (m m' : Member) : Prop :=
  w.Maps m.ty m'.ty ∧ m' = { m with ty := m'.ty, name := L.rename m.name }

/-- Shapes that belong together. -/
def Shape.Alike (L : Latitude) (w : TypeMap) : Shape → Shape → Prop
  | .array base length, s => ∃ base', w.Maps base base' ∧ s = .array base' length
  | .struct members, s => ∃ members', List.Forall₂ (Member.Alike L w) members members' ∧
      s = .struct members'
  | .function result params, s => ∃ result' params', w.Maps result result' ∧
      List.Forall₂ w.Maps params params' ∧ s = .function result' params'
  | s, s' => s' = s

/-- Types that belong together. -/
def Ty.Alike (L : Latitude) (w : TypeMap) (t t' : Ty) : Prop :=
  t'.name = L.rename t.name ∧ t.shape.Alike L w t'.shape

/-- The types that a shape mentions. -/
def Shape.mentions : Shape → List TypeId
  | .array base _ => [base]
  | .struct members => members.map (·.ty)
  | .function result params => result :: params
  | _ => []

theorem Member.Alike.mono {m m' : Member} (h : m.Alike L w m') (hw : w <+: w') :
    m.Alike L w' m' := ⟨h.1.mono hw, h.2⟩

namespace Shape.Alike

variable {s s' : Shape}

/-- Shapes that belong together are of one kind. -/
theorem kinds {motive : (s s' : Shape) → s.Alike L w s' → Prop} (void : motive .void .void rfl)
    (scalar : ∀ scalar, motive (.scalar scalar) (.scalar scalar) rfl)
    (vector : ∀ size scalar, motive (.vector size scalar) (.vector size scalar) rfl)
    (matrix : ∀ columns rows scalar, motive (.matrix columns rows scalar) (.matrix columns rows scalar) rfl)
    (array : ∀ base base' length h, motive (.array base length) (.array base' length) ⟨base', h, rfl⟩)
    (struct : ∀ members members' h, motive (.struct members) (.struct members') ⟨members', h, rfl⟩)
    (function : ∀ result result' params params' h h',
      motive (.function result params) (.function result' params') ⟨result', params', h, h', rfl⟩)
    (sampler : ∀ dim shadow arrayed result, motive (.sampler dim shadow arrayed result) _ rfl)
    (h : s.Alike L w s') : motive s s' h := by
  cases s with
  | array base length =>
    obtain ⟨base', hbase, rfl⟩ := h
    exact array base base' length hbase
  | struct members =>
    obtain ⟨members', hmembers, rfl⟩ := h
    exact struct members members' hmembers
  | function result params =>
    obtain ⟨result', params', hresult, hparams, rfl⟩ := h
    exact function result result' params params' hresult hparams
  | void => cases h; exact void
  | scalar => cases h; exact scalar _
  | vector => cases h; exact vector _ _
  | matrix => cases h; exact matrix _ _ _
  | sampler => cases h; exact sampler _ _ _ _

variable (h : s.Alike L w s')
include h

theorem void_iff : s' = .void ↔ s = .void := by
  cases h using kinds <;> simp

theorem mono (hw : w <+: w') : s.Alike L w' s' := by
  cases h using kinds with
  | array _ base' _ hbase => exact ⟨base', hbase.mono hw, rfl⟩
  | struct _ members' hmembers => exact ⟨members', hmembers.imp fun _ _ hm => hm.mono hw, rfl⟩
  | function _ result' _ params' hresult hparams =>
    exact ⟨result', params', hresult.mono hw, hparams.imp fun _ _ hp => hp.mono hw, rfl⟩
  | _ => rfl

theorem heads_eq :
    s'.lanes? = s.lanes? ∧ s'.scalar? = s.scalar? ∧ ∀ (p : Place) (i : Word), p.child s' i = p.child s i := by
  cases h using kinds <;> exact ⟨rfl, rfl, fun _ _ => rfl⟩

theorem lanes?_eq : s'.lanes? = s.lanes? := h.heads_eq.1

theorem isRegister_eq : s'.isRegister = s.isRegister := by
  rw [Shape.isRegister, Shape.isRegister, h.lanes?_eq]

theorem scalar?_eq : s'.scalar? = s.scalar? := h.heads_eq.2.1

theorem child_eq (p : Place) (i : Word) : p.child s' i = p.child s i := h.heads_eq.2.2 p i

theorem childCount?_eq : s'.childCount? = s.childCount? := by
  cases h using kinds with
  | struct _ _ hmembers => simp [Shape.childCount?, hmembers.length_eq]
  | _ => rfl

theorem exists_of_mem_mentions {k : TypeId} (hk : k ∈ s'.mentions) : ∃ i, w.Maps i k := by
  cases h using kinds with
  | array base _ _ hbase =>
    obtain rfl := mem_singleton.mp hk
    exact ⟨base, hbase⟩
  | struct _ _ hmembers =>
    obtain ⟨m', hm', rfl⟩ := mem_map.mp hk
    obtain ⟨m, hm⟩ := exists_alike_of_mem hmembers hm'
    exact ⟨m.ty, hm.1⟩
  | function result _ _ _ hresult hparams =>
    rcases mem_cons.mp hk with rfl | hk
    · exact ⟨result, hresult⟩
    · exact exists_alike_of_mem hparams hk
  | _ => cases hk

theorem unique {s'' : Shape} (h' : s.Alike L w s'') : s'' = s' := by
  have hmaps {i j j' : TypeId} (hj : w.Maps i j) (hj' : w.Maps i j') : j' = j :=
    Option.some.inj (hj'.symm.trans hj)
  cases s with
  | array base length =>
    obtain ⟨b, hb, rfl⟩ := h
    obtain ⟨b', hb', rfl⟩ := h'
    rw [hmaps hb hb']
  | struct members =>
    obtain ⟨ms, hms, rfl⟩ := h
    obtain ⟨ms', hms', rfl⟩ := h'
    have hmember : Relator.RightUnique (Member.Alike L w) := fun m a b ha hb => by
      rw [ha.2, hb.2, hmaps hb.1 ha.1]
    rw [hmember.forall₂ hms' hms]
  | function result params =>
    obtain ⟨r, ps, hr, hps, rfl⟩ := h
    obtain ⟨r', ps', hr', hps', rfl⟩ := h'
    have hparam : Relator.RightUnique w.Maps := fun i a b ha hb => hmaps hb ha
    rw [hmaps hr hr', hparam.forall₂ hps' hps]
  | _ => exact h'.trans h.symm

theorem eq_of_exact (hL : ∀ name, L.rename name = name)
    (hw : ∀ i j, w.Maps i j → j = i) : s' = s := by
  cases h using kinds with
  | array _ _ _ hbase => rw [hw _ _ hbase]
  | struct _ _ hmembers =>
    congr
    induction hmembers with
    | nil => rfl
    | cons hm _ ih => rw [ih, hm.2, hL, hw _ _ hm.1]
  | function _ _ _ _ hresult hparams =>
    rw [hw _ _ hresult]
    congr
    induction hparams with
    | nil => rfl
    | cons hp _ ih => rw [ih, hw _ _ hp]
  | _ => rfl

end Shape.Alike

theorem Ty.Alike.unique {t t' t'' : Ty} (h : t.Alike L w t') (h' : t.Alike L w t'') : t'' = t' := by
  obtain ⟨name', shape'⟩ := t'
  obtain ⟨name'', shape''⟩ := t''
  obtain ⟨rfl, hshape⟩ : name' = L.rename t.name ∧ t.shape.Alike L w shape' := h
  obtain ⟨rfl, hshape'⟩ : name'' = L.rename t.name ∧ t.shape.Alike L w shape'' := h'
  rw [hshape.unique hshape']

theorem Ty.Alike.mono {t t' : Ty} (h : t.Alike L w t') (hw : w <+: w') : t.Alike L w' t' := ⟨h.1, h.2.mono hw⟩

theorem Ty.Alike.eq_of_exact {t t' : Ty} (h : t.Alike L w t') (hL : ∀ name, L.rename name = name)
    (hw : ∀ i j, w.Maps i j → j = i) : t' = t := by
  obtain ⟨name, shape⟩ := t
  obtain ⟨name', shape'⟩ := t'
  obtain ⟨hname, hshape⟩ : name' = L.rename name ∧ shape.Alike L w shape' := h
  rw [hname, hL, hshape.eq_of_exact hL hw]

theorem Ty.Alike.anonymous {s s' : Shape} (h : s.Alike L w s') :
    ({ shape := s } : Ty).Alike L w { shape := s' } := ⟨L.rename_none.symm, h⟩

/-- Tables of types that belong together. -/
structure Types.Alike (L : Latitude) (w : TypeMap) (types types' : Types) : Prop where
  length : w.length = types.size
  get : ∀ i t, types.get? i = some t → ∃ j t', w.Maps i j ∧ types'.get? j = some t' ∧ t.Alike L w t'
  nodup : types'.items.toList.Nodup
  /-- In the second table, types mention earlier types only. -/
  earlier : ∀ j t', types'.get? j = some t' → ∀ k ∈ t'.shape.mentions, k < j
  /-- Where names stay, nothing changes. -/
  exact : (∀ name, L.rename name = name) → types' = types ∧ ∀ i j, w.Maps i j → j = i

namespace Types.Alike

variable {types types' : Types}

protected theorem empty : Types.Alike L [] {} {} where
  length := rfl
  get := fun i t h => by simp [Interner.get?] at h
  nodup := nodup_nil
  earlier := fun j t' h => by simp [Interner.get?] at h
  exact := fun _ => ⟨rfl, fun i j h => by simp [TypeMap.Maps] at h⟩

section

variable (h : types.Alike L w types')
include h

theorem lt_of_maps {i j : TypeId} (hj : w.Maps i j) :
    i < types.size ∧ j < types'.size := by
  obtain ⟨hi, -⟩ := List.getElem?_eq_some_iff.mp hj
  rw [h.length] at hi
  obtain ⟨j', t', hj', ht', -⟩ := h.get i _ (Array.getElem?_eq_getElem hi)
  obtain rfl : j' = j := Option.some.inj (hj'.symm.trans hj)
  exact ⟨hi, (Array.getElem?_eq_some_iff.mp ht').1⟩

theorem shape? {i j : TypeId} (hj : w.Maps i j) :
    ∃ s s', types.shape? i = some s ∧ types'.shape? j = some s' ∧ s.Alike L w s' := by
  obtain ⟨hi, -⟩ := h.lt_of_maps hj
  obtain ⟨j', t', hj', ht', hshape⟩ := h.get i _ (Array.getElem?_eq_getElem hi)
  obtain rfl : j' = j := Option.some.inj (hj'.symm.trans hj)
  refine ⟨_, t'.shape, ?_, ?_, hshape.2⟩
  · exact Option.map_eq_some_iff.mpr ⟨_, Array.getElem?_eq_getElem hi, rfl⟩
  · exact Option.map_eq_some_iff.mpr ⟨t', ht', rfl⟩

theorem earlier_insert {t t' : Ty} (ht : t.Alike L w t') :
    ∀ j u, (types'.insert t').2.get? j = some u → ∀ k ∈ u.shape.mentions, k < j := by
  intro j u hu k hk
  unfold Interner.insert at hu
  cases hfind : types'.find? t' with
  | some i =>
    rw [hfind] at hu
    exact h.earlier j u hu k hk
  | none =>
    rw [hfind] at hu
    change (types'.items.push t')[j]? = some u at hu
    rw [Array.getElem?_push] at hu
    split at hu
    · next hj =>
      cases hu
      obtain ⟨i, hi⟩ := ht.2.exists_of_mem_mentions hk
      rw [hj]
      exact (h.lt_of_maps hi).2
    · exact h.earlier j u hu k hk

theorem insert {t t' : Ty} (ht : t.Alike L w t') :
    ∃ w' : TypeMap, w <+: w' ∧ Types.Alike L w' (types.insert t).2 (types'.insert t').2 ∧
      w'.Maps (types.insert t).1 (types'.insert t').1 := by
  cases hfind : types.find? t with
  | some i =>
    -- the first table has the type, so the second has the type that belongs to it
    obtain ⟨hlt, heq, -⟩ := idxOf?_eq_some_iff.mp hfind
    have hget : types.get? i = some t := by
      rw [Interner.get?, ← Array.getElem?_toList, getElem?_eq_getElem hlt, heq]
    obtain ⟨j, u, hj, hu, htu⟩ := h.get i t hget
    obtain rfl := htu.unique ht
    have hfind' : types'.find? t' = some j := (Interner.find?_eq_some_iff h.nodup).mpr hu
    refine ⟨w, prefix_rfl, ?_, ?_⟩
    · simpa only [Interner.insert, hfind, hfind'] using h
    · simpa only [Interner.insert, hfind, hfind'] using hj
  | none =>
    have hnew : types.insert t = (types.size, ⟨types.items.push t⟩) := by
      simp only [Interner.insert, hfind]
      rfl
    have hlast : (w ++ [(types'.insert t').1])[types.size]? = some (types'.insert t').1 := by
      rw [← h.length, getElem?_concat_length]
    rw [hnew]
    refine ⟨w ++ [(types'.insert t').1], prefix_append _ _, ⟨?_, ?_, ?_, ?_, ?_⟩, hlast⟩
    · simp [Interner.size, h.length]
    · intro i u hu
      change (types.items.push t)[i]? = some u at hu
      rw [Array.getElem?_push] at hu
      split at hu
      · next hi =>
        cases hu
        subst hi
        exact ⟨_, t', hlast, Interner.get?_insert types' t', ht.mono (prefix_append _ _)⟩
      · obtain ⟨j, u', hj, hu', hshape⟩ := h.get i u hu
        exact ⟨j, u', hj.mono (prefix_append _ _), extends_insert types' t' j u' hu',
          hshape.mono (prefix_append _ _)⟩
    · exact Interner.nodup_insert h.nodup t'
    · exact h.earlier_insert ht
    · intro hL
      obtain ⟨rfl, hid⟩ := h.exact hL
      obtain rfl : t' = t := ht.eq_of_exact hL hid
      rw [hnew]
      refine ⟨rfl, fun i j hj => ?_⟩
      rw [TypeMap.Maps, getElem?_append] at hj
      split at hj
      · exact hid i j hj
      · next hi =>
        rw [getElem?_singleton] at hj
        split at hj
        · next hzero =>
          cases hj
          have hlen := h.length
          change types'.size = i
          omega
        · cases hj

end

/-- Types that were found belong together, with the tables they were found in. -/
def Found (L : Latitude) (w : TypeMap) (p p' : TypeId × Types) : Prop :=
  ∃ w' : TypeMap, w <+: w' ∧ p.2.Alike L w' p'.2 ∧ w'.Maps p.1 p'.1

variable (h : types.Alike L w types')
include h

theorem vector? (scalar : Scalar) (lanes : Nat) :
    Option.Rel (Found L w) (types.vector? scalar lanes) (types'.vector? scalar lanes) := by
  unfold Types.vector?
  split
  · exact .some (h.insert (.anonymous rfl))
  · cases VectorSize.ofLanes? lanes with
    | none => exact .none
    | some size => exact .some (h.insert (.anonymous rfl))

theorem matrix? (scalar : Scalar) (columns rows : Nat) :
    Option.Rel (Found L w) (types.matrix? scalar columns rows) (types'.matrix? scalar columns rows) := by
  unfold Types.matrix?
  split
  · exact h.vector? scalar rows
  · cases VectorSize.ofLanes? columns with
    | none => exact .none
    | some c =>
      cases VectorSize.ofLanes? rows with
      | none => exact .none
      | some r => exact .some (h.insert (.anonymous rfl))

theorem earlier_of_child? {ty ty' : TypeId} {index : Nat}
    {found : Types} (hchild : types'.child? ty index = some (ty', found)) :
    ty' < ty ∨ ∃ s, found.shape? ty' = some s ∧ s.isRegister = true := by
  have hregister {s : Shape} (hs : s.isRegister = true) (hfound : types'.insertShape s = (ty', found)) :
      ∃ s, found.shape? ty' = some s ∧ s.isRegister = true := by
    have hget := Interner.get?_insert types' { shape := s }
    rw [show types'.insert { shape := s } = (ty', found) from hfound] at hget
    exact ⟨s, Option.map_eq_some_iff.mpr ⟨_, hget, rfl⟩, hs⟩
  have hvector {scalar : Scalar} {lanes : Nat} (hfound : types'.vector? scalar lanes = some (ty', found)) :
      ∃ s, found.shape? ty' = some s ∧ s.isRegister = true := by
    unfold Types.vector? at hfound
    split at hfound
    · exact hregister rfl (Option.some.inj hfound)
    · obtain ⟨size, -, hsize⟩ := Option.map_eq_some_iff.mp hfound
      exact hregister rfl hsize
  unfold Types.child? at hchild
  split at hchild
  · next base length hs =>
    cases hchild
    obtain ⟨t, ht, hshape⟩ := Option.map_eq_some_iff.mp hs
    exact .inl (h.earlier ty t ht _ (by rw [hshape]; exact mem_singleton.mpr rfl))
  · next members hs =>
    obtain ⟨m, hm, hfound⟩ := Option.map_eq_some_iff.mp hchild
    cases hfound
    obtain ⟨t, ht, hshape⟩ := Option.map_eq_some_iff.mp hs
    refine .inl (h.earlier ty t ht _ ?_)
    rw [hshape]
    exact mem_map.mpr ⟨m, mem_of_getElem? hm, rfl⟩
  · exact .inr (hvector hchild)
  · exact .inr (hvector hchild)
  · cases hchild

theorem child? {ty ty' : TypeId} (hty : w.Maps ty ty') (index : Nat) :
    Option.Rel (Found L w) (types.child? ty index) (types'.child? ty' index) := by
  obtain ⟨s, s', hs, hs', hss⟩ := h.shape? hty
  unfold Types.child?
  rw [hs, hs']
  cases hss using Shape.Alike.kinds with
  | array _ _ _ hbase => exact .some ⟨w, prefix_rfl, h, hbase⟩
  | struct members members' hmembers =>
    have hmember := getElem?_alike hmembers index
    simp only
    generalize members[index]? = x, members'[index]? = x' at hmember ⊢
    cases hmember with
    | none => exact .none
    | some hmm => exact .some ⟨w, prefix_rfl, h, hmm.1⟩
  | matrix columns rows scalar => exact h.vector? scalar rows.lanes
  | vector size scalar => exact h.vector? scalar 1
  | _ => exact .none

end Types.Alike

namespace Spirv

/-! ### Values -/

/-- Trees over the same registers, of types that belong together. -/
inductive Tree.Alike (w : TypeMap) : Tree → Tree → Prop
  | leaf {key ty ty' r} : w.Maps ty ty' → Tree.Alike w (.leaf key ty r) (.leaf key ty' r)
  | node {key ty ty' children children'} : w.Maps ty ty' →
      List.Forall₂ (Tree.Alike w) children children' →
      Tree.Alike w (.node key ty children) (.node key ty' children')

namespace Tree.Alike

variable {t t' : Tree}

theorem key_eq (h : t.Alike w t') : t'.key = t.key := by
  cases h <;> rfl

theorem maps_ty (h : t.Alike w t') : w.Maps t.ty t'.ty := by
  cases h <;> assumption

theorem register?_eq (h : t.Alike w t') : t'.register? = t.register? := by
  cases h <;> rfl

mutual

protected theorem mono (hw : w <+: w') : {t t' : Tree} → t.Alike w t' → t.Alike w' t'
  | .leaf .., _, .leaf hty => .leaf (hty.mono hw)
  | .node .., _, .node hty h => .node (hty.mono hw) (monoList hw h)

theorem monoList (hw : w <+: w') : {ts ts' : List Tree} → List.Forall₂ (Tree.Alike w) ts ts' →
    List.Forall₂ (Tree.Alike w') ts ts'
  | [], _, .nil => .nil
  | _ :: _, _, .cons h hs => .cons (h.mono hw) (monoList hw hs)

end

mutual

theorem leaves_eq : {t t' : Tree} → t.Alike w t' → t'.leaves = t.leaves
  | .leaf .., _, .leaf _ => rfl
  | .node .., _, .node _ h => by
    rw [Tree.leaves, Tree.leaves]
    exact leavesOfList_eq h

theorem leavesOfList_eq : {ts ts' : List Tree} → List.Forall₂ (Tree.Alike w) ts ts' →
    Tree.leavesOfList ts' = Tree.leavesOfList ts
  | [], _, .nil => rfl
  | _ :: _, _, .cons h hs => by
    rw [Tree.leavesOfList, Tree.leavesOfList, h.leaves_eq, leavesOfList_eq hs]

end

end Tree.Alike

/-- Pointers to the same place, of types that belong together. -/
structure Pointer.Alike (w : TypeMap) (p p' : Pointer) : Prop where
  place : p'.place = p.place
  ty : w.Maps p.ty p'.ty
  lane : Option.Rel (fun l l' => l'.index = l.index ∧ w.Maps l.vector l'.vector) p.lane p'.lane

theorem Pointer.Alike.mono {p p' : Pointer} (h : p.Alike w p') (hw : w <+: w') : p.Alike w' p' where
  place := h.place
  ty := h.ty.mono hw
  lane := h.lane.mono fun _ _ hl => ⟨hl.1, hl.2.mono hw⟩

/-- Meanings that belong together, where there are `n` constants. -/
inductive Value.Alike (w : TypeMap) (n : Nat) : Value → Value → Prop
  | type {ty ty' isPointer} : w.Maps ty ty' →
      Value.Alike w n (.type ⟨ty, isPointer⟩) (.type ⟨ty', isPointer⟩)
  | constant {c} : c < n → Value.Alike w n (.constant c) (.constant c)
  | tree {t t'} : t.Alike w t' → Value.Alike w n (.tree t) (.tree t')
  | pointer {p p'} : p.Alike w p' → Value.Alike w n (.pointer p) (.pointer p')
  | function (k) : Value.Alike w n (.function k) (.function k)
  | block (k) : Value.Alike w n (.block k) (.block k)
  | extensionImport (set) : Value.Alike w n (.extensionImport set) (.extensionImport set)
  | decorationGroup : Value.Alike w n .decorationGroup .decorationGroup
  | string (text) : Value.Alike w n (.string text) (.string text)

theorem Value.Alike.mono {v v' : Value} (h : v.Alike w n v') (hw : w <+: w') (hn : n ≤ n') :
    v.Alike w' n' v' := by
  cases h with
  | type h => exact .type (h.mono hw)
  | constant hc => exact .constant (Nat.lt_of_lt_of_le hc hn)
  | tree h => exact .tree (h.mono hw)
  | pointer h => exact .pointer (h.mono hw)
  | function k => exact .function k
  | block k => exact .block k
  | extensionImport set => exact .extensionImport set
  | decorationGroup => exact .decorationGroup
  | string text => exact .string text

/-! ### Ids -/

/-- Records of an id that belong together. -/
structure IdSlot.Alike (L : Latitude) (w : TypeMap) (n : Nat) (s s' : IdSlot) : Prop where
  value : Option.Rel (Value.Alike w n) s.value s'.value
  name : s'.name = L.rename s.name
  memberNames : ∀ m, s'.memberNames.lookup m = L.rename (s.memberNames.lookup m)
  decorations : s'.decorations = s.decorations

theorem IdSlot.Alike.mono {s s' : IdSlot} (h : s.Alike L w n s') (hw : w <+: w') (hn : n ≤ n') :
    s.Alike L w' n' s' where
  value := h.value.mono fun _ _ hv => hv.mono hw hn
  name := h.name
  memberNames := h.memberNames
  decorations := h.decorations

/-- Tables of ids that belong together. -/
def IdTable.Alike (L : Latitude) (w : TypeMap) (n : Nat) (t t' : IdTable) : Prop :=
  t.slots.Pointwise (IdSlot.Alike L w n) t'.slots

namespace IdTable.Alike

variable {t t' : IdTable} {S : Prop} (h : t.Alike L w n t')
include h

protected theorem mono (hw : w <+: w') (hn : n ≤ n') : t.Alike L w' n' t' :=
  Array.Pointwise.mono h fun _ _ hs => hs.mono hw hn

section

variable (id : Id)

theorem slot : Except.Follows S (IdSlot.Alike L w n) (t.slot id) (t'.slot id) := by
  unfold IdTable.slot
  have hrel := h id.toNat
  generalize t.slots[id.toNat]? = x, t'.slots[id.toNat]? = x' at hrel ⊢
  cases hrel with
  | none => exact .error fun _ => by rw [IdTable.bound, IdTable.bound, Array.Pointwise.size_eq h]
  | some hs => exact .ok hs

theorem update {f f' : IdSlot → IdSlot}
    (hf : ∀ s s', s.Alike L w n s' → (f s).Alike L w n (f' s')) :
    Except.Follows S (IdTable.Alike L w n) (t.update id f) (t'.update id f') := by
  unfold IdTable.update
  have hrel := h id.toNat
  generalize t.slots[id.toNat]? = x, t'.slots[id.toNat]? = x' at hrel ⊢
  cases hrel with
  | none => exact .error fun _ => by rw [IdTable.bound, IdTable.bound, Array.Pointwise.size_eq h]
  | some hs => exact .ok (Array.Pointwise.setIfInBounds h (hf _ _ hs) _)

theorem define {v v' : Value} (hv : v.Alike w n v') :
    Except.Follows S (IdTable.Alike L w n) (t.define id v) (t'.define id v') := by
  unfold IdTable.define
  refine (h.slot id).bind fun s s' hs => ?_
  obtain ⟨value, _, _, _⟩ := s
  obtain ⟨value', _, _, _⟩ := s'
  cases hs.value with
  | some _ => exact .error fun _ => rfl
  | none =>
    exact h.update id fun s s' hs => ⟨.some hv, hs.name, hs.memberNames, hs.decorations⟩

theorem get : Except.Follows S (Value.Alike w n) (t.get id) (t'.get id) := by
  unfold IdTable.get
  refine (h.slot id).bind fun s s' hs => ?_
  obtain ⟨value, _, _, _⟩ := s
  obtain ⟨value', _, _, _⟩ := s'
  cases hs.value with
  | some hv => exact .ok hv
  | none => exact .error fun _ => rfl

theorem typeValue : Except.Follows S (fun v v' => w.Maps v.ty v'.ty ∧ v'.isPointer = v.isPointer)
      (t.typeValue id) (t'.typeValue id) := by
  refine (h.get id).bind fun v v' hv => ?_
  cases hv with
  | type h => exact .ok ⟨h, rfl⟩
  | _ => exact .error fun _ => rfl

theorem pointer : Except.Follows S (Pointer.Alike w) (t.pointer id) (t'.pointer id) := by
  refine (h.get id).bind fun v v' hv => ?_
  cases hv with
  | pointer h => exact .ok h
  | _ => exact .error fun _ => rfl

theorem constant : Except.Follows S (fun c c' => c' = c ∧ c < n) (t.constant id) (t'.constant id) := by
  refine (h.get id).bind fun v v' hv => ?_
  cases hv with
  | constant hc => exact .ok ⟨rfl, hc⟩
  | _ => exact .error fun _ => rfl

theorem constant? : Except.Follows S (fun c c' => c' = c ∧ ∀ k ∈ c, k < n) (t.constant? id) (t'.constant? id) := by
  refine (h.get id).bind fun v v' hv => ?_
  cases hv with
  | constant hc =>
    refine .ok ⟨rfl, fun k hk => ?_⟩
    obtain rfl := Option.mem_some_iff.mp hk
    exact hc
  | _ => exact .ok ⟨rfl, fun k hk => nomatch hk⟩

theorem block : Except.Follows S (fun b b' => b' = b) (t.block id) (t'.block id) := by
  refine (h.get id).bind fun v v' hv => ?_
  cases hv with
  | block => exact .ok rfl
  | _ => exact .error fun _ => rfl

theorem function : Except.Follows S (fun f f' => f' = f) (t.function id) (t'.function id) := by
  refine (h.get id).bind fun v v' hv => ?_
  cases hv with
  | function => exact .ok rfl
  | _ => exact .error fun _ => rfl

theorem extendedSet : Except.Follows S (fun s s' => s' = s) (t.extendedSet id) (t'.extendedSet id) := by
  refine (h.get id).bind fun v v' hv => ?_
  cases hv with
  | extensionImport => exact .ok rfl
  | _ => exact .error fun _ => rfl

theorem checkGroup : Except.Follows S (fun _ _ => True) (t.checkGroup id) (t'.checkGroup id) := by
  refine (h.get id).bind fun v v' hv => ?_
  cases hv with
  | decorationGroup => exact .ok trivial
  | _ => exact .error fun _ => rfl

theorem name?_eq : t'.name? id = L.rename (t.name? id) := by
  unfold IdTable.name?
  have hrel := h id.toNat
  generalize t.slots[id.toNat]? = x, t'.slots[id.toNat]? = x' at hrel ⊢
  cases hrel with
  | none => exact L.rename_none.symm
  | some hs => exact hs.name

theorem memberName?_eq (m : Word) :
    t'.memberName? id m = L.rename (t.memberName? id m) := by
  unfold IdTable.memberName?
  have hrel := h id.toNat
  generalize t.slots[id.toNat]? = x, t'.slots[id.toNat]? = x' at hrel ⊢
  cases hrel with
  | none => exact L.rename_none.symm
  | some hs => exact hs.memberNames m

end

theorem expand_eq (levels : Nat) (id : Id) (member : Option Word) :
    t'.expand levels id member = t.expand levels id member := by
  induction levels generalizing id member with
  | zero => rfl
  | succ levels ih =>
    have hrel := h.slot (S := True) id
    simp only [IdTable.expand, ih]
    cases hs : t.slot id with
    | error e =>
      rw [hs] at hrel
      rw [hrel trivial]
    | ok s =>
      rw [hs] at hrel
      obtain ⟨s', hs', hss⟩ := hrel
      rw [hs']
      simp only [bind, Except.bind, hss.decorations]

theorem decorations_eq (id : Id) : t'.decorations id = t.decorations id :=
  h.expand_eq _ id none

end IdTable.Alike

end Spirv

end ShaderIR
