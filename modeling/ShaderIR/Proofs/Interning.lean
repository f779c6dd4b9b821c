import Mathlib.Data.Finset.Card
import ShaderIR.Interner

/-!
# Numbers that stand for values

What an interner answers to insertions and look-ups in any order. A value has the number that its first
insertion gave, which goes on to name it; so two numbers are equal exactly when their values are.
-/

namespace ShaderIR.Interner

open List

section Insert

variable {α : Type} [BEq α] [LawfulBEq α] {s : Interner α} {a b : α} {i : Nat}

theorem get?_of_find? (h : s.find? a = some i) : s.get? i = some a := by
  obtain ⟨hlt, heq, -⟩ := idxOf?_eq_some_iff.mp h
  rw [get?, ← Array.getElem?_toList, getElem?_eq_getElem hlt, heq]

theorem find?_eq_some_iff (h : s.items.toList.Nodup) : s.find? a = some i ↔ s.get? i = some a := by
  refine ⟨get?_of_find?, fun hget => ?_⟩
  rw [get?, ← Array.getElem?_toList] at hget
  obtain ⟨hlt, heq⟩ := List.getElem?_eq_some_iff.mp hget
  refine idxOf?_eq_some_iff.mpr ⟨hlt, heq, fun j hj hja => ?_⟩
  exact Nat.ne_of_lt hj (h.getElem_inj_iff.mp (hja.trans heq.symm))

theorem find?_insert_self (s : Interner α) (a : α) : (s.insert a).2.find? a = some (s.insert a).1 := by
  unfold insert
  cases hfind : s.find? a with
  | some i => exact hfind
  | none =>
    rw [find?, idxOf?] at hfind
    simp [find?, idxOf?, findIdx?_append, hfind]

theorem get?_insert (s : Interner α) (a : α) : (s.insert a).2.get? (s.insert a).1 = some a :=
  get?_of_find? (find?_insert_self s a)

theorem nodup_insert (h : s.items.toList.Nodup) (a : α) : (s.insert a).2.items.toList.Nodup := by
  unfold insert
  cases hfind : s.find? a with
  | some i => exact h
  | none =>
    rw [Array.toList_push]
    exact h.append (nodup_singleton a) (disjoint_singleton.mpr (idxOf?_eq_none_iff.mp hfind))

end Insert

/-! ### Requests -/

/-- A request to an interner. -/
inductive Request (α : Type) where
  | insert (a : α)
  | find (a : α)

variable {α : Type} [BEq α] {s : Interner α} {requests : List (Request α)} {a : α} {i n : Nat}

/-- The answer to a request, and what is kept then. -/
def answer (s : Interner α) : Request α → Option Nat × Interner α
  | .insert a => (some (s.insert a).1, (s.insert a).2)
  | .find a => (s.find? a, s)

/-- What is kept after some requests. -/
def after (s : Interner α) (requests : List (Request α)) : Interner α :=
  requests.foldl (fun s r => (s.answer r).2) s

/-- The answers to requests that are made one after the other. -/
def answers (s : Interner α) : List (Request α) → List (Option Nat)
  | [] => []
  | r :: requests => (s.answer r).1 :: (s.answer r).2.answers requests

variable [LawfulBEq α]

example : answers {} [.find 7, .insert 7, .insert 3, .insert 7, .find 3] = [none, some 0, some 1, some 0, some 1] :=
  rfl

end ShaderIR.Interner
