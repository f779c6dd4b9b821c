import Mathlib.Tactic.Common
import ShaderIR.Function.Basic

/-!
# How a function grows

An instruction that is put in gets a number of its own and a place in one block. Everything that was
there keeps its number and its order, and what stands in other blocks is not touched.

Control leaves a block at its first instruction that leaves it, if there is one.
-/

namespace ShaderIR

open List

/-- The jump by which control leaves a block at an instruction: a dropped fragment returns. -/
def Instruction.exit? : Instruction → Option Jump
  | jump j => some j
  | discard => some .return
  | _ => none

namespace Function

variable {f : Function} {spot : Spot} {i : Instruction} {b : BlockId} {r : Register}

/-- The instructions of a block by number; a block that is not there has none. -/
def code (f : Function) (b : BlockId) : List Register := ((f.blocks[b]?).map (·.instructions)).getD []

/-- The jump by which control leaves a block at the instruction with a number. -/
def exitAt (f : Function) (r : Register) : Option Jump := (f.instructions[r]?).bind (·.exit?)

/-- The jump by which control leaves a block before it runs off the end. -/
def exit? (f : Function) (b : BlockId) : Option Jump := (f.code b).findSome? f.exitAt

/-- Blocks hold numbers of instructions only. -/
def InRange (f : Function) : Prop := ∀ b, ∀ r ∈ f.code b, r < f.instructions.size

theorem jump?_eq : f.jump? b = (f.code b).getLast?.bind fun r => (f.instructions[r]?).bind (·.jump?) := by
  simp only [jump?, code]
  cases f.blocks[b]? <;> rfl

theorem jump?_congr {g : Function} (hcode : g.code b = f.code b)
    (h : ∀ r ∈ f.code b, g.instructions[r]? = f.instructions[r]?) : g.jump? b = f.jump? b := by
  rw [jump?_eq, jump?_eq, hcode]
  grind

/-! ### Putting an instruction in -/

@[simp] theorem insert_instructions :
    (f.insert spot i).2.instructions = f.instructions.push i := rfl

@[simp] theorem insert_size : (f.insert spot i).2.blocks.size = f.blocks.size := by
  simp [insert]

theorem code_insert_of_ne (h : b ≠ spot.block) : (f.insert spot i).2.code b = f.code b := by
  simp [code, insert, Array.getElem?_modify, h.symm]

section

variable (h : b < f.blocks.size)
include h

theorem code_insert_append : (f.insert (.append b) i).2.code b = f.code b ++ [f.instructions.size] := by
  simp [code, insert, Array.getElem_modify, Spot.block, h]

theorem code_insert_front : (f.insert (.front b) i).2.code b = f.instructions.size :: f.code b := by
  simp [code, insert, Array.getElem_modify, Spot.block, h]

theorem code_insert_beforeJump : (∃ init last, f.jump? b ≠ none ∧ f.code b = init ++ [last] ∧
        (f.insert (.beforeJump b) i).2.code b = init ++ [f.instructions.size, last]) ∨
      f.jump? b = none ∧ (f.insert (.beforeJump b) i).2.code b = f.code b ++ [f.instructions.size] := by
  have hcode : f.code b = f.blocks[b].instructions := by simp [code, h]
  rw [hcode]
  by_cases hj : f.jump? b = none
  · right
    simp [code, insert, Array.getElem_modify, Spot.block, h, hj]
  · -- the block ends in a jump, so it has a last instruction
    have hne : f.blocks[b].instructions ≠ [] := by
      intro hnil
      simp [jump?, h, hnil] at hj
    left
    refine ⟨_, f.blocks[b].instructions.getLast hne, hj, (dropLast_concat_getLast hne).symm, ?_⟩
    simp [code, insert, Array.getElem_modify, Spot.block, h, Option.isSome_iff_ne_none, hj,
      getLast?_eq_some_getLast hne]

end

theorem code_insert (h : spot.block < f.blocks.size) : ∃ before after, f.code spot.block = before ++ after ∧
      (f.insert spot i).2.code spot.block = before ++ f.instructions.size :: after := by
  cases spot with
  | append b => exact ⟨_, [], (append_nil _).symm, code_insert_append h⟩
  | front b => exact ⟨[], _, rfl, code_insert_front h⟩
  | beforeJump b =>
    rcases code_insert_beforeJump (i := i) h with ⟨init, last, -, hold, hnew⟩ | ⟨-, hnew⟩
    · exact ⟨init, [last], hold, hnew⟩
    · exact ⟨_, [], (append_nil _).symm, hnew⟩

theorem code_insert_of_size_le (h : f.blocks.size ≤ spot.block) : (f.insert spot i).2.code b = f.code b := by
  by_cases hb : b = spot.block
  · subst hb
    simp [code, insert, h]
  · exact code_insert_of_ne hb

theorem code_insert_of_not (h : ¬(b = spot.block ∧ spot.block < f.blocks.size)) :
    (f.insert spot i).2.code b = f.code b := by
  by_cases hb : b = spot.block
  · exact code_insert_of_size_le (Nat.not_lt.mp fun hlt => h ⟨hb, hlt⟩)
  · exact code_insert_of_ne hb

theorem mem_code_insert : r ∈ (f.insert spot i).2.code b ↔
      r ∈ f.code b ∨ (r = f.instructions.size ∧ b = spot.block ∧ b < f.blocks.size) := by
  by_cases hb : b = spot.block
  · by_cases hsize : spot.block < f.blocks.size
    · obtain ⟨before, after, h, h'⟩ := code_insert (i := i) hsize
      grind
    · rw [code_insert_of_size_le (Nat.not_lt.mp hsize)]
      simp only [hb, hsize, and_false, or_false]
  · rw [code_insert_of_ne hb]
    simp [hb]

theorem InRange.insert (h : f.InRange) : (f.insert spot i).2.InRange := by
  intro b r hr
  rw [insert_instructions, Array.size_push]
  rcases mem_code_insert.mp hr with hr | ⟨rfl, -, -⟩
  · exact Nat.lt_succ_of_lt (h b r hr)
  · exact Nat.lt_succ_self _

theorem exitAt_insert_of_lt (h : r < f.instructions.size) : (f.insert spot i).2.exitAt r = f.exitAt r := by
  simp [exitAt, Array.getElem?_push, Nat.ne_of_lt h]

theorem exitAt_insert_size : (f.insert spot i).2.exitAt f.instructions.size = i.exit? := by
  simp [exitAt]

theorem findSome?_congr {e e' : Register → Option Jump} {l : List Register}
    (h : ∀ r ∈ l, e r = e' r) : l.findSome? e = l.findSome? e' := by
  induction l with
  | nil => rfl
  | cons r l ih =>
    grind

theorem findSome?_exitAt_insert {l : List Register} (h : ∀ r ∈ l, r < f.instructions.size) :
    l.findSome? (f.insert spot i).2.exitAt = l.findSome? f.exitAt :=
  findSome?_congr fun r hr => exitAt_insert_of_lt (h r hr)

theorem exit?_insert (h : f.InRange) (hi : i.exit? = none) : (f.insert spot i).2.exit? b = f.exit? b := by
  by_cases hb : b = spot.block ∧ spot.block < f.blocks.size
  · obtain ⟨rfl, hsize⟩ := hb
    obtain ⟨before, after, hold, hnew⟩ := code_insert (i := i) hsize
    have hlt := h spot.block
    rw [hold] at hlt
    rw [exit?, exit?, hnew, hold, findSome?_append, findSome?_append, findSome?_cons, exitAt_insert_size, hi,
      findSome?_exitAt_insert fun r hr => hlt r (mem_append_left _ hr),
      findSome?_exitAt_insert fun r hr => hlt r (mem_append_right _ hr)]
  · rw [exit?, exit?, code_insert_of_not hb, findSome?_exitAt_insert (h b)]

theorem exit?_insert_append (h : f.InRange) (hb : b < f.blocks.size) :
    (f.insert (.append b) i).2.exit? b = (f.exit? b).or i.exit? := by
  rw [exit?, exit?, code_insert_append hb, findSome?_append, findSome?_exitAt_insert (h b)]
  simp [exitAt_insert_size]

/-! ### Adding a block -/

@[simp] theorem addBlock_size : f.addBlock.2.blocks.size = f.blocks.size + 1 := by
  simp [addBlock]

@[simp] theorem code_addBlock : f.addBlock.2.code b = f.code b := by
  simp only [code, addBlock, Array.getElem?_push]
  split
  · rename_i h
    simp [h]
  · rfl

@[simp] theorem exit?_addBlock : f.addBlock.2.exit? b = f.exit? b := by
  simp only [exit?, code_addBlock]
  rfl

theorem InRange.addBlock (h : f.InRange) : f.addBlock.2.InRange := by
  intro b r hr
  rw [code_addBlock] at hr
  exact h b r hr

theorem code_of_size_le (h : f.blocks.size ≤ b) : f.code b = [] := by
  simp [code, h]

theorem exit?_of_size_le (h : f.blocks.size ≤ b) : f.exit? b = none := by
  simp [exit?, code_of_size_le h]

/-! ### Putting several instructions in -/

/-- Puts instructions at one spot, one after another. -/
def insertAll (f : Function) (spot : Spot) (is : List Instruction) : Function :=
  is.foldl (fun f i => (f.insert spot i).2) f

@[simp] theorem insertAll_nil : f.insertAll spot [] = f := rfl

@[simp] theorem insertAll_cons {is : List Instruction} :
    f.insertAll spot (i :: is) = (f.insert spot i).2.insertAll spot is := rfl

theorem insertAll_append {is js : List Instruction} :
    f.insertAll spot (is ++ js) = (f.insertAll spot is).insertAll spot js :=
  foldl_append ..

variable {is : List Instruction}

@[simp] theorem insertAll_instructions :
    (f.insertAll spot is).instructions = f.instructions ++ is.toArray := by
  induction is generalizing f with
  | nil => simp
  | cons i is ih =>
    rw [insertAll_cons, ih, insert_instructions, ← Array.toList_inj]
    simp

@[simp] theorem insertAll_size : (f.insertAll spot is).blocks.size = f.blocks.size := by
  induction is generalizing f with
  | nil => rfl
  | cons i is ih => rw [insertAll_cons, ih, insert_size]

@[simp] theorem insertAll_returnVar : (f.insertAll spot is).returnVar = f.returnVar := by
  induction is generalizing f with
  | nil => rfl
  | cons i is ih => exact ih

theorem code_insertAll_of_ne (h : b ≠ spot.block) : (f.insertAll spot is).code b = f.code b := by
  induction is generalizing f with
  | nil => rfl
  | cons i is ih => rw [insertAll_cons, ih, code_insert_of_ne h]

theorem code_isPrefix_insertAll_append {b' : BlockId} : f.code b <+: (f.insertAll (.append b') is).code b := by
  induction is generalizing f with
  | nil => exact prefix_rfl
  | cons i is ih =>
    refine List.IsPrefix.trans ?_ ih
    by_cases h : b = b' ∧ b' < f.blocks.size
    · obtain ⟨rfl, hlt⟩ := h
      rw [code_insert_append hlt]
      exact prefix_append ..
    · have hcode : (f.insert (.append b') i).2.code b = f.code b := code_insert_of_not h
      simp only [hcode, prefix_rfl]

theorem mem_code_insertAll : r ∈ (f.insertAll spot is).code b ↔
      r ∈ f.code b ∨ ((f.instructions.size ≤ r ∧ r < f.instructions.size + is.length) ∧
        b = spot.block ∧ b < f.blocks.size) := by
  induction is generalizing f with
  | nil =>
    have hnone : ¬(f.instructions.size ≤ r ∧ r < f.instructions.size + 0) := fun h => Nat.not_lt.mpr h.1 h.2
    simp only [insertAll_nil, length_nil, hnone, false_and, or_false]
  | cons i is ih =>
    rw [insertAll_cons, ih, mem_code_insert, insert_instructions, Array.size_push, insert_size, length_cons]
    grind

theorem InRange.insertAll (h : f.InRange) : (f.insertAll spot is).InRange := by
  induction is generalizing f with
  | nil => exact h
  | cons i is ih => exact ih h.insert

theorem exit?_insertAll (h : f.InRange) (his : ∀ i ∈ is, i.exit? = none) :
    (f.insertAll spot is).exit? b = f.exit? b := by
  induction is generalizing f with
  | nil => rfl
  | cons i is ih =>
    rw [insertAll_cons, ih h.insert fun j hj => his j (mem_cons_of_mem _ hj),
      exit?_insert h (his i (mem_cons_self ..))]

/-! ### Jumps at the end -/

/-- The jump that the instruction with a number is. -/
def jumpAt (f : Function) (r : Register) : Option Jump := (f.instructions[r]?).bind (·.jump?)

/-- Jumps are the last instructions of their blocks. -/
def JumpsLast (f : Function) : Prop := ∀ b, ∀ r ∈ (f.code b).dropLast, f.jumpAt r = none

/-- A block that does not return is left by its last instruction if it is left by one at all. -/
def Tidy (f : Function) : Prop := ∀ b, f.exit? b ≠ some .return → ∀ r ∈ (f.code b).dropLast, f.exitAt r = none

/-- Blocks are left by their last instructions if they are left by one at all. -/
def LeavesLast (f : Function) : Prop := ∀ b, ∀ r ∈ (f.code b).dropLast, f.exitAt r = none

theorem LeavesLast.tidy (h : f.LeavesLast) : f.Tidy := fun b _ => h b

theorem exitAt_of_jumpAt {j : Jump} (h : f.jumpAt r = some j) : f.exitAt r = some j := by
  rw [jumpAt] at h
  rw [exitAt]
  cases hi : f.instructions[r]? with
  | none => simp [hi] at h
  | some i =>
    rw [hi, Option.bind_some] at h
    cases i with
    | jump j' => exact h
    | _ => cases h

theorem LeavesLast.jumpsLast (h : f.LeavesLast) : f.JumpsLast := by
  intro b r hr
  cases hj : f.jumpAt r with
  | none => rfl
  | some j => cases (h b r hr).symm.trans (exitAt_of_jumpAt hj)

theorem LeavesLast.exit?_eq (h : f.LeavesLast) {j : Jump} (hj : f.jump? b = some j) : f.exit? b = some j := by
  rw [jump?_eq] at hj
  obtain ⟨last, hlast, hj⟩ := Option.bind_eq_some_iff.mp hj
  have hne : f.code b ≠ [] := by
    rintro hnil
    simp [hnil] at hlast
  obtain rfl : (f.code b).getLast hne = last :=
    Option.some_inj.mp ((getLast?_eq_some_getLast hne).symm.trans hlast)
  have hinit : (f.code b).dropLast.findSome? f.exitAt = none := findSome?_eq_none_iff.mpr (h b)
  rw [exit?, ← dropLast_concat_getLast hne, findSome?_append, hinit, Option.none_or, findSome?_singleton]
  exact exitAt_of_jumpAt hj

theorem JumpsLast.jump?_eq (h : f.JumpsLast) {j : Jump} (hr : r ∈ f.code b)
    (hj : f.jumpAt r = some j) : f.jump? b = some j := by
  have hne : f.code b ≠ [] := ne_nil_of_mem hr
  rw [← dropLast_concat_getLast hne] at hr
  rcases mem_append.mp hr with hr | hr
  · cases (h b r hr).symm.trans hj
  · obtain rfl := mem_singleton.mp hr
    rw [Function.jump?_eq, getLast?_eq_some_getLast hne, Option.bind_some]
    exact hj

theorem jump?_eq_none (h : f.exit? b = none) : f.jump? b = none := by
  rw [jump?_eq]
  cases hlast : (f.code b).getLast? with
  | none => rfl
  | some r =>
    have hr := findSome?_eq_none_iff.mp h r (mem_of_getLast? hlast)
    rw [exitAt] at hr
    cases hi : f.instructions[r]? with
    | none => simp [hi]
    | some i =>
      rw [hi] at hr
      cases i <;> simp_all [Instruction.exit?, Instruction.jump?]

theorem Tidy.jump?_eq (h : f.Tidy) {j : Jump} (hexit : f.exit? b = some j) (hj : j ≠ .return) :
    f.jump? b = some j := by
  have hne : f.code b ≠ [] := by
    intro hnil
    simp [exit?, hnil] at hexit
  have hlast : f.exitAt ((f.code b).getLast hne) = some j := by
    have hinit : (f.code b).dropLast.findSome? f.exitAt = none :=
      findSome?_eq_none_iff.mpr (h b (by simp [hexit, hj]))
    rw [exit?, ← dropLast_concat_getLast hne, findSome?_append, hinit] at hexit
    simpa using hexit
  rw [Function.jump?_eq, getLast?_eq_some_getLast hne, Option.bind_some]
  rw [exitAt] at hlast
  cases hi : f.instructions[(f.code b).getLast hne]? with
  | none => simp [hi] at hlast
  | some i =>
    rw [hi, Option.bind_some] at hlast
    cases i with
    | jump j' => exact hlast
    | discard =>
      cases hlast
      exact (hj rfl).elim
    | _ => cases hlast

theorem LeavesLast.addBlock (h : f.LeavesLast) : f.addBlock.2.LeavesLast := by
  intro b r hr
  rw [code_addBlock] at hr
  exact h b r hr

theorem exitAt_of_exit?_none (h : f.exit? b = none) (hr : r ∈ f.code b) : f.exitAt r = none :=
  findSome?_eq_none_iff.mp h r hr

theorem LeavesLast.insert_append (h : f.LeavesLast) (hr : f.InRange) (hb : b < f.blocks.size)
    (hexit : f.exit? b = none) : (f.insert (.append b) i).2.LeavesLast := by
  intro b' r hr'
  by_cases hne : b' = b
  · subst hne
    rw [code_insert_append hb, dropLast_concat] at hr'
    rw [exitAt_insert_of_lt (hr b' r hr'), exitAt_of_exit?_none hexit hr']
  · rw [code_insert_of_ne hne] at hr'
    rw [exitAt_insert_of_lt (hr b' r (dropLast_subset _ hr')), h b' r hr']

theorem LeavesLast.insertAll_append (h : f.LeavesLast) (hr : f.InRange) (hb : b < f.blocks.size)
    (hexit : f.exit? b = none) (his : ∀ i ∈ is, i.exit? = none) :
    (f.insertAll (.append b) is).LeavesLast := by
  induction is generalizing f with
  | nil => exact h
  | cons i is ih =>
    have hi := his i (mem_cons_self ..)
    refine ih (h.insert_append hr hb hexit) hr.insert (by rwa [insert_size]) ?_ fun j hj =>
      his j (mem_cons_of_mem _ hj)
    rw [exit?_insert hr hi, hexit]

end Function

end ShaderIR
