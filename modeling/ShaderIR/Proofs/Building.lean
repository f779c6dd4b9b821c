import Mathlib.Data.List.Count
import Mathlib.Data.List.Nodup
import ShaderIR.Function.Basic

/-!
# Functions under construction

A function that starts with one empty block and grows by instructions, conditionals and loops holds every
block, conditional and loop once in its tree of regions, and every instruction once in its blocks.
-/

namespace ShaderIR

open List

/-- The part whose arm or body is named. -/
def RegionRef.node? : RegionRef → Option RegionNode
  | .body => none
  | .onTrue n | .onFalse n => some (.cond n)
  | .loopBody n => some (.loop n)

/-- Whether a part is a conditional. -/
def RegionNode.isCond : RegionNode → Bool
  | .cond _ => true
  | _ => false

/-- Whether a part is a loop. -/
def RegionNode.isLoop : RegionNode → Bool
  | .loop _ => true
  | _ => false

namespace Region

variable {b : BlockId} {n : Nat} {c : Register} {r q t e rest : Region} {ref : RegionRef} {g : Region → Region}

/-- The parts of a region and those of all arms and bodies in it. -/
def parts (r : Region) : List RegionNode :=
  r.nodes ++ r.conditionals.flatMap (fun k => k.onTrue.nodes ++ k.onFalse.nodes) ++ r.loops.flatMap (·.2.nodes)

theorem parts_last : (last b).parts = [.block b] := rfl

theorem parts_cond : (cond b n c t e rest).parts ~ .block b :: .cond n :: (t.parts ++ e.parts ++ rest.parts) := by
  rw [perm_iff_count]
  intro p
  simp only [parts, nodes, conditionals, loops, cons_append, flatMap_cons, flatMap_append, count_append, count_cons]
  omega

theorem parts_loop : (loop b n r rest).parts ~ .block b :: .loop n :: (r.parts ++ rest.parts) := by
  rw [perm_iff_count]
  intro p
  simp only [parts, nodes, conditionals, loops, cons_append, flatMap_cons, flatMap_append, count_append, count_cons]
  omega

/-- How many arms or bodies below a region are changed where a name is. -/
def hits (ref : RegionRef) : Region → Nat
  | last _ => 0
  | cond _ n _ t e rest =>
    (if ref = .onTrue n then 1 else t.hits ref) + (if ref = .onFalse n then 1 else e.hits ref) + rest.hits ref
  | loop _ n body rest => (if ref = .loopBody n then 1 else body.hits ref) + rest.hits ref

theorem hits_pos (h : (r.below? ref).isSome) : 0 < r.hits ref := by
  induction r with
  | last b => cases h
  | cond b n c t e rest iht ihe ihrest =>
    rw [below?] at h
    grind [hits]
  | loop b n body rest ihbody ihrest =>
    rw [below?] at h
    grind [hits]

theorem hits_le {p : RegionNode} (h : ref.node? = some p) : r.hits ref ≤ r.parts.count p := by
  induction r with
  | last b => exact Nat.zero_le _
  | cond b n c t e rest iht ihe ihrest =>
    rw [hits, parts_cond.count_eq]
    simp only [count_cons, count_append]
    grind [RegionRef.node?]
  | loop b n body rest ihbody ihrest =>
    rw [hits, parts_loop.count_eq]
    simp only [count_cons, count_append]
    grind [RegionRef.node?]

section Extend

variable {f : BlockId → Region} {new : List RegionNode} (hf : ∀ b, (f b).parts ~ .block b :: new)
include hf

theorem parts_extend (r : Region) : (r.extend f).parts ~ r.parts ++ new := by
  induction r with
  | last b => exact hf b
  | cond b n c t e rest _ _ ih =>
    refine perm_iff_count.mpr fun p => ?_
    have hcount := ih.count_eq p
    simp only [extend, count_append, parts_cond.count_eq, count_cons] at hcount ⊢
    omega
  | loop b n body rest _ ih =>
    refine perm_iff_count.mpr fun p => ?_
    have hcount := ih.count_eq p
    simp only [extend, count_append, parts_loop.count_eq, count_cons] at hcount ⊢
    omega

theorem count_updateBelow (r : Region) (p : RegionNode) :
    (r.updateBelow ref (extend f)).parts.count p = r.parts.count p + r.hits ref * new.count p := by
  have hextend (r : Region) := (parts_extend hf r).count_eq p
  simp only [count_append] at hextend
  induction r with
  | last b => simp [updateBelow, hits]
  | cond b n c t e rest iht ihe ihrest =>
    simp only [updateBelow, hits, parts_cond.count_eq, count_cons, count_append, ihrest, Nat.add_mul]
    split_ifs <;> simp only [hextend, iht, ihe, Nat.one_mul] <;> omega
  | loop b n body rest ihbody ihrest =>
    simp only [updateBelow, hits, parts_loop.count_eq, count_cons, count_append, ihrest, Nat.add_mul]
    split_ifs <;> simp only [hextend, ihbody, Nat.one_mul] <;> omega

theorem parts_update (hnodup : r.parts.Nodup) (hfind : (r.find? ref).isSome) :
    (r.update ref (extend f)).parts ~ r.parts ++ new := by
  have hbelow {n : RegionNode} (hn : ref.node? = some n) (h : (r.below? ref).isSome) :
      (r.updateBelow ref (extend f)).parts ~ r.parts ++ new := by
    have hone : r.hits ref = 1 :=
      Nat.le_antisymm (Nat.le_trans (hits_le hn) (nodup_iff_count_le_one.mp hnodup n)) (hits_pos h)
    exact perm_iff_count.mpr fun p => by rw [count_updateBelow hf, hone, Nat.one_mul, count_append]
  cases ref with
  | body => exact parts_extend hf r
  | onTrue n | onFalse n | loopBody n => exact hbelow rfl hfind

end Extend

theorem parts_perm (r : Region) : r.parts ~
    r.blocks.map .block ++ r.conditionals.map (fun k => .cond k.node) ++ r.loops.map fun l => .loop l.1 := by
  induction r with
  | last b => rfl
  | cond b n c t e rest iht ihe ihrest =>
    refine perm_iff_count.mpr fun p => ?_
    have ht := iht.count_eq p
    have he := ihe.count_eq p
    have hrest := ihrest.count_eq p
    simp only [parts_cond.count_eq, blocks, conditionals, loops, map_cons, map_append, count_cons,
      count_append] at ht he hrest ⊢
    omega
  | loop b n body rest ihbody ihrest =>
    refine perm_iff_count.mpr fun p => ?_
    have hbody := ihbody.count_eq p
    have hrest := ihrest.count_eq p
    simp only [parts_loop.count_eq, blocks, conditionals, loops, map_cons, map_append, count_cons,
      count_append] at hbody hrest ⊢
    omega

theorem length_conditionals (r : Region) : r.conditionals.length = r.parts.countP (·.isCond) := by
  simp [r.parts_perm.countP_eq, countP_map, Function.comp_def, RegionNode.isCond]

theorem length_loops (r : Region) : r.loops.length = r.parts.countP (·.isLoop) := by
  simp [r.parts_perm.countP_eq, countP_map, Function.comp_def, RegionNode.isLoop]

end Region

/-! ### What building keeps -/

namespace Function

variable {f : Function}

/-- The parts that some numbers of blocks, conditionals and loops have. -/
def allParts (blocks conds loops : Nat) : List RegionNode :=
  (range blocks).map .block ++ (range conds).map .cond ++ (range loops).map .loop

theorem nodup_allParts (blocks conds loops : Nat) : (allParts blocks conds loops).Nodup := by
  simp only [allParts, nodup_append', disjoint_append_left]
  refine ⟨⟨nodup_range.map fun _ _ h => RegionNode.block.inj h, nodup_range.map fun _ _ h => RegionNode.cond.inj h, ?_⟩,
    nodup_range.map fun _ _ h => RegionNode.loop.inj h, ?_, ?_⟩ <;> simp [List.Disjoint]

/-- Each block, conditional and loop stands once in the tree, and each instruction once in the blocks. -/
structure HoldsOnce (f : Function) : Prop where
  parts : f.body.parts ~ allParts f.blocks.size f.body.conditionals.length f.body.loops.length
  code : f.blocks.toList.flatMap (·.instructions) ~ range f.instructions.size

theorem flatMap_modify {g : Block → Block} {r : Register} (hg : ∀ b, (g b).instructions ~ b.instructions ++ [r])
    {k : Nat} {bs : List Block} (h : k < bs.length) :
    (bs.modify k g).flatMap (·.instructions) ~ bs.flatMap (·.instructions) ++ [r] := by
  induction bs generalizing k with
  | nil => cases h
  | cons b bs ih =>
    refine perm_iff_count.mpr fun p => ?_
    cases k with
    | zero =>
      have hcount := (hg b).count_eq p
      simp only [modify_zero_cons, flatMap_cons, count_append] at hcount ⊢
      omega
    | succ k =>
      have hcount := (ih (Nat.lt_of_succ_lt_succ h)).count_eq p
      simp only [modify_succ_cons, flatMap_cons, count_append] at hcount ⊢
      omega

section

variable (h : f.HoldsOnce)
include h

theorem HoldsOnce.insert {spot : Spot} (hspot : spot.block < f.blocks.size) (i : Instruction) :
    (f.insert spot i).2.HoldsOnce := by
  refine ⟨by simpa [Function.insert] using h.parts, ?_⟩
  simp only [Function.insert, Array.toList_modify, Array.size_push, range_succ]
  refine (flatMap_modify (r := f.instructions.size) (fun b => ?_) hspot).trans (h.code.append_right _)
  cases spot with
  | append b => exact .refl _
  | beforeJump k =>
    dsimp only
    split
    · rcases eq_nil_or_concat b.instructions with hnil | ⟨rs, last, hconcat⟩
      · simp [hnil]
      · simpa [hconcat] using Perm.append_left rs (Perm.swap ..)
    · exact .refl _
  | front k => exact (perm_append_singleton ..).symm

/-- A region goes on with new parts, which are numbered next. -/
theorem HoldsOnce.parts_update {ref : RegionRef} (href : (f.body.find? ref).isSome) {g : BlockId → Region}
    {new : List RegionNode} {blocks conds loops : Nat} (hg : ∀ b, (g b).parts ~ .block b :: new)
    (hconds : f.body.conditionals.length + new.countP (·.isCond) = conds)
    (hloops : f.body.loops.length + new.countP (·.isLoop) = loops)
    (hnew : allParts f.blocks.size f.body.conditionals.length f.body.loops.length ++ new ~
      allParts blocks conds loops) :
    (f.body.update ref (Region.extend g)).parts ~ allParts blocks
      (f.body.update ref (Region.extend g)).conditionals.length (f.body.update ref (Region.extend g)).loops.length := by
  have hparts := Region.parts_update hg (h.parts.nodup_iff.mpr (nodup_allParts ..)) href
  rw [Region.length_conditionals, Region.length_loops, hparts.countP_eq, hparts.countP_eq, countP_append,
    countP_append, ← Region.length_conditionals, ← Region.length_loops, hconds, hloops]
  exact hparts.trans ((h.parts.append_right new).trans hnew)

theorem HoldsOnce.insertCond {ref : RegionRef} (href : (f.body.find? ref).isSome) (condition : Register) :
    (f.insertCond ref condition).2.HoldsOnce := by
  refine ⟨?_, by simpa [Function.insertCond, addBlock] using h.code⟩
  simp only [Function.insertCond, addBlock, Array.size_push]
  refine h.parts_update href (fun b => Region.parts_cond)
    (show f.body.conditionals.length + _ = f.body.conditionals.length + 1 from rfl)
    (show f.body.loops.length + _ = f.body.loops.length from rfl) (perm_iff_count.mpr fun p => ?_)
  simp only [allParts, Region.parts_last, range_succ, map_append, map_cons, map_nil, count_append, count_cons,
    count_nil, Nat.add_assoc, Nat.reduceAdd]
  omega

theorem HoldsOnce.insertLoop {ref : RegionRef} (href : (f.body.find? ref).isSome) :
    (f.insertLoop ref).2.HoldsOnce := by
  refine ⟨?_, by simpa [Function.insertLoop, addBlock] using h.code⟩
  simp only [Function.insertLoop, addBlock, Array.size_push]
  refine h.parts_update href (fun b => Region.parts_loop)
    (show f.body.conditionals.length + _ = f.body.conditionals.length from rfl)
    (show f.body.loops.length + _ = f.body.loops.length + 1 from rfl) (perm_iff_count.mpr fun p => ?_)
  simp only [allParts, Region.parts_last, range_succ, map_append, map_cons, map_nil, count_append, count_cons,
    count_nil, Nat.add_assoc, Nat.reduceAdd]
  omega

end

end Function

end ShaderIR
