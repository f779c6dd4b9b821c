import ShaderIR.Function.Flow
import ShaderIR.Proofs.Growth

/-!
# Edges and predecessors

Computing the edges of a function changes none of its code, and the predecessors of a block are
exactly the blocks with an edge to it, each once. What is recorded of the edges stays current as long
as the edges stay the same.
-/

namespace ShaderIR

open List

theorem mem_appendNew {α : Type} [BEq α] [LawfulBEq α] {l : List α} {a b : α} :
    b ∈ appendNew l a ↔ b ∈ l ∨ b = a := by
  unfold appendNew
  grind

theorem nodup_appendNew {α : Type} [BEq α] [LawfulBEq α] {l : List α} {a : α} (h : l.Nodup) :
    (appendNew l a).Nodup := by
  unfold appendNew
  grind

/-- A block after an edge was recorded, where `b` is the number of the block. -/
def Block.addEdge (b : BlockId) (block : Block) (edge : BlockId × BlockId) : Block := { block with
    successors := if edge.1 = b then appendNew block.successors edge.2 else block.successors
    predecessors := if edge.2 = b then appendNew block.predecessors edge.1 else block.predecessors }

/-- What some edges make of block `b` before it has instructions. -/
def Block.ofEdges (b : BlockId) (edges : List (BlockId × BlockId)) : Block := edges.foldl (Block.addEdge b) {}

namespace Block

variable {b : BlockId}

theorem foldl_addEdge (edges : List (BlockId × BlockId)) (block : Block) (is : List Register) :
    edges.foldl (addEdge b) { block with instructions := is } =
      { edges.foldl (addEdge b) block with instructions := is } := by
  induction edges generalizing block with
  | nil => rfl
  | cons edge edges ih => exact ih (addEdge b block edge)

theorem predecessors_foldl_addEdge (edges : List (BlockId × BlockId)) (block : Block) :
    (∀ p, p ∈ (edges.foldl (addEdge b) block).predecessors ↔ p ∈ block.predecessors ∨ (p, b) ∈ edges) ∧
      (block.predecessors.Nodup → (edges.foldl (addEdge b) block).predecessors.Nodup) := by
  induction edges generalizing block with
  | nil => exact ⟨by simp, id⟩
  | cons edge edges ih =>
    obtain ⟨hmem, hnodup⟩ := ih (addEdge b block edge)
    obtain ⟨p, q⟩ := edge
    constructor
    · intro p'
      rw [foldl_cons, hmem, mem_cons, Prod.mk.injEq, addEdge]
      by_cases hq : q = b
      · simp only [hq, if_true, mem_appendNew, and_true, or_assoc]
      · simp only [if_neg hq, Ne.symm hq, and_false, false_or]
    · intro h
      refine hnodup ?_
      rw [addEdge]
      by_cases hq : q = b
      · simpa only [if_pos hq] using nodup_appendNew h
      · simpa only [if_neg hq] using h

end Block

namespace Function

variable {f g : Function} {b p : BlockId}

/-- The blocks that lead to a block; nothing leads to one that is not there. -/
def preds (f : Function) (b : BlockId) : List BlockId := ((f.blocks[b]?).map (·.predecessors)).getD []

/-- The blocks to which a block leads. -/
def succs (f : Function) (b : BlockId) : List BlockId := ((f.blocks[b]?).map (·.successors)).getD []

theorem getElem?_addEdge (blocks : Array Block) (edge : BlockId × BlockId) (b : BlockId) :
    (addEdge blocks edge)[b]? = (blocks[b]?).map (Block.addEdge b · edge) := by
  simp only [addEdge, Array.getElem?_modify]
  cases blocks[b]? with
  | none => simp
  | some block =>
    by_cases h₁ : edge.1 = b <;> by_cases h₂ : edge.2 = b <;> simp [Block.addEdge, h₁, h₂]

theorem getElem?_foldl_addEdge (edges : List (BlockId × BlockId)) (blocks : Array Block) (b : BlockId) :
    (edges.foldl addEdge blocks)[b]? = (blocks[b]?).map (edges.foldl (Block.addEdge b) ·) := by
  induction edges generalizing blocks with
  | nil => simp
  | cons edge edges ih =>
    rw [foldl_cons, ih, getElem?_addEdge, Option.map_map]
    rfl

theorem getElem?_withFlow : f.withFlow.blocks[b]? = (f.blocks[b]?).map fun block =>
      { Block.ofEdges b f.edges with instructions := block.instructions } := by
  unfold withFlow
  rw [getElem?_foldl_addEdge, getElem?_toArray, getElem?_map, Array.getElem?_toList, Option.map_map]
  refine congrArg (Option.map · f.blocks[b]?) (funext fun block => ?_)
  exact Block.foldl_addEdge f.edges {} block.instructions

theorem preds_insert {spot : Spot} {i : Instruction} : (f.insert spot i).2.preds b = f.preds b := by
  simp only [preds, insert, Array.getElem?_modify]
  split <;> cases f.blocks[b]? <;> rfl

theorem succs_insert {spot : Spot} {i : Instruction} : (f.insert spot i).2.succs b = f.succs b := by
  simp only [succs, insert, Array.getElem?_modify]
  split <;> cases f.blocks[b]? <;> rfl

theorem withFlow_size : f.withFlow.blocks.size = f.blocks.size := by
  have hsize (blocks : Array Block) : (f.edges.foldl addEdge blocks).size = blocks.size := by
    induction f.edges generalizing blocks with
    | nil => rfl
    | cons edge edges ih => simp [foldl_cons, ih, addEdge]
  simp [withFlow, hsize]

theorem code_withFlow : f.withFlow.code b = f.code b := by
  unfold code
  rw [getElem?_withFlow, Option.map_map]
  rfl

section

variable (hb : b < f.blocks.size)
include hb

theorem preds_withFlow : f.withFlow.preds b = (Block.ofEdges b f.edges).predecessors := by
  rw [preds, getElem?_withFlow, Array.getElem?_eq_getElem hb]
  rfl

theorem succs_withFlow : f.withFlow.succs b = (Block.ofEdges b f.edges).successors := by
  rw [succs, getElem?_withFlow, Array.getElem?_eq_getElem hb]
  rfl

theorem preds_withFlow_spec : (∀ p, p ∈ f.withFlow.preds b ↔ (p, b) ∈ f.edges) ∧ (f.withFlow.preds b).Nodup := by
  obtain ⟨hmem, hnodup⟩ := Block.predecessors_foldl_addEdge (b := b) f.edges {}
  rw [preds_withFlow hb, Block.ofEdges]
  simp_all

end

theorem nodup_preds_withFlow : (f.withFlow.preds b).Nodup := by
  by_cases hb : b < f.blocks.size
  · exact (preds_withFlow_spec hb).2
  · rw [preds, getElem?_withFlow, Array.getElem?_eq_none (Nat.not_lt.mp hb)]
    exact .nil

theorem withFlow_eq_self (hedges : g.edges = f.edges) (hsize : g.blocks.size = f.blocks.size)
    (hpreds : ∀ b, g.preds b = f.withFlow.preds b) (hsuccs : ∀ b, g.succs b = f.withFlow.succs b) :
    g.withFlow = g := by
  have hblocks : g.withFlow.blocks = g.blocks := by
    refine Array.ext_getElem? fun b => ?_
    rw [getElem?_withFlow, hedges]
    cases hb : g.blocks[b]? with
    | none => rfl
    | some block =>
      obtain ⟨hlt, -⟩ := Array.getElem?_eq_some_iff.mp hb
      rw [hsize] at hlt
      have hpred : block.predecessors = (Block.ofEdges b f.edges).predecessors := by
        rw [← preds_withFlow hlt, ← hpreds b, preds, hb]
        rfl
      have hsucc : block.successors = (Block.ofEdges b f.edges).successors := by
        rw [← succs_withFlow hlt, ← hsuccs b, succs, hb]
        rfl
      simp only [Option.map_some, ← hpred, ← hsucc]
  calc g.withFlow = { g with blocks := g.withFlow.blocks } := rfl
    _ = g := by rw [hblocks]

end Function

end ShaderIR
