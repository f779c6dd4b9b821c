import ShaderIR.Proofs.Flow
import ShaderIR.Proofs.Run
import ShaderIR.Validate

/-!
# What the problems of a module say

Each problem that is found in a module points at something: a number that names nothing, an entry point
without a function, a jump with something behind it or outside of every loop, a phi with something
else before it or with too few or too many sources. What is found inside a loop and what is found
outside differs in jumps only.
-/

namespace ShaderIR

open List

namespace Region

/-- The blocks that stand in no loop. -/
def outside : Region → List BlockId
  | last b => [b]
  | cond b _ _ onTrue onFalse rest => b :: (onTrue.outside ++ onFalse.outside ++ rest.outside)
  | loop b _ _ rest => b :: rest.outside

theorem mem_outside_or_loops {region : Region} {b : BlockId} (hb : b ∈ region.blocks) :
    b ∈ region.outside ∨ ∃ loop ∈ region.loops, b ∈ loop.2.blocks := by
  induction region with
  | last => exact .inl hb
  | cond _ _ _ _ _ _ ihtrue ihfalse ihrest =>
    simp only [blocks, mem_cons, mem_append] at hb
    simp only [outside, loops, mem_cons, mem_append]
    grind
  | loop _ node body _ _ ihrest =>
    simp only [blocks, mem_cons, mem_append] at hb
    simp only [outside, loops, mem_cons, mem_append]
    grind

theorem nodes_eq (region : Region) : region.nodes.head? = some (.block region.head) ∧
      region.nodes.getLast? = some (.block region.tail) := by
  induction region with
  | last b => exact ⟨rfl, rfl⟩
  | cond head node condition onTrue onFalse rest _ _ ihrest | loop head node body rest _ ihrest =>
    refine ⟨rfl, ?_⟩
    rw [nodes, getLast?_cons, getLast?_cons, ihrest.2]
    rfl

end Region

namespace Function

variable {f : Function} {name : String} {b : BlockId} {n : Nat} {inLoop led : Bool}
  {rs : List Register} {region : Region} {p : Problem}

/-- A problem of a jump in a block. -/
inductive JumpProblem (f : Function) (name : String) (b : BlockId) (inLoop : Bool)
    (rs : List Register) : Problem → Prop
  | notLast {r j} (hr : r ∈ rs.dropLast) (hj : f.jumpAt r = some j) :
      JumpProblem f name b inLoop rs (.jumpNotLast name b)
  | outsideLoop {r j} (hr : r ∈ rs) (hj : f.jumpAt r = some j) (hreturn : j ≠ .return)
      (hloop : inLoop = false) : JumpProblem f name b inLoop rs (.jumpOutsideLoop name b)

/-- A problem of a phi in a block with `n` predecessors, where `led` says whether only phis have come
before. -/
inductive PhiProblem (f : Function) (name : String) (b : BlockId) (n : Nat) (led : Bool)
    (rs : List Register) : Problem → Prop
  | notLeading (before : List Register) {r after} (hrs : rs = before ++ r :: after) (hr : f.isPhiAt r)
      (hled : led = false ∨ ∃ r' ∈ before, f.isPhiAt r' = false ∧ r' < f.instructions.size) :
      PhiProblem f name b n led rs (.phiNotLeading name b)
  | sourceMismatch {r sources lanes} (hr : r ∈ rs) (hi : f.instructions[r]? = some (.phi sources lanes))
      (hsources : sources.length ≠ n) :
      PhiProblem f name b n led rs (.phiSourceMismatch name b sources.length n)

theorem JumpProblem.cons (r : Register) (h : JumpProblem f name b inLoop rs p) :
    JumpProblem f name b inLoop (r :: rs) p := by
  cases h with
  | notLast hr hj =>
    have hne : rs ≠ [] := by
      rintro rfl
      cases hr
    refine .notLast ?_ hj
    rw [dropLast_cons_of_ne_nil hne]
    exact mem_cons_of_mem r hr
  | outsideLoop hr hj hreturn hloop => exact .outsideLoop (mem_cons_of_mem r hr) hj hreturn hloop

theorem PhiProblem.cons {led' : Bool} {r : Register} (h : PhiProblem f name b n led' rs p)
    (hled : led' = false → led = false ∨ f.isPhiAt r = false ∧ r < f.instructions.size) :
    PhiProblem f name b n led (r :: rs) p := by
  cases h with
  | @notLeading before _ _ hrs hr' hbefore =>
    refine .notLeading (r :: before) (by rw [hrs, cons_append]) hr' ?_
    grind
  | sourceMismatch hr hi hsources => exact .sourceMismatch (mem_cons_of_mem r hr) hi hsources

theorem mem_orderProblems (hp : p ∈ f.orderProblems name b n inLoop led rs) :
    JumpProblem f name b inLoop rs p ∨ PhiProblem f name b n led rs p := by
  induction rs generalizing led with
  | nil => cases hp
  | cons r rs ih =>
    have hrest {led' : Bool} (hp : p ∈ f.orderProblems name b n inLoop led' rs)
        (hled : led' = false → led = false ∨ f.isPhiAt r = false ∧ r < f.instructions.size) :
        JumpProblem f name b inLoop (r :: rs) p ∨ PhiProblem f name b n led (r :: rs) p :=
      (ih hp).imp (.cons r) (.cons · hled)
    unfold orderProblems at hp
    split at hp
    · exact hrest hp .inl
    · rename_i sources lanes hi
      simp only [mem_append] at hp
      rcases hp with (hp | hp) | hp
      · cases led with
        | true => cases hp
        | false =>
          obtain rfl := mem_singleton.mp hp
          exact .inr (.notLeading [] rfl (isPhiAt_iff.mpr ⟨sources, lanes, hi⟩) (.inl rfl))
      · split at hp
        · cases hp
        · obtain rfl := mem_singleton.mp hp
          exact .inr (.sourceMismatch (mem_cons_self ..) hi ‹_›)
      · exact hrest hp .inl
    · rename_i j hi
      have hj : f.jumpAt r = some j := by rw [jumpAt, hi]; rfl
      have hphi : f.isPhiAt r = false := by rw [isPhiAt, hi]; rfl
      obtain ⟨hlt, -⟩ := Array.getElem?_eq_some_iff.mp hi
      simp only [mem_append] at hp
      rcases hp with (hp | hp) | hp
      · cases rs with
        | nil => cases hp
        | cons r' rs =>
          obtain rfl := mem_singleton.mp hp
          exact .inl (.notLast (mem_cons_self ..) hj)
      · split at hp
        · cases hp
        · rename_i hnot
          obtain rfl := mem_singleton.mp hp
          rw [not_or, Bool.not_eq_true] at hnot
          exact .inl (.outsideLoop (mem_cons_self ..) hj hnot.1 hnot.2)
      · exact hrest hp fun _ => .inr ⟨hphi, hlt⟩
    · rename_i i hphi hjump hi
      obtain ⟨hlt, -⟩ := Array.getElem?_eq_some_iff.mp hi
      refine hrest hp fun _ => .inr ⟨?_, hlt⟩
      rw [isPhiAt, hi]
      cases i with
      | phi sources lanes => exact (hphi sources lanes rfl).elim
      | _ => rfl

theorem blockProblems_eq :
    f.blockProblems name inLoop b = f.orderProblems name b (f.preds b).length inLoop true (f.code b) := by
  unfold blockProblems preds code
  cases f.blocks[b]? <;> rfl

theorem mem_regionProblems (hp : p ∈ f.regionProblems name inLoop region) :
    ∃ b ∈ region.blocks, ∃ inside, p ∈ f.blockProblems name inside b ∧
      (inside = false → inLoop = false ∧ b ∈ region.outside) := by
  induction region generalizing inLoop with
  | last b => exact ⟨b, mem_singleton_self b, inLoop, hp, fun h => ⟨h, mem_singleton_self b⟩⟩
  | cond head _ _ _ _ _ ihtrue ihfalse ihrest =>
    simp only [regionProblems, mem_append] at hp
    simp only [Region.blocks, Region.outside, mem_cons, mem_append]
    grind
  | loop head _ _ _ ihbody ihrest =>
    simp only [regionProblems, mem_append] at hp
    simp only [Region.blocks, Region.outside, mem_cons, mem_append]
    grind

end Function

theorem Module.mem_problems {m : Module} {p : Problem} (hp : p ∈ m.problems) :
    (∃ what index size, p = .dangling what index size) ∨
      (∃ e ∈ m.entryPoints, m.functions.size ≤ e.function ∧ p = .missingEntryFunction e.name) ∨
      ∃ f ∈ m.functions, ∃ name, p ∈ f.regionProblems name false f.body := by
  have hbound {what : Referent} {index size : Nat} (hp : p ∈ boundProblems what index size) :
      ∃ what index size, p = .dangling what index size := by
    unfold boundProblems at hp
    simp_all
  simp only [problems, mem_append, mem_flatMap, mem_map, mem_filter,
    Array.mem_toList_iff, decide_eq_true_eq, Function.problems, Function.referenceProblems] at hp
  rcases hp with (⟨v, -, hp⟩ | ⟨e, ⟨he, hsize⟩, rfl⟩) | ⟨f, hf, ⟨i, -, ⟨r, -, hp⟩ | ⟨place, -, hp⟩⟩ | hp⟩
  · unfold Variable.problems at hp
    grind
  · exact .inr (.inl ⟨e, he, hsize, rfl⟩)
  · exact .inl (hbound hp)
  · exact .inl (hbound hp)
  · exact .inr (.inr ⟨f, hf, _, hp⟩)

end ShaderIR
