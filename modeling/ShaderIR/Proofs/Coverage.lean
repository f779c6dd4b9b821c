import Mathlib.Data.List.Chain
import ShaderIR.Proofs.Problems

/-!
# Runs follow the edges

The edges of a function are read off its region, while a run moves by jumps through what is pending
around it. The two agree: in a module without problems, a run goes from block to block along edges
only, and no break or continue strays out of all loops.

Whatever is pending is a region whose edges are edges of the function, under the loop and with the
block behind it that its edges were computed for. One step of a run keeps that, and so does a run.
-/

namespace EStateM

variable {ε σ α β : Type} {P : ε → Prop}

/-- Every failure of a computation is of a certain kind. -/
def FailsWith (P : ε → Prop) (m : EStateM ε σ α) : Prop := ∀ ⦃s : σ⦄ ⦃e : ε⦄ ⦃s' : σ⦄, m s = .error e s' → P e

namespace FailsWith

protected theorem pure (a : α) : FailsWith P (pure a : EStateM ε σ α) := by
  intro s e s' h
  cases h

protected theorem get : FailsWith P (get : EStateM ε σ σ) := by
  intro s e s' h
  cases h

protected theorem modify (f : σ → σ) : FailsWith P (modify f : EStateM ε σ PUnit) := by
  intro s e s' h
  cases h

protected theorem throw {e : ε} (he : P e) : FailsWith P (throw e : EStateM ε σ α) := by
  intro s e' s' h
  cases h
  exact he

protected theorem bind {m : EStateM ε σ α} {f : α → EStateM ε σ β} (hm : FailsWith P m)
    (hf : ∀ a, FailsWith P (f a)) : FailsWith P (m >>= f) := by
  intro s e s' h
  rcases bind_eq_error.mp h with h | ⟨a, t, -, h⟩
  · exact hm h
  · exact hf a h

protected theorem mapM {f : α → EStateM ε σ β} (hf : ∀ a, FailsWith P (f a)) :
    ∀ l : List α, FailsWith P (l.mapM f) := by
  intro l
  induction l with
  | nil =>
    rw [List.mapM_nil]
    exact .pure []
  | cons a l ih =>
    rw [List.mapM_cons]
    exact (hf a).bind fun b => ih.bind fun bs => .pure (b :: bs)

protected theorem forM {f : α → EStateM ε σ PUnit} (hf : ∀ a, FailsWith P (f a)) :
    ∀ l : List α, FailsWith P (l.forM f) := by
  intro l
  induction l with
  | nil => exact .pure _
  | cons a l ih => exact (hf a).bind fun _ => ih

end FailsWith

end EStateM

namespace ShaderIR

open EStateM List

open EStateM (FailsWith)

/-! ### What can go wrong inside a block -/

/-- Whether an error is that of a jump outside of every loop. -/
def EvalError.IsStray (e : EvalError) : Prop := ∃ j, e = .strayJump j

/-- Whether an error is that of a register that nothing had defined. -/
def EvalError.IsUndefined (e : EvalError) : Prop := ∃ r, e = .undefined r

namespace Exec

theorem failsWith_register (r : Register) : FailsWith EvalError.IsUndefined (register r) := by
  refine FailsWith.get.bind fun s => ?_
  cases (s.registers[r]?).join with
  | some lanes => exact .pure lanes
  | none => exact .throw ⟨r, rfl⟩

theorem failsWith_define (r : Register) (lanes : Lanes) :
    FailsWith EvalError.IsUndefined (define r lanes) := .modify _

theorem failsWith_path (p : Place) : FailsWith EvalError.IsUndefined (path p) := by
  apply FailsWith.mapM
  intro link
  cases link with
  | member i => exact .pure i
  | element i =>
    cases i with
    | direct i => exact .pure i
    | dynamic r => exact (failsWith_register r).bind fun _ => .pure _

theorem failsWith_readSlot (v : VariableId) (path : List Word) :
    FailsWith EvalError.IsUndefined (readSlot v path) :=
  FailsWith.get.bind fun _ => .pure _

end Exec

theorem Instruction.failsWith_perform (r : Register) (i : Instruction) :
    FailsWith EvalError.IsUndefined (i.perform r) := by
  cases i with
  | loadConst bits => exact .modify _
  | undef lanes => exact .modify _
  | texture access => exact .modify _
  | alu op sources lanes =>
    apply FailsWith.bind
    · apply FailsWith.mapM
      intro source
      exact (Exec.failsWith_register _).bind fun _ => .pure _
    · intro inputs
      exact Exec.failsWith_define r _
  | loadVar place lanes =>
    refine (Exec.failsWith_path place).bind fun path => ?_
    exact (Exec.failsWith_readSlot _ path).bind fun slot => Exec.failsWith_define r slot
  | storeVar place value mask =>
    refine (Exec.failsWith_path place).bind fun path => ?_
    refine (Exec.failsWith_register value).bind fun new => ?_
    exact (Exec.failsWith_readSlot _ path).bind fun old => .modify _
  | copyVar dst src =>
    refine (Exec.failsWith_path src).bind fun srcPath => ?_
    refine (Exec.failsWith_path dst).bind fun dstPath => ?_
    exact (Exec.failsWith_readSlot _ srcPath).bind fun slot => .modify _
  | phi sources lanes => exact .pure _
  | discard => exact .pure _
  | jump j => exact .pure _

namespace Function

variable {f : Function}

theorem failsWith_incoming (previous : Option BlockId) (rs : List Register) :
    FailsWith (fun e => e.IsUndefined ∨ ∃ r ∈ f.phis rs, f.phiSource? previous r = none ∧
      e = .missingPhiSource r previous) (f.incoming previous rs) := by
  induction rs with
  | nil => exact .pure _
  | cons r rs ih =>
    unfold incoming
    split
    · rename_i sources lanes hi
      have hphis : f.phis (r :: rs) = r :: f.phis rs :=
        takeWhile_cons_of_pos (by simp [isPhiAt, hi, Instruction.isPhi])
      split
      · rename_i hnone
        refine .throw (.inr ⟨r, ?_, ?_, rfl⟩)
        · rw [hphis]
          exact mem_cons_self ..
        · simp only [phiSource?, hi, hnone]
      · refine FailsWith.bind (fun _ _ _ h => .inl (Exec.failsWith_register _ h)) fun lanes =>
          FailsWith.bind (fun _ _ _ h => (ih h).imp_right ?_) fun rest => .pure _
        simp_all
    · exact .pure _

theorem failsWith_execInstructions (rs : List Register) :
    FailsWith EvalError.IsUndefined (f.execInstructions rs) := by
  induction rs with
  | nil => exact .pure _
  | cons r rs ih =>
    unfold execInstructions
    split
    · exact ih
    · exact ih
    · exact .pure _
    · exact (FailsWith.modify _).bind fun _ => .pure _
    · exact (Instruction.failsWith_perform r _).bind fun _ => ih

theorem error_of_execBlock {b : BlockId} {s s' : RunState} {e : EvalError} (h : f.execBlock b s = .error e s') :
    e.IsUndefined ∨ ∃ r ∈ f.phis (f.code b), f.phiSource? s.previous r = none ∧
      e = .missingPhiSource r s.previous := by
  rw [execBlock_eq] at h
  rcases bind_eq_error.mp h with htakes | ⟨_, t, -, hrest⟩
  · rcases bind_eq_error.mp htakes with hget | ⟨s₀, s₁, hget, hrest⟩
    · cases hget
    · obtain ⟨rfl, rfl⟩ := get_eq_ok.mp hget
      rcases bind_eq_error.mp hrest with hincoming | ⟨values, t, -, hdefine⟩
      · exact failsWith_incoming _ _ hincoming
      · exact .inl (FailsWith.forM (fun p => Exec.failsWith_define p.1 p.2) values hdefine)
  · rcases bind_eq_error.mp hrest with hexec | ⟨jump, t', -, hmodify⟩
    · exact .inl (failsWith_execInstructions _ hexec)
    · exact .inl ((FailsWith.modify _).bind (fun _ => .pure _) hmodify)

end Function

/-! ### Jumps of blocks without problems -/

namespace Function

variable {f : Function} {name : String} {b : BlockId} {n : Nat} {inLoop led : Bool}
  {rs : List Register} {j : Jump}

theorem jump_of_orderProblems (h : f.orderProblems name b n inLoop led rs = [])
    (hexit : rs.findSome? f.exitAt = some j) (hj : j ≠ .return) :
    rs.getLast?.bind f.jumpAt = some j ∧ inLoop = true := by
  induction rs generalizing led with
  | nil => simp at hexit
  | cons r rs ih =>
    -- an instruction that does not leave the block is not the last, since another does
    have hrest {led' : Bool} (hr : f.exitAt r = none) (hrest : f.orderProblems name b n inLoop led' rs = []) :
        (r :: rs).getLast?.bind f.jumpAt = some j ∧ inLoop = true := by
      grind
    unfold orderProblems at h
    split at h
    · rename_i hi
      exact hrest (by simp [exitAt, hi]) h
    · rename_i sources lanes hi
      simp only [List.append_eq_nil_iff] at h
      exact hrest (by simp [exitAt, hi, Instruction.exit?]) h.2
    · rename_i j' hi
      have hexit' : f.exitAt r = some j' := by simp [exitAt, hi, Instruction.exit?]
      rw [List.findSome?_cons, hexit', Option.some_inj] at hexit
      subst hexit
      simp only [List.append_eq_nil_iff, ite_eq_left_iff, List.cons_ne_self, imp_false, not_not] at h
      obtain ⟨⟨hlast, hloop⟩, -⟩ := h
      rw [List.isEmpty_iff] at hlast
      subst hlast
      constructor
      · simp [jumpAt, hi, Instruction.jump?]
      · exact hloop.resolve_left hj
    · rename_i i hphi hjump hi
      by_cases hdiscard : i = .discard
      · subst hdiscard
        rw [List.findSome?_cons] at hexit
        simp [exitAt, hi, Instruction.exit?] at hexit
        exact absurd hexit.symm hj
      · apply hrest _ h
        rw [exitAt, hi, Option.bind_some]
        cases i <;> simp_all [Instruction.exit?]

theorem jump?_of_blockProblems (h : f.blockProblems name inLoop b = []) (hexit : f.exit? b = some j)
    (hj : j ≠ .return) : f.jump? b = some j ∧ inLoop = true := by
  rw [blockProblems_eq] at h
  obtain ⟨hlast, hloop⟩ := jump_of_orderProblems h hexit hj
  rw [jump?_eq]
  exact ⟨hlast, hloop⟩

/-- A jump by which control leaves a block is its last instruction, and stands in a loop unless it
returns. -/
def JumpsSoundly (f : Function) (inLoop : Bool) (b : BlockId) : Prop :=
  ∀ j, f.exit? b = some j → j ≠ .return → f.jump? b = some j ∧ inLoop = true

end Function

/-- Something holds of all blocks of a region, given whether they stand in a loop. -/
def Region.All (P : Bool → BlockId → Prop) (inLoop : Bool) : Region → Prop
  | last b => P inLoop b
  | cond b _ _ onTrue onFalse rest =>
    P inLoop b ∧ onTrue.All P inLoop ∧ onFalse.All P inLoop ∧ rest.All P inLoop
  | loop b _ body rest => P inLoop b ∧ body.All P true ∧ rest.All P inLoop

theorem Region.All.head {P : Bool → BlockId → Prop} {inLoop : Bool} {r : Region} (h : r.All P inLoop) :
    P inLoop r.head := by
  cases r with
  | last b => exact h
  | cond => exact h.1
  | loop => exact h.1

theorem Function.all_jumpsSoundly {f : Function} {name : String} {inLoop : Bool} {r : Region}
    (h : f.regionProblems name inLoop r = []) : r.All f.JumpsSoundly inLoop := by
  induction r generalizing inLoop with
  | last b => exact fun j => jump?_of_blockProblems h
  | cond _ _ _ _ _ _ ihtrue ihfalse ihrest =>
    simp only [regionProblems, append_eq_nil_iff] at h
    obtain ⟨⟨⟨hb, htrue⟩, hfalse⟩, hrest⟩ := h
    exact ⟨fun j => jump?_of_blockProblems hb, ihtrue htrue, ihfalse hfalse, ihrest hrest⟩
  | loop _ _ _ _ ihbody ihrest =>
    simp only [regionProblems, append_eq_nil_iff] at h
    obtain ⟨⟨hb, hbody⟩, hrest⟩ := h
    exact ⟨fun j => jump?_of_blockProblems hb, ihbody hbody, ihrest hrest⟩

/-! ### What a run has before it -/

/-- The blocks that control can run on to from the first block of a region, with `follow` behind the
region. -/
def Region.behindHead (follow : Option BlockId) : Region → List BlockId
  | last _ => follow.toList
  | cond _ _ _ onTrue onFalse _ => [onTrue.head, onFalse.head]
  | loop _ _ body _ => [body.head]

namespace Function

/-- A region may run under a loop and with a block behind it: its edges there are edges of the
function, and its jumps are sound. -/
structure Flows (f : Function) (loop : Option LoopScope) (follow : Option BlockId) (region : Region) : Prop where
  edges : region.edges f.jump? loop follow ⊆ f.edges
  jumps : region.All f.JumpsSoundly loop.isSome

/-- What is pending around a region may run, and goes on where the edges of the region lead. -/
inductive FlowsStack (f : Function) : Option LoopScope → Option BlockId → List Pending → Prop
  | nil : FlowsStack f none none []
  | resume {loop follow rest stack} (hrest : f.Flows loop follow rest)
      (hstack : FlowsStack f loop follow stack) :
      FlowsStack f loop (some rest.head) (.resume rest :: stack)
  | again {loop follow body rest stack}
      (hbody : f.Flows (some ⟨body.head, rest.head⟩) (some body.head) body)
      (hrest : f.Flows loop follow rest) (hstack : FlowsStack f loop follow stack) :
      FlowsStack f (some ⟨body.head, rest.head⟩) (some body.head) (.again body rest :: stack)

/-- A run may be at a position. -/
def FlowsAt (f : Function) (p : Position) : Prop :=
  ∃ loop follow, f.Flows loop follow p.region ∧ f.FlowsStack loop follow p.stack

variable {f : Function} {b : BlockId} {j : Jump} {loop : Option LoopScope}
  {follow : Option BlockId} {region : Region} {stack : List Pending} {p q : Position} {s s' : RunState}

theorem FlowsStack.innermostLoop {scope : LoopScope} (h : f.FlowsStack (some scope) follow stack) :
    ∃ body rest stack', innermostLoop? stack = some (body, rest, stack') ∧
      scope = ⟨body.head, rest.head⟩ ∧ f.FlowsAt ⟨rest, stack'⟩ ∧
      f.FlowsAt ⟨body, .again body rest :: stack'⟩ := by
  generalize hloop : some scope = loop at h
  induction h with
  | nil => cases hloop
  | resume hrest hstack ih => exact ih hloop
  | again hbody hrest hstack =>
    obtain rfl := Option.some_inj.mp hloop
    exact ⟨_, _, _, rfl, rfl, ⟨_, _, hrest, hstack⟩, ⟨_, _, hbody, .again hbody hrest hstack⟩⟩

theorem Flows.mem_edges (h : f.Flows loop follow region) {t : BlockId}
    (ht : t ∈ targets (f.jump? region.head) loop (region.behindHead follow)) :
    (region.head, t) ∈ f.edges := by
  apply h.edges
  have hmem := mem_map_of_mem (f := fun t => (region.head, t)) ht
  cases region with
  | last b => exact hmem
  | cond =>
    simp only [Region.edges, mem_append]
    exact .inl (.inl (.inl hmem))
  | loop b node body rest =>
    simp only [Region.edges, mem_append]
    exact .inl (.inl hmem)

theorem Flows.ofCond {b : BlockId} {node : Nat} {condition : Register} {onTrue onFalse rest : Region}
    (h : f.Flows loop follow (.cond b node condition onTrue onFalse rest)) :
    f.Flows loop (some rest.head) onTrue ∧ f.Flows loop (some rest.head) onFalse ∧ f.Flows loop follow rest := by
  obtain ⟨hedges, -, htrue, hfalse, hrest⟩ := h
  simp only [Region.edges, append_subset] at hedges
  exact ⟨⟨hedges.1.1.2, htrue⟩, ⟨hedges.1.2, hfalse⟩, ⟨hedges.2, hrest⟩⟩

theorem Flows.ofLoop {b : BlockId} {node : Nat} {body rest : Region}
    (h : f.Flows loop follow (.loop b node body rest)) :
    f.Flows (some ⟨body.head, rest.head⟩) (some body.head) body ∧ f.Flows loop follow rest := by
  obtain ⟨hedges, -, hbody, hrest⟩ := h
  simp only [Region.edges, append_subset] at hedges
  exact ⟨⟨hedges.1.2, hbody⟩, ⟨hedges.2, hrest⟩⟩

/-! ### One step -/

section

variable (h : f.FlowsAt p)
include h

theorem FlowsAt.next_of_none (hexit : f.exit? p.region.head = none)
    (hnext : p.next none s = .ok (some q) s') :
    (p.region.head, q.region.head) ∈ f.edges ∧ f.FlowsAt q := by
  obtain ⟨region, stack⟩ := p
  obtain ⟨loop, follow, hregion, hstack⟩ := h
  have hjump : f.jump? region.head = none := jump?_eq_none hexit
  have hedge {t : BlockId} (ht : t ∈ region.behindHead follow) : (region.head, t) ∈ f.edges := by
    apply hregion.mem_edges
    rw [hjump]
    exact ht
  cases region with
  | last b =>
    cases hstack with
    | nil =>
      obtain ⟨hq, -⟩ := pure_eq_ok.mp hnext
      cases hq
    | resume hrest hstack =>
      obtain ⟨hq, -⟩ := pure_eq_ok.mp hnext
      cases hq
      exact ⟨hedge (mem_singleton_self _), _, _, hrest, hstack⟩
    | again hbody hrest hstack =>
      obtain ⟨hq, -⟩ := pure_eq_ok.mp hnext
      cases hq
      exact ⟨hedge (mem_singleton_self _), _, _, hbody, .again hbody hrest hstack⟩
  | cond =>
    obtain ⟨lanes, t, -, hpure⟩ := bind_eq_ok.mp hnext
    obtain ⟨hq, -⟩ := pure_eq_ok.mp hpure
    cases hq
    obtain ⟨htrue, hfalse, hrest⟩ := hregion.ofCond
    by_cases hx : lanes.x ≠ 0
    · simp only [if_pos hx]
      exact ⟨hedge (by simp [Region.behindHead]), _, _, htrue, .resume hrest hstack⟩
    · simp only [if_neg hx]
      exact ⟨hedge (by simp [Region.behindHead]), _, _, hfalse, .resume hrest hstack⟩
  | loop b node body rest =>
    obtain ⟨hq, -⟩ := pure_eq_ok.mp hnext
    cases hq
    obtain ⟨hbody, hrest⟩ := hregion.ofLoop
    exact ⟨hedge (mem_singleton_self _), _, _, hbody, .again hbody hrest hstack⟩

theorem FlowsAt.next_of_jump (hexit : f.exit? p.region.head = some j)
    (hj : j ≠ .return) (s : RunState) :
    ∃ q, p.next (some j) s = .ok (some q) s ∧ (p.region.head, q.region.head) ∈ f.edges ∧ f.FlowsAt q := by
  obtain ⟨region, stack⟩ := p
  obtain ⟨loop, follow, hregion, hstack⟩ := h
  obtain ⟨hjump, hloop⟩ := hregion.jumps.head j hexit hj
  obtain ⟨scope, rfl⟩ := Option.isSome_iff_exists.mp hloop
  obtain ⟨body, rest, stack', hfound, rfl, hrest, hbody⟩ := hstack.innermostLoop
  have hedge {t : BlockId} (ht : ∀ next, t ∈ targets (some j) (some ⟨body.head, rest.head⟩) next) :
      (region.head, t) ∈ f.edges := by
    apply hregion.mem_edges
    rw [hjump]
    exact ht _
  cases j with
  | «break» =>
    refine ⟨⟨rest, stack'⟩, ?_, hedge (by simp [targets]), hrest⟩
    simp only [Position.next, hfound]
    rfl
  | «continue» =>
    refine ⟨⟨body, .again body rest :: stack'⟩, ?_, hedge (by simp [targets]), hbody⟩
    simp only [Position.next, hfound]
    rfl
  | «return» => exact absurd rfl hj

theorem FlowsAt.enter (henter : f.enter p s = .ok (some q) s') :
    (p.region.head, q.region.head) ∈ f.edges ∧ f.FlowsAt q := by
  obtain ⟨-, hnext⟩ := enter_eq_ok.mp henter
  cases hexit : f.exit? p.region.head with
  | none =>
    rw [hexit] at hnext
    exact h.next_of_none hexit hnext
  | some j =>
    rw [hexit] at hnext
    by_cases hj : j = .return
    · subst hj
      obtain ⟨hq, -⟩ := pure_eq_ok.mp hnext
      cases hq
    · obtain ⟨q', hq', hedge⟩ := h.next_of_jump hexit hj s'
      rw [hq'] at hnext
      cases hnext
      exact hedge

theorem FlowsAt.error_of_enter {e : EvalError} (henter : f.enter p s = .error e s') :
    e.IsUndefined ∨ ∃ r ∈ f.phis (f.code p.region.head), f.phiSource? s.previous r = none ∧
      e = .missingPhiSource r s.previous := by
  rcases bind_eq_error.mp henter with hexec | ⟨jump, t, hexec, hnext⟩
  · exact error_of_execBlock hexec
  obtain ⟨_, _, -, -, -, rfl⟩ := execBlock_eq_ok hexec
  left
  cases hexit : f.exit? p.region.head with
  | none =>
    rw [hexit] at hnext
    -- only the condition of a conditional is read here
    obtain ⟨region, stack⟩ := p
    cases region with
    | last b =>
      cases stack with
      | nil => cases hnext
      | cons pending stack => cases pending <;> cases hnext
    | cond _ _ condition =>
      rcases bind_eq_error.mp hnext with hregister | ⟨lanes, t', -, hpure⟩
      · exact Exec.failsWith_register condition hregister
      · cases hpure
    | loop b node body rest => cases hnext
  | some j =>
    rw [hexit] at hnext
    by_cases hj : j = .return
    · subst hj
      cases hnext
    · obtain ⟨q', hq', -⟩ := h.next_of_jump hexit hj t
      rw [hq'] at hnext
      cases hnext

theorem FlowsAt.not_isStray {e : EvalError}
    (henter : f.enter p s = .error e s') : ¬e.IsStray := by
  rcases h.error_of_enter henter with ⟨r, rfl⟩ | ⟨r, -, -, rfl⟩ <;> simp [EvalError.IsStray]

end

/-! ### Whole runs -/

theorem FlowsAt.run (limit steps : Nat) (h : f.FlowsAt p) :
    (∀ e s', f.execFrom limit steps p s = .error e s' → ¬e.IsStray) ∧
      (f.visits steps p s).IsChain fun a b => (a.block, b.block) ∈ f.edges := by
  induction steps generalizing p s with
  | zero =>
    refine ⟨fun e s' hrun => ?_, .nil⟩
    cases hrun
    simp [EvalError.IsStray]
  | succ steps ih =>
    cases henter : f.enter p s with
    | error e s' =>
      refine ⟨fun e' s'' hrun => ?_, ?_⟩
      · rw [execFrom, bind_of_error henter] at hrun
        cases hrun
        exact h.not_isStray henter
      · rw [visits, henter]
        exact .singleton _
    | ok q s' =>
      cases q with
      | none =>
        refine ⟨fun e' s'' hrun => ?_, ?_⟩
        · rw [execFrom, bind_of_ok henter] at hrun
          cases hrun
        · rw [visits, henter]
          exact .singleton _
      | some q =>
        obtain ⟨hedge, hq⟩ := h.enter henter
        obtain ⟨herrors, hchain⟩ := ih (s := s') hq
        refine ⟨fun e' s'' hrun => ?_, ?_⟩
        · rw [execFrom, bind_of_ok henter] at hrun
          exact herrors e' s'' hrun
        · rw [visits, henter]
          refine hchain.cons fun v hv => ?_
          -- the next block that is entered is the head of the next region
          cases steps with
          | zero => cases hv
          | succ steps =>
            have hhead : v.block = q.region.head := by
              rw [visits] at hv
              split at hv <;> exact (Option.some_inj.mp hv) ▸ rfl
            rw [hhead]
            exact hedge

/-- A region without problems whose edges are edges of the function may run. -/
structure Admits (f : Function) (name : String) (loop : Option LoopScope) (follow : Option BlockId)
    (region : Region) : Prop where
  edges : region.edges f.jump? loop follow ⊆ f.edges
  sound : f.regionProblems name loop.isSome region = []

/-- A run may be at the start of a region without problems. -/
def AdmitsAt (f : Function) (name : String) (p : Position) : Prop :=
  ∃ loop follow, f.Admits name loop follow p.region ∧ f.FlowsStack loop follow p.stack

theorem AdmitsAt.run {name : String} (limit steps : Nat) (h : f.AdmitsAt name p) :
    (∀ e s', f.execFrom limit steps p s = .error e s' → ¬e.IsStray) ∧
      (f.visits steps p s).IsChain fun a b => (a.block, b.block) ∈ f.edges := by
  obtain ⟨loop, follow, ⟨hedges, hsound⟩, hstack⟩ := h
  exact FlowsAt.run limit steps ⟨loop, follow, ⟨hedges, all_jumpsSoundly hsound⟩, hstack⟩

end Function

/-! ### Functions that are built step by step -/

namespace Region

variable {r : Region} {b : BlockId} {l : List BlockId}

theorem head_mem_blocks (r : Region) : r.head ∈ r.blocks := by
  cases r <;> simp [head, blocks]

theorem mem_blocks_extend {g : BlockId → Region} (hg : ∀ b, ∀ b' ∈ (g b).blocks, b' = b ∨ b' ∈ l)
    (hb : b ∈ (r.extend g).blocks) : b ∈ r.blocks ∨ b ∈ l := by
  induction r with
  | last b' =>
    rcases hg b' b hb with rfl | hb
    · exact .inl (mem_singleton_self _)
    · exact .inr hb
  | cond b' node condition onTrue onFalse rest _ _ ihrest | loop b' node body rest _ ihrest =>
    simp only [extend, blocks, mem_cons, mem_append] at hb ⊢
    grind

theorem mem_blocks_updateBelow {ref : RegionRef} {g : Region → Region}
    (hg : ∀ r, ∀ b ∈ (g r).blocks, b ∈ r.blocks ∨ b ∈ l) (hb : b ∈ (r.updateBelow ref g).blocks) :
    b ∈ r.blocks ∨ b ∈ l := by
  induction r with
  | last b' => exact .inl hb
  | cond _ _ _ onTrue onFalse _ ihtrue ihfalse ihrest =>
    simp only [updateBelow, blocks, mem_cons, mem_append] at hb ⊢
    grind
  | loop _ _ body _ ihbody ihrest =>
    simp only [updateBelow, blocks, mem_cons, mem_append] at hb ⊢
    grind

theorem mem_blocks_update {ref : RegionRef} {g : Region → Region}
    (hg : ∀ r, ∀ b ∈ (g r).blocks, b ∈ r.blocks ∨ b ∈ l) (hb : b ∈ (r.update ref g).blocks) :
    b ∈ r.blocks ∨ b ∈ l := by
  cases ref with
  | body => exact hg r b hb
  | onTrue node | onFalse node | loopBody node => exact mem_blocks_updateBelow hg hb

theorem mem_edges {jump : BlockId → Option Jump} {loop : Option LoopScope} {follow : Option BlockId}
    {e : BlockId × BlockId} (he : e ∈ r.edges jump loop follow) :
    e.1 ∈ r.blocks ∧ (e.2 ∈ r.blocks ∨ e.2 ∈ follow ∨ ∃ scope ∈ loop, e.2 = scope.head ∨ e.2 = scope.after) := by
  have htargets {b t : BlockId} {loop : Option LoopScope} {next : List BlockId}
      (ht : t ∈ targets (jump b) loop next) :
      t ∈ next ∨ ∃ scope ∈ loop, t = scope.head ∨ t = scope.after := by
    unfold targets at ht
    split at ht
    · obtain ⟨scope, hscope, rfl⟩ := Option.map_eq_some_iff.mp (Option.mem_toList.mp ht)
      exact .inr ⟨scope, hscope, .inr rfl⟩
    · obtain ⟨scope, hscope, rfl⟩ := Option.map_eq_some_iff.mp (Option.mem_toList.mp ht)
      exact .inr ⟨scope, hscope, .inl rfl⟩
    · cases ht
    · exact .inl ht
  induction r generalizing loop follow with
  | last b =>
    obtain ⟨t, ht, rfl⟩ := mem_map.mp he
    refine ⟨mem_singleton_self b, ?_⟩
    grind
  | cond _ _ _ onTrue onFalse rest ihtrue ihfalse ihrest =>
    have hrest := rest.head_mem_blocks
    simp only [edges, mem_append] at he
    simp only [blocks, mem_cons, mem_append]
    rcases he with ((he | he) | he) | he
    · obtain ⟨t, ht, rfl⟩ := mem_map.mp he
      refine ⟨.inl rfl, ?_⟩
      rcases htargets ht with ht | ht
      · rcases mem_pair.mp ht with rfl | rfl
        · exact .inl (.inr (.inl (.inl onTrue.head_mem_blocks)))
        · exact .inl (.inr (.inl (.inr onFalse.head_mem_blocks)))
      · exact .inr (.inr ht)
    · grind
    · grind
    grind
  | loop _ _ body rest ihbody ihrest =>
    have hbody := body.head_mem_blocks
    simp only [edges, mem_append] at he
    simp only [blocks, mem_cons, mem_append]
    rcases he with (he | he) | he
    · grind
    · obtain ⟨h₁, h₂⟩ := ihbody he
      refine ⟨.inr (.inl h₁), ?_⟩
      rcases h₂ with h₂ | h₂ | ⟨scope, hscope, h₂⟩
      · exact .inl (.inr (.inl h₂))
      · simp_all
      · obtain rfl := Option.some_inj.mp hscope
        rcases h₂ with h₂ | h₂
        · exact .inl (.inr (.inl (h₂ ▸ hbody)))
        · exact .inl (.inr (.inr (h₂ ▸ rest.head_mem_blocks)))
    grind

end Region

namespace Function

variable {f g : Function} {a b : BlockId}

/-- Functions made from an empty one by putting instructions in, continuing regions, overwriting
instructions and computing edges, in any order. -/
inductive Built : Function → Prop
  | new (name : Option String) (result : Option TypeId) (locals : List VariableId)
      (returnVar : Option VariableId) : Built { name, result, locals, returnVar }
  | insert {f : Function} (spot : Spot) (i : Instruction) (h : Built f) : Built (f.insert spot i).2
  | insertCond {f : Function} (ref : RegionRef) (condition : Register) (h : Built f) :
      Built (f.insertCond ref condition).2
  | insertLoop {f : Function} (ref : RegionRef) (h : Built f) : Built (f.insertLoop ref).2
  | replace {f : Function} (r : Register) (i : Instruction) (h : Built f) : Built (f.replace r i)
  | withFlow {f : Function} (h : Built f) : Built f.withFlow

theorem Built.block_lt (h : Built f) (hb : b ∈ f.body.blocks) : b < f.blocks.size := by
  induction h generalizing b with
  | new => simpa [Region.blocks] using hb
  | insert spot i h ih =>
    rw [insert_size]
    exact ih hb
  | @insertCond f ref condition h ih =>
    have hsize : (f.insertCond ref condition).2.blocks.size = f.blocks.size + 3 := by
      simp [Function.insertCond, addBlock]
    rw [hsize]
    have hnew := Region.mem_blocks_update
      (l := [f.blocks.size, f.blocks.size + 1, f.blocks.size + 2]) (fun r b' =>
        Region.mem_blocks_extend fun b b' hb' => by simpa [Region.blocks, addBlock] using hb') hb
    grind
  | @insertLoop f ref h ih =>
    have hsize : (f.insertLoop ref).2.blocks.size = f.blocks.size + 2 := by
      simp [Function.insertLoop, addBlock]
    rw [hsize]
    have hnew := Region.mem_blocks_update (l := [f.blocks.size, f.blocks.size + 1]) (fun r b' =>
      Region.mem_blocks_extend fun b b' hb' => by simpa [Region.blocks, addBlock] using hb') hb
    grind
  | replace r i h ih => exact ih hb
  | withFlow h ih =>
    rw [withFlow_size]
    exact ih hb

theorem Built.edge_lt (h : Built f) (he : (a, b) ∈ f.edges) : a < f.blocks.size ∧ b < f.blocks.size := by
  obtain ⟨ha, hb⟩ := Region.mem_edges he
  refine ⟨h.block_lt ha, ?_⟩
  rcases hb with hb | hb | ⟨scope, hscope, -⟩
  · exact h.block_lt hb
  · cases hb
  · cases hscope

end Function

/-! ### Successors and predecessors -/

namespace Block

variable {b : BlockId}

theorem successors_foldl_addEdge (edges : List (BlockId × BlockId)) (block : Block) :
    (∀ t, t ∈ (edges.foldl (addEdge b) block).successors ↔ t ∈ block.successors ∨ (b, t) ∈ edges) ∧
      (block.successors.Nodup → (edges.foldl (addEdge b) block).successors.Nodup) := by
  induction edges generalizing block with
  | nil => exact ⟨by simp, id⟩
  | cons edge edges ih =>
    obtain ⟨hmem, hnodup⟩ := ih (addEdge b block edge)
    obtain ⟨p, q⟩ := edge
    constructor
    · intro t
      rw [foldl_cons, hmem, mem_cons, Prod.mk.injEq, addEdge]
      by_cases hp : p = b
      · simp only [hp, if_true, mem_appendNew, true_and, or_assoc]
      · simp only [if_neg hp, Ne.symm hp, false_and, false_or]
    · intro h
      apply hnodup
      rw [addEdge]
      by_cases hp : p = b
      · simpa only [if_pos hp] using nodup_appendNew h
      · simpa only [if_neg hp] using h

end Block

namespace Function

variable {f g : Function} {a b : BlockId}

theorem jump?_withFlow : f.withFlow.jump? b = f.jump? b := jump?_congr code_withFlow fun _ _ => rfl

theorem edges_withFlow : f.withFlow.edges = f.edges := by
  have hjump : f.withFlow.jump? = f.jump? := funext fun b => jump?_withFlow
  rw [edges, edges, hjump]
  rfl

theorem Built.mem_succs_withFlow (h : Built f) : b ∈ f.withFlow.succs a ↔ (a, b) ∈ f.edges := by
  by_cases ha : a < f.blocks.size
  · rw [succs_withFlow ha, Block.ofEdges]
    simpa using (Block.successors_foldl_addEdge (b := a) f.edges {}).1 b
  · rw [succs, getElem?_withFlow, Array.getElem?_eq_none (Nat.not_lt.mp ha)]
    simp only [Option.map_none, Option.getD_none, not_mem_nil, false_iff]
    exact fun he => ha (h.edge_lt he).1

theorem Built.mem_preds_withFlow (h : Built f) : a ∈ f.withFlow.preds b ↔ (a, b) ∈ f.edges := by
  by_cases hb : b < f.blocks.size
  · exact (preds_withFlow_spec hb).1 a
  · rw [preds, getElem?_withFlow, Array.getElem?_eq_none (Nat.not_lt.mp hb)]
    simp only [Option.map_none, Option.getD_none, not_mem_nil, false_iff]
    exact fun he => hb (h.edge_lt he).2

theorem nodup_succs_withFlow : (f.withFlow.succs b).Nodup := by
  by_cases hb : b < f.blocks.size
  · rw [succs_withFlow hb]
    exact (Block.successors_foldl_addEdge f.edges {}).2 .nil
  · rw [succs, getElem?_withFlow, Array.getElem?_eq_none (Nat.not_lt.mp hb)]
    exact .nil

theorem withFlow_congr {blocks : Array Block} (h : blocks.map (·.instructions) = f.blocks.map (·.instructions)) :
    { f with blocks }.withFlow = f.withFlow := by
  have hinstructions (b : BlockId) : (blocks[b]?).map (·.instructions) = (f.blocks[b]?).map (·.instructions) := by
    have hb := congrArg (·[b]?) h
    simpa using hb
  have hcode (b : BlockId) : { f with blocks }.code b = f.code b := by
    simp only [code, hinstructions]
  have hjump : { f with blocks }.jump? = f.jump? := funext fun b => jump?_congr (hcode b) fun _ _ => rfl
  have hedges : { f with blocks }.edges = f.edges := by
    rw [edges, edges, hjump]
  have hblocks : { f with blocks }.withFlow.blocks = f.withFlow.blocks := by
    refine Array.ext_getElem? fun b => ?_
    rw [getElem?_withFlow, getElem?_withFlow, hedges]
    grind
  calc { f with blocks }.withFlow
      = { f.withFlow with blocks := { f with blocks }.withFlow.blocks } := rfl
    _ = f.withFlow := by rw [hblocks]

end Function

theorem Module.regionProblems_eq_nil {m : Module} (h : m.firstProblem? = none) {f : Function}
    (hf : f ∈ m.functions) : f.regionProblems (f.name.getD "<unnamed>") false f.body = [] := by
  rw [firstProblem?, head?_eq_none_iff, problems, append_eq_nil_iff] at h
  have hproblems := flatMap_eq_nil_iff.mp h.2 f (Array.mem_toList_iff.mpr hf)
  exact (append_eq_nil_iff.mp hproblems).2

/-- In a module without problems whose functions were built step by step, with their edges computed
last, no run of a function has a jump that strays, and a run goes from each block to one of its
successors, which has that block among its predecessors. Successors and predecessors are converse to
each other and name no block twice, and what was recorded before their computation has no influence. -/
theorem visits_follow_flow {m : Module} (hvalid : m.firstProblem? = none) {f : Function}
    (hf : f ∈ m.functions) (hbuilt : ∃ g, Function.Built g ∧ f = g.withFlow) (machine : Machine) :
    (∀ j, (machine.run f).1 ≠ some (.strayJump j)) ∧
      ((machine.visits f).IsChain fun v w => w.block ∈ f.succs v.block ∧ v.block ∈ f.preds w.block) ∧
      (∀ a b, b ∈ f.succs a ↔ a ∈ f.preds b) ∧
      (∀ b, (f.succs b).Nodup ∧ (f.preds b).Nodup) ∧
      ∀ blocks : Array Block, blocks.map (·.instructions) = f.blocks.map (·.instructions) →
        { f with blocks }.withFlow = f := by
  obtain ⟨g, hg, rfl⟩ := hbuilt
  have hstart : g.withFlow.AdmitsAt (g.withFlow.name.getD "<unnamed>") { region := g.withFlow.body } :=
    ⟨none, none, ⟨List.Subset.refl _, m.regionProblems_eq_nil hvalid hf⟩, .nil⟩
  obtain ⟨hstray, hchain⟩ := hstart.run machine.stepLimit machine.stepLimit (s := machine.start g.withFlow)
  refine ⟨fun j hrun => ?_, hchain.imp fun v w hedge => ?_, fun a b => ?_, fun b => ?_, fun blocks h => ?_⟩
  · unfold Machine.run at hrun
    split at hrun
    · cases hrun
    · rename_i e s' herror
      exact hstray e s' herror ⟨j, Option.some_inj.mp hrun⟩
  · rw [Function.edges_withFlow] at hedge
    exact ⟨hg.mem_succs_withFlow.mpr hedge, hg.mem_preds_withFlow.mpr hedge⟩
  · rw [hg.mem_succs_withFlow, hg.mem_preds_withFlow]
  · exact ⟨Function.nodup_succs_withFlow, Function.nodup_preds_withFlow⟩
  · rw [Function.withFlow_congr h]
    refine Function.withFlow_eq_self Function.edges_withFlow Function.withFlow_size ?_ ?_
    · exact fun _ => rfl
    · exact fun _ => rfl

/-- A loop that a conditional in its body breaks out of on one side, and that what follows the
conditional continues. -/
def breakingLoop : Function :=
  let f : Function := { name := some "count" }
  let f := (f.insertLoop .body).2
  let f := (f.insert (.append 1) (.loadConst [1])).2
  let f := (f.insertCond (.loopBody 0) 0).2
  let f := (f.insert (.append 3) (.jump .break)).2
  let f := (f.insert (.append 5) (.jump .return)).2
  f.replace 2 (.jump .continue)

theorem visits_follow_flow_breakingLoop :
    ({ functions := #[breakingLoop.withFlow] } : Module).firstProblem? = none ∧ breakingLoop.Built ∧
      ((({} : Machine).visits breakingLoop.withFlow).map (·.block) = [0, 1, 3, 2]) ∧
      (∀ j, (({} : Machine).run breakingLoop.withFlow).1 ≠ some (.strayJump j)) ∧
      (({} : Machine).visits breakingLoop.withFlow).IsChain fun v w =>
        w.block ∈ breakingLoop.withFlow.succs v.block ∧ v.block ∈ breakingLoop.withFlow.preds w.block := by
  have hvalid : ({ functions := #[breakingLoop.withFlow] } : Module).firstProblem? = none := by
    decide +kernel
  have hbuilt : breakingLoop.Built :=
    .replace _ _ (.insert _ _ (.insert _ _ (.insertCond _ _ (.insert _ _ (.insertLoop _ (.new _ _ _ _))))))
  obtain ⟨hstray, hchain, -⟩ := visits_follow_flow hvalid (Array.mem_singleton.mpr rfl)
    ⟨breakingLoop, hbuilt, rfl⟩ {}
  exact ⟨hvalid, hbuilt, by decide +kernel, hstray, hchain⟩

end ShaderIR
