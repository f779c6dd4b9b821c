import ShaderIR.Proofs.Meanings
import ShaderIR.Proofs.Reading

/-!
# What a walk asks for

A walk at a block of the stream asks for walks at further blocks: into the body of a loop or the arms of
a selection, and on from there. What comes of it depends on nothing but what comes of these. For each of
them it is known in which state it is asked for and which code was made before.
-/

namespace ShaderIR.Spirv

open EStateM List Lower

namespace Structure

variable {walk walk' : Walker} {code : SourceBlock} {e : Error} {c c' : Context}

/-! ### What is learned on the way -/

theorem quiet_registerOperand (i : RawInstruction) (index : Nat) (spot : Spot) :
    Lower.Quiet (Emit.registerOperand i index spot) :=
  Ensures.quiet fun _ => Emit.makes_registerOperand plain_loadConst i index

theorem quiet_fork (block : BlockId) (branch : RawInstruction) : Lower.Quiet (fork block branch) := by
  refine .bind (quiet_registerOperand branch 0 _) fun condition => ?_
  refine .bind (.of_peeks inferInstance) fun label => ?_
  refine .bind (.of_peeks inferInstance) fun onTrue => ?_
  refine .bind (.of_peeks inferInstance) fun label' => ?_
  exact .bind (.of_peeks inferInstance) fun onFalse => .pure _

theorem quiet_returnValue (block : BlockId) (i : RawInstruction) : Lower.Quiet (returnValue block i) := by
  refine Ensures.quiet fun c => (?_ : Ensures (fun _ => True) (.append block) _ _ fun _ _ => True)
  refine .look fun c' hc => ?_
  obtain ⟨rfl, -⟩ := get_eq_ok.mp hc
  cases hvar : c'.function.returnVar with
  | none => exact .meaningless _
  | some v =>
    refine Makes.bind (Emit.makes_treeOperand (fun _ => trivial) i 0) fun b₁ value h₁ _ => ?_
    have hroot : b₁.context.HasRoot v := h₁.grows.hasRoot (.inr (.inr hvar))
    refine .bind ((Code.makes_storeTree { root := v } value hroot).weaken fun _ _ => trivial) fun _ _ _ _ => ?_
    exact .bind (Emit.makes_instruction trivial (Context.admits_of_nil rfl rfl)) fun _ _ _ _ =>
      .pure trivial

section Learning

variable {block : BlockId} {source : Nat} {before : Option Nat} {scope : Scope} {d : Context}
  {region : Region} {log : List Emission}

theorem learns_of_emitBody (h : emitBody block source code before c = .ok () d) : c.Learns code.results d := by
  obtain ⟨d', hbody, rfl⟩ := emitBody_eq_ok.mp h
  exact (Body.learns_of_instructions hbody).1.congr rfl rfl

theorem fails_of_emitBody (h : emitBody block source code before c = .error e c') :
    c.Fails code.results e c' ∧ c'.placed = (source, block) :: c.placed := by
  change ((Body.instructions (labelBefore c before) code.body).run (.append block) >>= fun _ => _)
    (placedAt c source block) = _ at h
  rcases bind_eq_error.mp h with h | ⟨_, _, _, h⟩
  · obtain ⟨⟨l, hl, hlearns, hid⟩, hplaced⟩ := Body.fails_of_instructions h
    exact ⟨⟨l, hl, hlearns.congr rfl rfl, hid⟩, hplaced⟩
  · cases h

theorem Walks.learns (h : Walks block source before scope c region c' log) :
    c.Learns (log.flatMap (·.code.results)) c' := by
  induction h with
  | stop => exact .of_ids rfl
  | jump => exact .of_ids rfl
  | loop _ _ _ _ _ _ ihbody ihrest =>
    rw [flatMap_append]
    exact (ihbody.trans ihrest).congr rfl rfl
  | branch _ _ hemit _ _ _ _ _ ih => exact (learns_of_emitBody hemit).trans ih
  | cond _ _ hemit _ hcondition _ _ _ _ _ _ _ _ _ ihtrue ihfalse ihrest =>
    have hstill := (quiet_registerOperand _ 0 _).ok hcondition
    rw [flatMap_cons, flatMap_append, flatMap_append]
    exact (learns_of_emitBody hemit).trans (((ihtrue.congr hstill.ids.symm rfl).trans ihfalse).trans ihrest)
  | leave _ _ hemit _ hc' =>
    rw [hc', flatMap_singleton]
    exact (learns_of_emitBody hemit).congr rfl rfl
  | returnValue _ _ hemit _ hreturn =>
    rw [flatMap_singleton]
    exact (learns_of_emitBody hemit).congr rfl ((quiet_returnValue _ _).ok hreturn).ids

end Learning

/-! ### Calls -/

/-- A walk that is asked for: what it is asked with. -/
structure Call where
  block : BlockId
  source : Nat
  before : Option Nat
  visited : List Nat
  scope : Scope
  state : Context

/-- What comes of a walk that is asked for. -/
def Walker.answer (walk : Walker) (k : Call) : EStateM.Result Error Context Region :=
  walk k.block k.source k.before k.visited k.scope k.state

namespace Call

/-- The walk comes to a block of its region that it has not been at. -/
structure Enters (k : Call) (code : SourceBlock) : Prop where
  found : k.state.blocks[k.source]? = some code
  stop : k.scope.stop ≠ some k.source
  fresh : k.source ∉ k.visited

/-- The walk comes to a block that opens a loop with merge block `m`. -/
structure Opens (k : Call) (code : SourceBlock) (merge continueTarget : Id) (m : Nat) : Prop
    extends k.Enters code where
  loop : code.loop? k.scope k.source = some (merge, continueTarget)
  merge : k.state.ids.block merge = .ok m

/-- The walk makes the code of a block, which leads to the state `d`. -/
structure Makes (k : Call) (code : SourceBlock) (d : Context) : Prop extends k.Enters code where
  loop : code.loop? k.scope k.source = none
  emit : emitBody k.block k.source code k.before k.state = .ok () d

/-- The code of a block that the walk made. -/
def emission (k : Call) (code : SourceBlock) (d : Context) : Emission :=
  ⟨k.source, k.block, k.before, code, k.state, d⟩

/-- The walk made the code of a block that ends in a two-way branch. -/
structure Forks (k : Call) (code : SourceBlock) (d d₁ : Context) (onTrue onFalse : Nat) : Prop
    extends k.Makes code d where
  op : code.terminator.op = .opBranchConditional
  fork : ∃ condition, fork k.block code.terminator d = .ok (condition, onTrue, onFalse) d₁

/-- One of the arms jumps, and the other one goes on behind the conditional. -/
inductive Bypasses (scope : Scope) (onTrue onFalse : Nat) (first : BlockId) : BlockId → Jump → Nat → Prop
  | onTrue {j} (htrue : scope.jump? onTrue = some j) : Bypasses scope onTrue onFalse first first j onFalse
  | onFalse {j} (htrue : scope.jump? onTrue = none) (hfalse : scope.jump? onFalse = some j) :
      Bypasses scope onTrue onFalse first (first + 1) j onTrue

/-- The walk made the code of a block that heads a selection with merge block `m`. -/
structure Selects (k : Call) (code : SourceBlock) (d d₁ : Context) (onTrue onFalse m : Nat) : Prop
    extends k.Forks code d d₁ onTrue onFalse where
  jumpTrue : k.scope.jump? onTrue = none
  jumpFalse : k.scope.jump? onFalse = none
  merge : ∃ merge, code.merge = .selection merge ∧ d₁.ids.block merge = .ok m

/-- The walks that a walk asks for, with the code made before each of them. -/
inductive Asks (k : Call) : Call → List Emission → Prop
  | body {code merge continueTarget m} (hopens : k.Opens code merge continueTarget m) :
      Asks k ⟨k.state.function.blocks.size, k.source, none, [],
        { breakTo := some m, continueTo := some k.source },
        (k.state.reported (.loop code.label merge continueTarget)).openLoop⟩ []
  | behind {code merge continueTarget m body d log} (hopens : k.Opens code merge continueTarget m)
      (hbody : Walks k.state.function.blocks.size k.source none { breakTo := some m, continueTo := some k.source }
        (k.state.reported (.loop code.label merge continueTarget)).openLoop body d log) :
      Asks k ⟨k.state.function.blocks.size + 1, m, none, k.source :: k.visited, k.scope, d⟩ log
  | branch {code d label target} (hmakes : k.Makes code d) (hop : code.terminator.op = .opBranch)
      (hlabel : code.terminator.operand 0 = .ok label) (htarget : d.ids.block label = .ok target)
      (hstays : k.scope.Stays target) :
      Asks k ⟨k.block, target, some k.source, k.source :: k.visited, k.scope, d⟩ [k.emission code d]
  | bypass {code d d₁ onTrue onFalse arm j other} (hforks : k.Forks code d d₁ onTrue onFalse)
      (hbypasses : Bypasses k.scope onTrue onFalse d₁.function.blocks.size arm j other)
      (hstays : k.scope.Stays other) :
      Asks k ⟨d₁.function.blocks.size + 2, other, none, k.source :: k.visited, k.scope,
        (d₁.openConditional k.source).append arm (.jump j)⟩ [k.emission code d]
  | trueArm {code d d₁ onTrue onFalse m} (hselects : k.Selects code d d₁ onTrue onFalse m) :
      Asks k ⟨d₁.function.blocks.size, onTrue, none, [], { k.scope with stop := some m },
        d₁.openConditional k.source⟩ [k.emission code d]
  | falseArm {code d d₁ onTrue onFalse m trueArm d₂ log}
      (hselects : k.Selects code d d₁ onTrue onFalse m)
      (htrue : Walks d₁.function.blocks.size onTrue none { k.scope with stop := some m }
        (d₁.openConditional k.source) trueArm d₂ log) :
      Asks k ⟨d₁.function.blocks.size + 1, onFalse, none, [], { k.scope with stop := some m }, d₂⟩
        (k.emission code d :: log)
  | join {code d d₁ onTrue onFalse m trueArm d₂ log falseArm d₃ log'}
      (hselects : k.Selects code d d₁ onTrue onFalse m)
      (htrue : Walks d₁.function.blocks.size onTrue none { k.scope with stop := some m }
        (d₁.openConditional k.source) trueArm d₂ log)
      (hfalse : Walks (d₁.function.blocks.size + 1) onFalse none { k.scope with stop := some m } d₂
        falseArm d₃ log')
      (hstays : k.scope.Stays m) :
      Asks k ⟨d₁.function.blocks.size + 2, m, none, k.source :: k.visited, k.scope, d₃⟩
        (k.emission code d :: (log ++ log'))

variable {k : Call}

/-! ### The turns of a walk -/

theorem answer_of_stop (h : k.scope.stop = some k.source) :
    (walkBlock walk).answer k = .ok (.last k.block) k.state := by
  rw [Walker.answer, walkBlock, if_pos h]
  rfl

theorem answer_of_none (hstop : k.scope.stop ≠ some k.source) (h : k.state.blocks[k.source]? = none) :
    (walkBlock walk).answer k = .error .endlessNesting k.state := by
  rw [Walker.answer, walkBlock, if_neg hstop, get_bind]
  simp only [h]
  rfl

theorem answer_of_visited (hstop : k.scope.stop ≠ some k.source)
    (hcode : k.state.blocks[k.source]? = some code) (h : k.source ∈ k.visited) :
    (walkBlock walk).answer k = .error (.meaningless (.reachedAgain code.label)) k.state := by
  rw [Walker.answer, walkBlock, if_neg hstop, get_bind]
  simp only [hcode, contains_iff_mem.mpr h, if_true]
  rfl

theorem Enters.answer_of_loop (h : k.Enters code) {merge continueTarget : Id}
    (hloop : code.loop? k.scope k.source = some (merge, continueTarget)) :
    (walkBlock walk).answer k = walkLoop walk k.block k.source code.label merge continueTarget
      (k.source :: k.visited) k.scope k.state := by
  rw [Walker.answer, walkBlock, if_neg h.stop, get_bind]
  simp only [h.found, contains_eq_mem, h.fresh, hloop, decide_false, Bool.false_eq_true, if_false]

theorem Enters.answer_of_code (h : k.Enters code) (hloop : code.loop? k.scope k.source = none) :
    (walkBlock walk).answer k = (do
      emitBody k.block k.source code k.before
      walkTerminator walk k.block k.source code (k.source :: k.visited) k.scope) k.state := by
  rw [Walker.answer, walkBlock, if_neg h.stop, get_bind]
  simp only [h.found, contains_eq_mem, h.fresh, hloop, decide_false, Bool.false_eq_true, if_false]

theorem Makes.answer_of_branch {d : Context} {label : Id} {target : Nat} (h : k.Makes code d)
    (hop : code.terminator.op = .opBranch) (hlabel : code.terminator.operand 0 = .ok label)
    (htarget : d.ids.block label = .ok target) (hstays : k.scope.Stays target) :
    (walkBlock walk).answer k =
      walk.answer ⟨k.block, target, some k.source, k.source :: k.visited, k.scope, d⟩ := by
  rw [h.answer_of_code h.loop, bind_of_ok h.emit, walkTerminator_of_branch hop,
    bind_of_ok (operand_eq_ok.mpr ⟨hlabel, rfl⟩),
    bind_of_ok (lookup_eq_ok.mpr ⟨htarget, rfl⟩), goOn_of_stays hstays]
  rfl

/-! ### What a walk depends on -/

variable {visited : List Nat}

theorem goOn_congr {block : BlockId} {target : Nat} {before : Option Nat} {scope : Scope}
    (h : scope.Stays target →
      walk' block target before visited scope c = walk block target before visited scope c) :
    goOn walk' block target before visited scope c = goOn walk block target before visited scope c := by
  by_cases hstop : scope.stop = some target
  · rw [goOn_of_stop hstop, goOn_of_stop hstop]
  · cases hj : scope.jump? target with
    | some j => rw [goOn_of_jump hstop hj, goOn_of_jump hstop hj]
    | none =>
      rw [goOn_of_stays ⟨hstop, hj⟩, goOn_of_stays ⟨hstop, hj⟩]
      exact h ⟨hstop, hj⟩

section Congr

variable {d d₁ : Context} {onTrue onFalse : Nat}

theorem Forks.arms_congr (hk : k.Forks code d d₁ onTrue onFalse) (hwalk : walk.Sound)
    (h : ∀ k' log, k.Asks k' log → walk'.answer k' = walk.answer k')
    (make : Region → Region → Region → Region) :
    walkArms walk' code d₁.function.blocks.size (d₁.function.blocks.size + 1)
        (d₁.function.blocks.size + 2) onTrue onFalse (k.source :: k.visited) k.scope make
        (d₁.openConditional k.source) =
      walkArms walk code d₁.function.blocks.size (d₁.function.blocks.size + 1)
        (d₁.function.blocks.size + 2) onTrue onFalse (k.source :: k.visited) k.scope make
        (d₁.openConditional k.source) := by
  cases htrue : k.scope.jump? onTrue with
  | some j =>
    rw [walkArms_of_trueJumps htrue, walkArms_of_trueJumps htrue]
    exact bind_congr_of_ok (goOn_congr fun hstays => h _ _ (.bypass hk (.onTrue htrue) hstays)) fun _ _ _ => rfl
  | none =>
    cases hfalse : k.scope.jump? onFalse with
    | some j =>
      rw [walkArms_of_falseJumps htrue hfalse, walkArms_of_falseJumps htrue hfalse]
      exact bind_congr_of_ok
        (goOn_congr fun hstays => h _ _ (.bypass hk (.onFalse htrue hfalse) hstays)) fun _ _ _ => rfl
    | none =>
      by_cases hmerge : ∃ merge, code.merge = .selection merge
      · obtain ⟨merge, hmerge⟩ := hmerge
        rw [walkArms_of_merge htrue hfalse hmerge, walkArms_of_merge htrue hfalse hmerge]
        refine bind_congr_of_ok rfl fun m d' hm => ?_
        obtain ⟨hm', rfl⟩ := lookup_eq_ok.mp hm
        have hselects : k.Selects code d d₁ onTrue onFalse m := ⟨hk, htrue, hfalse, merge, hmerge, hm'⟩
        refine bind_congr_of_ok (h _ _ (.trueArm hselects)) fun trueArm d₂ htrueArm => ?_
        obtain ⟨log₁, -, htrueArm⟩ := hwalk htrueArm
        refine bind_congr_of_ok (h _ _ (.falseArm hselects htrueArm)) fun falseArm d₃ hfalseArm => ?_
        obtain ⟨log₂, -, hfalseArm⟩ := hwalk hfalseArm
        exact bind_congr_of_ok
          (goOn_congr fun hstays => h _ _ (.join hselects htrueArm hfalseArm hstays)) fun _ _ _ => rfl
      · have hmerge' := fun merge h => hmerge ⟨merge, h⟩
        rw [walkArms_of_no_merge htrue hfalse hmerge', walkArms_of_no_merge htrue hfalse hmerge']

theorem Makes.terminator_congr (hk : k.Makes code d) (hwalk : walk.Sound)
    (h : ∀ k' log, k.Asks k' log → walk'.answer k' = walk.answer k') :
    walkTerminator walk' k.block k.source code (k.source :: k.visited) k.scope d =
      walkTerminator walk k.block k.source code (k.source :: k.visited) k.scope d := by
  by_cases hbranch : code.terminator.op = .opBranch
  · rw [walkTerminator_of_branch hbranch, walkTerminator_of_branch hbranch]
    refine bind_congr_of_ok rfl fun label d' hlabel => ?_
    obtain ⟨hlabel', rfl⟩ := operand_eq_ok.mp hlabel
    refine bind_congr_of_ok rfl fun target d' htarget => ?_
    obtain ⟨htarget', rfl⟩ := lookup_eq_ok.mp htarget
    exact goOn_congr fun hstays => h _ _ (.branch hk hbranch hlabel' htarget' hstays)
  by_cases hcond : code.terminator.op = .opBranchConditional
  · rw [walkTerminator_of_cond hcond, walkTerminator_of_cond hcond]
    cases hfork : fork k.block code.terminator d with
    | error e d₁ => rw [walkCond, walkCond, bind_of_error hfork, bind_of_error hfork]
    | ok targets d₁ =>
      rw [walkCond_of_ok hfork, walkCond_of_ok hfork]
      exact Forks.arms_congr ⟨hk, hcond, _, hfork⟩ hwalk h _
  · rw [walkTerminator_of_ne hbranch hcond]

end Congr

theorem answer_congr (hwalk : walk.Sound) (h : ∀ k' log, k.Asks k' log → walk'.answer k' = walk.answer k') :
    (walkBlock walk').answer k = (walkBlock walk).answer k := by
  by_cases hstop : k.scope.stop = some k.source
  · rw [answer_of_stop hstop, answer_of_stop hstop]
  cases hfound : k.state.blocks[k.source]? with
  | none => rw [answer_of_none hstop hfound, answer_of_none hstop hfound]
  | some code =>
    by_cases hfresh : k.source ∈ k.visited
    · rw [answer_of_visited hstop hfound hfresh, answer_of_visited hstop hfound hfresh]
    have henters : k.Enters code := ⟨hfound, hstop, hfresh⟩
    cases hloop : code.loop? k.scope k.source with
    | some targets =>
      obtain ⟨merge, continueTarget⟩ := targets
      rw [henters.answer_of_loop hloop, henters.answer_of_loop hloop]
      cases hm : k.state.ids.block merge with
      | error e => rw [walkLoop_of_error hm, walkLoop_of_error hm]
      | ok m =>
        have hopens : k.Opens code merge continueTarget m := ⟨henters, hloop, hm⟩
        rw [walkLoop_of_ok hm, walkLoop_of_ok hm]
        refine bind_congr_of_ok (h _ _ (.body hopens)) fun body d hbody => ?_
        obtain ⟨log, -, hbody⟩ := hwalk hbody
        exact bind_congr_of_ok (h _ _ (.behind hopens hbody)) fun _ _ _ => rfl
    | none =>
      rw [henters.answer_of_code hloop, henters.answer_of_code hloop]
      refine bind_congr_of_ok rfl fun _ d hemit => ?_
      exact Makes.terminator_congr ⟨henters, hloop, hemit⟩ hwalk h

/-! ### How a walk fails -/

theorem quiet_walkTerminator {block : BlockId} {source : Nat} {scope : Scope}
    (hbranch : code.terminator.op ≠ .opBranch) (hcond : code.terminator.op ≠ .opBranchConditional) :
    Lower.Quiet (walkTerminator walk block source code visited scope) := by
  unfold walkTerminator
  split
  case h_1 hop => exact (hbranch hop).elim
  case h_2 hop => exact (hcond hop).elim
  case h_3 => exact .bind (quiet_insertAt _ _) fun _ => .pure _
  case h_4 => exact .bind (quiet_returnValue block code.terminator) fun _ => .pure _
  case h_5 => exact .bind (quiet_insertAt _ _) fun _ => .pure _
  case h_6 => exact .throw rfl

/-- How a walk fails: before the code of its block, in it or behind it, or in a walk that it asks for. -/
inductive Breaks (walk : Walker) (k : Call) (e : Error) (c' : Context) : Prop
  | before (hstill : k.state.Still c') (he : e.redefined? = none)
  | within {code : SourceBlock} (henters : k.Enters code) (hloop : code.loop? k.scope k.source = none)
      (hemit : emitBody k.block k.source code k.before k.state = .error e c')
  | behind {code : SourceBlock} {d : Context} (hmakes : k.Makes code d) (hstill : d.Still c') (he : e.redefined? = none)
  | asked {k' log} (hasks : k.Asks k' log) (hanswer : walk.answer k' = .error e c')

theorem stays_of_goOn {block : BlockId} {target : Nat} {before : Option Nat} {scope : Scope}
    (h : goOn walk block target before visited scope c = .error e c') :
    scope.Stays target ∧ walk block target before visited scope c = .error e c' := by
  by_cases hstop : scope.stop = some target
  · rw [goOn_of_stop hstop] at h
    cases h
  · cases hj : scope.jump? target with
    | some j =>
      rw [goOn_of_jump hstop hj] at h
      cases h
    | none =>
      rw [goOn_of_stays ⟨hstop, hj⟩] at h
      exact ⟨⟨hstop, hj⟩, h⟩

section Breaks

variable {d d₁ : Context} {onTrue onFalse : Nat}

theorem Forks.still (h : k.Forks code d d₁ onTrue onFalse) : d.Still (d₁.openConditional k.source) := by
  obtain ⟨condition, hfork⟩ := h.fork
  exact ((quiet_fork k.block code.terminator).ok hfork).trans ⟨rfl, rfl⟩

theorem Forks.breaks (hk : k.Forks code d d₁ onTrue onFalse) (hwalk : walk.Sound)
    {make : Region → Region → Region → Region}
    (h : walkArms walk code d₁.function.blocks.size (d₁.function.blocks.size + 1)
      (d₁.function.blocks.size + 2) onTrue onFalse (k.source :: k.visited) k.scope make
      (d₁.openConditional k.source) = .error e c') : Breaks walk k e c' := by
  cases htrue : k.scope.jump? onTrue with
  | some j =>
    rw [walkArms_of_trueJumps htrue, bind_eq_error] at h
    rcases h with h | ⟨_, _, _, h⟩
    · obtain ⟨hstays, h⟩ := stays_of_goOn h
      exact .asked (.bypass hk (.onTrue htrue) hstays) h
    · cases h
  | none =>
    cases hfalse : k.scope.jump? onFalse with
    | some j =>
      rw [walkArms_of_falseJumps htrue hfalse, bind_eq_error] at h
      rcases h with h | ⟨_, _, _, h⟩
      · obtain ⟨hstays, h⟩ := stays_of_goOn h
        exact .asked (.bypass hk (.onFalse htrue hfalse) hstays) h
      · cases h
    | none =>
      by_cases hmerge : ∃ merge, code.merge = .selection merge
      · obtain ⟨merge, hmerge⟩ := hmerge
        rw [walkArms_of_merge htrue hfalse hmerge, bind_eq_error] at h
        rcases h with h | ⟨m, d', hm, h⟩
        · obtain ⟨hstill', he⟩ := (Lower.Quiet.of_peeks inferInstance).error h
          exact .behind hk.toMakes (hk.still.trans hstill') he
        obtain ⟨hm', rfl⟩ := lookup_eq_ok.mp hm
        have hselects : k.Selects code d d₁ onTrue onFalse m := ⟨hk, htrue, hfalse, merge, hmerge, hm'⟩
        rw [bind_eq_error] at h
        rcases h with h | ⟨trueArm, d₂, htrueArm, h⟩
        · exact .asked (.trueArm hselects) h
        obtain ⟨log₁, -, htrueArm⟩ := hwalk htrueArm
        rw [bind_eq_error] at h
        rcases h with h | ⟨falseArm, d₃, hfalseArm, h⟩
        · exact .asked (.falseArm hselects htrueArm) h
        obtain ⟨log₂, -, hfalseArm⟩ := hwalk hfalseArm
        rw [bind_eq_error] at h
        rcases h with h | ⟨_, _, _, h⟩
        · obtain ⟨hstays, h⟩ := stays_of_goOn h
          exact .asked (.join hselects htrueArm hfalseArm hstays) h
        · cases h
      · rw [walkArms_of_no_merge htrue hfalse fun merge h => hmerge ⟨merge, h⟩] at h
        cases h
        exact .behind hk.toMakes hk.still rfl

theorem Makes.breaks (hk : k.Makes code d) (hwalk : walk.Sound)
    (h : walkTerminator walk k.block k.source code (k.source :: k.visited) k.scope d = .error e c') :
    Breaks walk k e c' := by
  by_cases hbranch : code.terminator.op = .opBranch
  · rw [walkTerminator_of_branch hbranch, bind_eq_error] at h
    rcases h with h | ⟨label, d', hlabel, h⟩
    · obtain ⟨hstill, he⟩ := (Lower.Quiet.of_peeks inferInstance).error h
      exact .behind hk hstill he
    obtain ⟨hlabel', rfl⟩ := operand_eq_ok.mp hlabel
    rw [bind_eq_error] at h
    rcases h with h | ⟨target, d', htarget, h⟩
    · obtain ⟨hstill, he⟩ := (Lower.Quiet.of_peeks inferInstance).error h
      exact .behind hk hstill he
    obtain ⟨htarget', rfl⟩ := lookup_eq_ok.mp htarget
    obtain ⟨hstays, h⟩ := stays_of_goOn h
    exact .asked (.branch hk hbranch hlabel' htarget' hstays) h
  by_cases hcond : code.terminator.op = .opBranchConditional
  · rw [walkTerminator_of_cond hcond] at h
    cases hfork : fork k.block code.terminator d with
    | error e' d₁ =>
      rw [walkCond, bind_of_error hfork] at h
      cases h
      obtain ⟨hstill, he⟩ := (quiet_fork k.block code.terminator).error hfork
      exact .behind hk hstill he
    | ok targets d₁ =>
      rw [walkCond_of_ok hfork] at h
      exact Forks.breaks ⟨hk, hcond, _, hfork⟩ hwalk h
  · obtain ⟨hstill, he⟩ := (quiet_walkTerminator hbranch hcond).error h
    exact .behind hk hstill he

end Breaks

theorem breaks_of_answer (hwalk : walk.Sound) (h : (walkBlock walk).answer k = .error e c') :
    Breaks walk k e c' := by
  by_cases hstop : k.scope.stop = some k.source
  · rw [answer_of_stop hstop] at h
    cases h
  cases hfound : k.state.blocks[k.source]? with
  | none =>
    rw [answer_of_none hstop hfound] at h
    cases h
    exact .before (.refl _) rfl
  | some code =>
    by_cases hfresh : k.source ∈ k.visited
    · rw [answer_of_visited hstop hfound hfresh] at h
      cases h
      exact .before (.refl _) rfl
    have henters : k.Enters code := ⟨hfound, hstop, hfresh⟩
    cases hloop : code.loop? k.scope k.source with
    | some targets =>
      obtain ⟨merge, continueTarget⟩ := targets
      rw [henters.answer_of_loop hloop] at h
      cases hm : k.state.ids.block merge with
      | error e' =>
        rw [walkLoop_of_error hm] at h
        cases h
        exact .before ⟨rfl, rfl⟩ ((IdTable.finds_block merge).redefined? _ _ hm)
      | ok m =>
        have hopens : k.Opens code merge continueTarget m := ⟨henters, hloop, hm⟩
        rw [walkLoop_of_ok hm, bind_eq_error] at h
        rcases h with h | ⟨body, d, hbody, h⟩
        · exact .asked (.body hopens) h
        obtain ⟨log, -, hbody⟩ := hwalk hbody
        rw [bind_eq_error] at h
        rcases h with h | ⟨_, _, _, h⟩
        · exact .asked (.behind hopens hbody) h
        · cases h
    | none =>
      rw [henters.answer_of_code hloop, bind_eq_error] at h
      rcases h with h | ⟨_, d, hemit, h⟩
      · exact .within henters hloop h
      · exact Makes.breaks ⟨henters, hloop, hemit⟩ hwalk h

/-! ### In which states walks are asked for -/

section Asks

variable {k' : Call} {d d₁ : Context} {onTrue onFalse : Nat} {log : List Emission}

theorem Asks.enters (h : k.Asks k' log) : ∃ code, k.Enters code := by
  cases h with
  | body hopens => exact ⟨_, hopens.toEnters⟩
  | behind hopens => exact ⟨_, hopens.toEnters⟩
  | branch hmakes => exact ⟨_, hmakes.toEnters⟩
  | bypass hforks => exact ⟨_, hforks.toEnters⟩
  | trueArm hselects => exact ⟨_, hselects.toEnters⟩
  | falseArm hselects => exact ⟨_, hselects.toEnters⟩
  | join hselects => exact ⟨_, hselects.toEnters⟩

theorem Makes.carries (h : k.Makes code d) : Carries k.state d := by
  obtain ⟨d', hgrows, rfl⟩ := grows_of_emitBody h.emit
  exact { hgrows with }

theorem Forks.carries (h : k.Forks code d d₁ onTrue onFalse) : Carries k.state (d₁.openConditional k.source) := by
  obtain ⟨condition, hfork⟩ := h.fork
  exact { h.toMakes.carries.trans (grows_of_registerOperand (fork_eq_ok.mp hfork).1).toCarries with }

theorem Makes.learns (h : k.Makes code d) : k.state.Learns code.results d := learns_of_emitBody h.emit

theorem Asks.learns (h : k.Asks k' log) : k.state.Learns (log.flatMap (·.code.results)) k'.state := by
  cases h with
  | body => exact .of_ids rfl
  | behind _ hbody => exact hbody.learns.congr rfl rfl
  | branch hmakes =>
    rw [flatMap_singleton]
    exact hmakes.learns
  | bypass hforks =>
    rw [flatMap_singleton]
    exact hforks.learns.congr rfl hforks.still.ids
  | trueArm hselects =>
    rw [flatMap_singleton]
    exact hselects.learns.congr rfl hselects.still.ids
  | falseArm hselects htrue =>
    exact hselects.learns.trans (htrue.learns.congr hselects.still.ids.symm rfl)
  | join hselects htrue hfalse =>
    rw [flatMap_cons, flatMap_append]
    exact hselects.learns.trans ((htrue.learns.congr hselects.still.ids.symm rfl).trans hfalse.learns)

theorem Asks.placed (h : k.Asks k' log) :
    k'.state.placed = (log.map Emission.entry).reverse ++ k.state.placed := by
  cases h with
  | body => rfl
  | behind _ hbody => exact hbody.placed
  | branch hmakes => exact placed_of_emitBody hmakes.emit
  | bypass hforks => exact hforks.still.placed.trans (placed_of_emitBody hforks.emit)
  | trueArm hselects => exact hselects.still.placed.trans (placed_of_emitBody hselects.emit)
  | falseArm hselects htrue =>
    rw [htrue.placed, hselects.still.placed, placed_of_emitBody hselects.emit]
    simp [emission, Emission.entry]
  | join hselects htrue hfalse =>
    rw [hfalse.placed, htrue.placed, hselects.still.placed, placed_of_emitBody hselects.emit]
    simp [emission, Emission.entry]

theorem Asks.carries (h : k.Asks k' log) : Carries k.state k'.state := by
  have hopen (event : Event) : Carries k.state (k.state.reported event).openLoop := { Carries.refl k.state with }
  cases h with
  | body => exact hopen _
  | behind _ hbody => exact (hopen _).trans hbody.carries
  | branch hmakes => exact hmakes.carries
  | bypass hforks => exact { hforks.carries with }
  | trueArm hselects => exact hselects.carries
  | falseArm hselects htrue => exact hselects.carries.trans htrue.carries
  | join hselects htrue hfalse => exact (hselects.carries.trans htrue.carries).trans hfalse.carries

end Asks

end Call

end Structure

end ShaderIR.Spirv
