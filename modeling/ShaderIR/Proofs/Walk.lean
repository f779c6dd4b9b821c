import ShaderIR.Proofs.Handlers
import ShaderIR.Spirv.Structure

/-!
# What a walk does

A walk that succeeds took one of few turns at each block of the stream: it stopped where the region
comes together, became a jump, opened a loop, or made the code of the block and went on as the
instruction that ends the block says. The relation `Walks` has one rule for each, and records in
order where the code of which block was made.
-/

namespace ShaderIR.Spirv

open EStateM List Lower

/-- The code of one block of the stream, made in the state `start` at the end of `block`. -/
structure Emission where
  source : Nat
  block : BlockId
  /-- The block of the stream that `source` continues. -/
  before : Option Nat
  code : SourceBlock
  start : Context
  finish : Context

/-- Where the code of a block of the stream went. -/
def Emission.entry (e : Emission) : Nat × BlockId := (e.source, e.block)

/-- The blocks of the stream whose code went into a block, in order. -/
def sourcesIn (log : List (Nat × BlockId)) (b : BlockId) : List Nat := (log.filter (·.2 = b)).map (·.1)

section SourcesIn

variable {log log' : List (Nat × BlockId)} {b b' : BlockId} {source : Nat}

@[simp] theorem sourcesIn_nil : sourcesIn [] b = [] := rfl

theorem sourcesIn_append : sourcesIn (log ++ log') b = sourcesIn log b ++ sourcesIn log' b := by
  simp [sourcesIn]

@[simp] theorem sourcesIn_cons_self : sourcesIn ((source, b) :: log) b = source :: sourcesIn log b := by
  simp [sourcesIn]

theorem sourcesIn_cons_of_ne (h : b' ≠ b) : sourcesIn ((source, b') :: log) b = sourcesIn log b := by
  simp [sourcesIn, h]

theorem sourcesIn_eq_nil (h : ∀ p ∈ log, p.2 ≠ b) : sourcesIn log b = [] := by
  simpa [sourcesIn] using h

end SourcesIn

namespace Context

/-- The state after a loop was opened: the next two blocks are that of its body and the one behind
it. -/
def openLoop (c : Context) : Context := { c with
    loops := c.loops + 1
    function := c.function.addBlock.2.addBlock.2 }

/-- The state after a conditional was opened behind a block of the stream: the next three blocks are
those of its arms, which control leaves as that block, and the one behind it. -/
def openConditional (c : Context) (source : Nat) : Context := { c with
    conditionals := c.conditionals + 1
    function := c.function.addBlock.2.addBlock.2.addBlock.2
    ends := (c.function.blocks.size + 1, source) :: (c.function.blocks.size, source) :: c.ends }

/-- The state after an instruction was put behind a block. -/
def append (c : Context) (block : BlockId) (i : Instruction) : Context :=
  c.withFunction (c.function.insert (.append block) i).2

variable (c : Context)
include c

theorem size_openLoop : c.openLoop.function.blocks.size = c.function.blocks.size + 2 := by
  change c.function.addBlock.2.addBlock.2.blocks.size = _
  simp

@[grind =] theorem size_openLoop_reported (e : Event) :
    (c.reported e).openLoop.function.blocks.size = c.function.blocks.size + 2 := size_openLoop _

@[grind =] theorem size_openConditional (source : Nat) :
    (c.openConditional source).function.blocks.size = c.function.blocks.size + 3 := by
  change c.function.addBlock.2.addBlock.2.addBlock.2.blocks.size = _
  simp

theorem code_openLoop (b : BlockId) : c.openLoop.function.code b = c.function.code b := by
  change c.function.addBlock.2.addBlock.2.code b = _
  simp only [Function.code_addBlock]

theorem code_openConditional (source : Nat) (b : BlockId) :
    (c.openConditional source).function.code b = c.function.code b := by
  change c.function.addBlock.2.addBlock.2.addBlock.2.code b = _
  simp only [Function.code_addBlock]

end Context

/-- A branch to a block leads to a block of the same region. -/
def Scope.Stays (scope : Scope) (target : Nat) : Prop := scope.stop ≠ some target ∧ scope.jump? target = none

instance (scope : Scope) (target : Nat) : Decidable (scope.Stays target) := inferInstanceAs (Decidable (_ ∧ _))

namespace Structure

/-- Where the arms of a two-way branch come together: at the merge block, or where one of them leads if
the other jumps. -/
inductive Joins (scope : Scope) (code : SourceBlock) (ids : IdTable) (onTrue onFalse : Nat) :
    (trueLog falseLog : List Emission) → Nat → Prop
  | merge {trueLog falseLog merge m} (hmerge : code.merge = .selection merge)
      (hm : ids.block merge = .ok m) (htrue : scope.jump? onTrue = none)
      (hfalse : scope.jump? onFalse = none) (htrueLog : trueLog = [] → onTrue = m)
      (hfalseLog : falseLog = [] → onFalse = m) : Joins scope code ids onTrue onFalse trueLog falseLog m
  | trueJumps {j} (htrue : scope.jump? onTrue = some j) :
      Joins scope code ids onTrue onFalse [] [] onFalse
  | falseJumps {j} (htrue : scope.jump? onTrue = none) (hfalse : scope.jump? onFalse = some j) :
      Joins scope code ids onTrue onFalse [] [] onTrue

/-- How a walk goes from a block of the stream in a scope, putting code into `block` first: from
which state to which, with which region and which code made on the way. Behind a branch that leaves the
region no code is made. -/
inductive Walks : BlockId → Nat → Option Nat → Scope → Context → Region → Context → List Emission → Prop
  /-- The region comes together here. -/
  | stop {block source before scope c} (hstop : scope.stop = some source) :
      Walks block source before scope c (.last block) c []
  /-- The branch that leads here leaves the innermost loop or starts it again. -/
  | jump {block source before scope c j} (hjump : scope.jump? source = some j) :
      Walks block source before scope c (.last block) (c.append block (.jump j)) []
  /-- A loop starts here. -/
  | loop {block source before scope c code merge continueTarget m body d log₁ rest c' log₂}
      (hcode : c.blocks[source]? = some code)
      (hhere : scope.stop ≠ some source ∧ log₁ ≠ [] ∧ (log₂ = [] → scope.stop = some m))
      (hloop : code.loop? scope source = some (merge, continueTarget))
      (hmerge : c.ids.block merge = .ok m)
      (hbody : Walks c.function.blocks.size source none { breakTo := some m, continueTo := some source }
        (c.reported (.loop code.label merge continueTarget)).openLoop body d log₁)
      (hrest : Walks (c.function.blocks.size + 1) m none scope d rest c' log₂) :
      Walks block source before scope c (.loop block c.loops body rest) c' (log₁ ++ log₂)
  /-- The block ends in a branch. -/
  | branch {block source before scope c code d label target region c' log}
      (hcode : c.blocks[source]? = some code)
      (hhere : scope.stop ≠ some source ∧ code.loop? scope source = none)
      (hemit : emitBody block source code before c = .ok () d)
      (hop : code.terminator.op = .opBranch)
      (hlabel : code.terminator.operand 0 = .ok label)
      (htarget : d.ids.block label = .ok target) (hstays : log = [] ↔ ¬scope.Stays target)
      (hrest : Walks block target (some source) scope d region c' log) :
      Walks block source before scope c region c' (⟨source, block, before, code, c, d⟩ :: log)
  /-- The block ends in a two-way branch, whose arms come together at `m`. -/
  | cond {block source before scope c code d d₁ condition trueLabel onTrue falseLabel onFalse m
        trueArm d₂ log₁ falseArm d₃ log₂ rest c' log₃}
      (hcode : c.blocks[source]? = some code)
      (hhere : scope.stop ≠ some source ∧ code.loop? scope source = none)
      (hemit : emitBody block source code before c = .ok () d)
      (hop : code.terminator.op = .opBranchConditional)
      (hcondition : Emit.registerOperand code.terminator 0 (.append block) d = .ok condition d₁)
      (htrueLabel : code.terminator.operand 1 = .ok trueLabel)
      (honTrue : d₁.ids.block trueLabel = .ok onTrue)
      (hfalseLabel : code.terminator.operand 2 = .ok falseLabel)
      (honFalse : d₁.ids.block falseLabel = .ok onFalse)
      (hjoins : Joins scope code d₁.ids onTrue onFalse log₁ log₂ m) (hstays : log₃ = [] ↔ ¬scope.Stays m)
      (htrueArm : Walks d₁.function.blocks.size onTrue none { scope with stop := some m }
        (d₁.openConditional source) trueArm d₂ log₁)
      (hfalseArm : Walks (d₁.function.blocks.size + 1) onFalse none { scope with stop := some m }
        d₂ falseArm d₃ log₂)
      (hrest : Walks (d₁.function.blocks.size + 2) m none scope d₃ rest c' log₃) :
      Walks block source before scope c (.cond block d₁.conditionals condition trueArm falseArm rest) c'
        (⟨source, block, before, code, c, d⟩ :: (log₁ ++ log₂ ++ log₃))
  /-- The block ends the function or drops the fragment. -/
  | leave {block source before scope c code d c' i}
      (hcode : c.blocks[source]? = some code)
      (hhere : scope.stop ≠ some source ∧ code.loop? scope source = none)
      (hemit : emitBody block source code before c = .ok () d)
      (hop : code.terminator.op = .opReturn ∧ i = .jump .return ∨ code.terminator.op = .opKill ∧ i = .discard)
      (hc' : c' = d.append block i) :
      Walks block source before scope c (.last block) c' [⟨source, block, before, code, c, d⟩]
  /-- The block returns a value. -/
  | returnValue {block source before scope c code d c'}
      (hcode : c.blocks[source]? = some code)
      (hhere : scope.stop ≠ some source ∧ code.loop? scope source = none)
      (hemit : emitBody block source code before c = .ok () d)
      (hop : code.terminator.op = .opReturnValue)
      (hreturn : returnValue block code.terminator d = .ok () c') :
      Walks block source before scope c (.last block) c' [⟨source, block, before, code, c, d⟩]

variable {c c' : Context} {walk : Walker} {block : BlockId} {source target : Nat} {d : Context}
  {before : Option Nat} {visited : List Nat} {scope : Scope} {code : SourceBlock} {region : Region}

/-- Every success of a walker is a walk, which makes code unless its region comes together at once. -/
def Walker.Sound (walk : Walker) : Prop := ∀ ⦃block source before visited scope c region c'⦄,
    walk block source before visited scope c = .ok region c' →
      ∃ log, (log = [] → scope.stop = some source) ∧ Walks block source before scope c region c' log

/-! ### Walks in parts -/

theorem goOn_of_stays (h : scope.Stays target) :
    goOn walk block target before visited scope = walk block target before visited scope := by
  simp only [goOn, follow, h.1, h.2, if_false, pure_bind]

theorem goOn_of_stop (h : scope.stop = some target) :
    goOn walk block target before visited scope c = .ok (.last block) c := by
  simp only [goOn, follow, h, if_true, pure_bind]
  rfl

theorem goOn_of_jump {j : Jump} (hstop : scope.stop ≠ some target) (h : scope.jump? target = some j) :
    goOn walk block target before visited scope c = .ok (.last block) (c.append block (.jump j)) := by
  simp only [goOn, follow, hstop, h, if_false, bind_assoc, pure_bind]
  rfl

variable {continueTarget : Id} {i : RawInstruction}

theorem walkLoop_of_ok {label merge : Id} {m : Nat} (hm : c.ids.block merge = .ok m) :
    walkLoop walk block source label merge continueTarget visited scope c = (do
        let body ← walk c.function.blocks.size source none [] { breakTo := some m, continueTo := some source }
        let rest ← walk (c.function.blocks.size + 1) m none visited scope
        return .loop block c.loops body rest : Lower Region)
      (c.reported (.loop label merge continueTarget)).openLoop := by
  have hlookup : Lower.lookup (·.block merge) (c.reported (.loop label merge continueTarget)).openLoop =
      .ok m (c.reported (.loop label merge continueTarget)).openLoop :=
    lookup_eq_ok.mpr ⟨hm, rfl⟩
  have hsize : c.function.addBlock.2.addBlock.1 = c.function.blocks.size + 1 := Function.addBlock_size
  rw [← hsize]
  exact bind_of_ok hlookup

theorem walkLoop_of_error {label merge : Id} {e : Error} (he : c.ids.block merge = .error e) :
    walkLoop walk block source label merge continueTarget visited scope c =
      .error e (c.reported (.loop label merge continueTarget)).openLoop := by
  have hlookup : Lower.lookup (·.block merge) (c.reported (.loop label merge continueTarget)).openLoop =
      .error e (c.reported (.loop label merge continueTarget)).openLoop := by
    rw [Lower.lookup, get_bind]
    change Lower.ofExcept (c.ids.block merge) _ = _
    rw [he]
    rfl
  change (Lower.lookup (·.block merge) >>= _ : Lower Region)
    (c.reported (.loop label merge continueTarget)).openLoop = _
  exact bind_of_error hlookup

theorem fork_eq_ok {branch : RawInstruction} {condition : Register} {onTrue onFalse : Nat} :
    fork block branch c = .ok (condition, onTrue, onFalse) c' ↔
      Emit.registerOperand branch 0 (.append block) c = .ok condition c' ∧
      (∃ label, branch.operand 1 = .ok label ∧ c'.ids.block label = .ok onTrue) ∧
      ∃ label, branch.operand 2 = .ok label ∧ c'.ids.block label = .ok onFalse := by
  unfold fork
  simp only [bind_eq_ok, operand_eq_ok, lookup_eq_ok, pure_eq_ok]
  constructor
  · rintro ⟨_, _, hcondition, trueLabel, _, ⟨htrue, rfl⟩, _, _, ⟨honTrue, rfl⟩, falseLabel, _, ⟨hfalse, rfl⟩,
      _, _, ⟨honFalse, rfl⟩, heq, rfl⟩
    cases heq
    exact ⟨hcondition, ⟨trueLabel, htrue, honTrue⟩, falseLabel, hfalse, honFalse⟩
  · rintro ⟨hcondition, ⟨trueLabel, htrue, honTrue⟩, falseLabel, hfalse, honFalse⟩
    exact ⟨_, _, hcondition, _, _, ⟨htrue, rfl⟩, _, _, ⟨honTrue, rfl⟩, _, _, ⟨hfalse, rfl⟩, _, _,
      ⟨honFalse, rfl⟩, rfl, rfl⟩

/-- A conditional is opened once its branch was read. -/
theorem walkCond_of_ok {d d₁ : Context} {condition : Register} {onTrue onFalse : Nat}
    (h : fork block code.terminator d = .ok (condition, onTrue, onFalse) d₁) :
    walkCond walk block source code visited scope d =
      walkArms walk code d₁.function.blocks.size (d₁.function.blocks.size + 1)
        (d₁.function.blocks.size + 2) onTrue onFalse visited scope
        (.cond block d₁.conditionals condition) (d₁.openConditional source) := by
  have hfalse : d₁.function.addBlock.2.addBlock.1 = d₁.function.blocks.size + 1 := Function.addBlock_size
  have hafter : d₁.function.addBlock.2.addBlock.2.addBlock.1 = d₁.function.blocks.size + 2 :=
    Function.addBlock_size.trans (congrArg (· + 1) Function.addBlock_size)
  have hopen : d₁.openConditional source = { d₁ with
        conditionals := d₁.conditionals + 1
        function := d₁.function.addBlock.2.addBlock.2.addBlock.2
        ends := (d₁.function.addBlock.2.addBlock.1, source) ::
          (d₁.function.addBlock.1, source) :: d₁.ends } := by
    rw [hfalse]
    rfl
  rw [hopen, ← hfalse, ← hafter, walkCond, bind_of_ok h]
  rfl

section Arms

variable {trueBlock falseBlock after : BlockId} {onTrue onFalse : Nat}
  {make : Region → Region → Region → Region} {j : Jump}

theorem walkArms_of_trueJumps (h : scope.jump? onTrue = some j) :
    walkArms walk code trueBlock falseBlock after onTrue onFalse visited scope make c = (do
        let rest ← goOn walk after onFalse none visited scope
        return make (.last trueBlock) (.last falseBlock) rest) (c.append trueBlock (.jump j)) := by
  simp only [walkArms, h]
  rfl

variable (htrue : scope.jump? onTrue = none)
include htrue

theorem walkArms_of_falseJumps (h : scope.jump? onFalse = some j) :
    walkArms walk code trueBlock falseBlock after onTrue onFalse visited scope make c = (do
        let rest ← goOn walk after onTrue none visited scope
        return make (.last trueBlock) (.last falseBlock) rest) (c.append falseBlock (.jump j)) := by
  simp only [walkArms, htrue, h]
  rfl

theorem walkArms_of_merge {merge : Id}
    (hfalse : scope.jump? onFalse = none) (hmerge : code.merge = .selection merge) :
    walkArms walk code trueBlock falseBlock after onTrue onFalse visited scope make = (do
      let m ← Lower.lookup (·.block merge)
      let trueArm ← walk trueBlock onTrue none [] { scope with stop := some m }
      let falseArm ← walk falseBlock onFalse none [] { scope with stop := some m }
      let rest ← goOn walk after m none visited scope
      return make trueArm falseArm rest) := by
  simp only [walkArms, htrue, hfalse, hmerge]

theorem walkArms_of_no_merge (hfalse : scope.jump? onFalse = none)
    (hmerge : ∀ merge, code.merge ≠ .selection merge) :
    walkArms walk code trueBlock falseBlock after onTrue onFalse visited scope make =
      throw (.missingSelectionMerge code.label) := by
  simp only [walkArms, htrue, hfalse]

end Arms

theorem walkTerminator_of_branch (hop : code.terminator.op = .opBranch) :
    walkTerminator walk block source code visited scope = (do
      let label ← Lower.operand code.terminator 0
      let target ← Lower.lookup (·.block label)
      goOn walk block target (some source) visited scope) := by
  rw [walkTerminator, hop]

theorem walkTerminator_of_cond (hop : code.terminator.op = .opBranchConditional) :
    walkTerminator walk block source code visited scope = walkCond walk block source code visited scope := by
  rw [walkTerminator, hop]

theorem walkTerminator_of_ne {walk' : Walker} (hbranch : code.terminator.op ≠ .opBranch)
    (hcond : code.terminator.op ≠ .opBranchConditional) :
    walkTerminator walk' block source code visited scope =
      walkTerminator walk block source code visited scope := by
  unfold walkTerminator
  grind

/-! ### Walks that succeed -/

section

variable (hwalk : walk.Sound)
include hwalk

theorem goOn_walks (h : goOn walk block target before visited scope c = .ok region c') :
    ∃ log, (log = [] ↔ ¬scope.Stays target) ∧ Walks block target before scope c region c' log := by
  by_cases hstop : scope.stop = some target
  · rw [goOn_of_stop hstop] at h
    cases h
    exact ⟨[], by simp [Scope.Stays, hstop], .stop hstop⟩
  · cases hj : scope.jump? target with
    | some j =>
      rw [goOn_of_jump hstop hj] at h
      cases h
      exact ⟨[], by simp [Scope.Stays, hj], .jump hj⟩
    | none =>
      rw [goOn_of_stays ⟨hstop, hj⟩] at h
      obtain ⟨log, hmade, hlog⟩ := hwalk h
      exact ⟨log, by simpa [Scope.Stays, hstop, hj] using fun hnil => hstop (hmade hnil), hlog⟩

section

variable (hcode : c.blocks[source]? = some code)
include hcode

theorem walkLoop_walks {merge : Id}
    (hstop : scope.stop ≠ some source)
    (hloop : code.loop? scope source = some (merge, continueTarget))
    (h : walkLoop walk block source code.label merge continueTarget visited scope c =
      .ok region c') : ∃ log, log ≠ [] ∧ Walks block source before scope c region c' log := by
  cases hm : c.ids.block merge with
  | error e =>
    rw [walkLoop_of_error hm] at h
    cases h
  | ok m =>
    rw [walkLoop_of_ok hm, bind_eq_ok] at h
    obtain ⟨body, d, hbody, h⟩ := h
    rw [bind_eq_ok] at h
    obtain ⟨rest, d', hrest, h⟩ := h
    obtain ⟨rfl, rfl⟩ := pure_eq_ok.mp h
    obtain ⟨log₁, hmade, hbody⟩ := hwalk hbody
    obtain ⟨log₂, hmade', hrest⟩ := hwalk hrest
    have hne : log₁ ≠ [] := fun hnil => by cases hmade hnil
    exact ⟨_, by simp [hne], .loop hcode ⟨hstop, hne, hmade'⟩ hloop hm hbody hrest⟩

theorem walkCond_walks
    (hhere : scope.stop ≠ some source ∧ code.loop? scope source = none)
    (hemit : emitBody block source code before c = .ok () d)
    (hop : code.terminator.op = .opBranchConditional)
    (h : walkCond walk block source code visited scope d = .ok region c') :
    ∃ log, log ≠ [] ∧ Walks block source before scope c region c' log := by
  have hbind := h
  rw [walkCond, bind_eq_ok] at hbind
  obtain ⟨⟨condition, onTrue, onFalse⟩, d₁, hfork, -⟩ := hbind
  rw [walkCond_of_ok hfork] at h
  obtain ⟨hcondition, ⟨trueLabel, htrueLabel, honTrue⟩, falseLabel, hfalseLabel, honFalse⟩ := fork_eq_ok.mp hfork
  -- an arm that jumps is closed at once, and both arms come together where the other one leads
  cases hjTrue : scope.jump? onTrue with
  | some j =>
    rw [walkArms_of_trueJumps hjTrue, bind_eq_ok] at h
    obtain ⟨rest, d₂, hrest, h⟩ := h
    obtain ⟨rfl, rfl⟩ := pure_eq_ok.mp h
    obtain ⟨log, hstays, hrest⟩ := goOn_walks hwalk hrest
    exact ⟨_, cons_ne_nil _ _, .cond hcode hhere hemit hop hcondition htrueLabel honTrue hfalseLabel honFalse
      (.trueJumps hjTrue) hstays (.jump hjTrue) (.stop rfl) hrest⟩
  | none =>
    cases hjFalse : scope.jump? onFalse with
    | some j =>
      rw [walkArms_of_falseJumps hjTrue hjFalse, bind_eq_ok] at h
      obtain ⟨rest, d₂, hrest, h⟩ := h
      obtain ⟨rfl, rfl⟩ := pure_eq_ok.mp h
      obtain ⟨log, hstays, hrest⟩ := goOn_walks hwalk hrest
      exact ⟨_, cons_ne_nil _ _, .cond hcode hhere hemit hop hcondition htrueLabel honTrue hfalseLabel honFalse
        (.falseJumps hjTrue hjFalse) hstays (.stop rfl) (.jump hjFalse) hrest⟩
    | none =>
      by_cases hmerge : ∃ merge, code.merge = .selection merge
      · obtain ⟨merge, hmerge⟩ := hmerge
        rw [walkArms_of_merge hjTrue hjFalse hmerge, bind_eq_ok] at h
        obtain ⟨m, d₂, hm, h⟩ := h
        obtain ⟨hblock, rfl⟩ := lookup_eq_ok.mp hm
        rw [bind_eq_ok] at h
        obtain ⟨trueArm, d₃, htrueArm, h⟩ := h
        rw [bind_eq_ok] at h
        obtain ⟨falseArm, d₄, hfalseArm, h⟩ := h
        rw [bind_eq_ok] at h
        obtain ⟨rest, d₅, hrest, h⟩ := h
        obtain ⟨rfl, rfl⟩ := pure_eq_ok.mp h
        obtain ⟨log₁, hmade, htrueArm⟩ := hwalk htrueArm
        obtain ⟨log₂, hmade', hfalseArm⟩ := hwalk hfalseArm
        obtain ⟨log₃, hstays, hrest⟩ := goOn_walks hwalk hrest
        exact ⟨_, cons_ne_nil _ _, .cond hcode hhere hemit hop hcondition htrueLabel honTrue hfalseLabel honFalse
          (.merge hmerge hblock hjTrue hjFalse (fun h => (Option.some.inj (hmade h)).symm)
            fun h => (Option.some.inj (hmade' h)).symm) hstays htrueArm hfalseArm hrest⟩
      · rw [walkArms_of_no_merge hjTrue hjFalse fun merge h => hmerge ⟨merge, h⟩] at h
        exact (throw_eq_ok.mp h).elim

theorem walkTerminator_walks
    (hhere : scope.stop ≠ some source ∧ code.loop? scope source = none)
    (hemit : emitBody block source code before c = .ok () d)
    (h : walkTerminator walk block source code visited scope d = .ok region c') :
    ∃ log, log ≠ [] ∧ Walks block source before scope c region c' log := by
  generalize hm : walkTerminator walk block source code visited scope = m at h
  unfold walkTerminator at hm
  split at hm <;> subst hm
  case h_1 hop =>
    rw [bind_eq_ok] at h
    obtain ⟨label, c₁, hlabel, h⟩ := h
    rw [operand_eq_ok] at hlabel
    obtain ⟨hlabel, rfl⟩ := hlabel
    rw [bind_eq_ok] at h
    obtain ⟨target, c₂, htarget, h⟩ := h
    rw [lookup_eq_ok] at htarget
    obtain ⟨htarget, rfl⟩ := htarget
    obtain ⟨log, hstays, hrest⟩ := goOn_walks hwalk h
    exact ⟨_, cons_ne_nil _ _, .branch hcode hhere hemit hop hlabel htarget hstays hrest⟩
  case h_2 hop => exact walkCond_walks hwalk hcode hhere hemit hop h
  case h_3 hop =>
    rw [bind_eq_ok] at h
    obtain ⟨_, c₁, hinsert, h⟩ := h
    obtain ⟨-, rfl⟩ := insertAt_eq_ok.mp hinsert
    obtain ⟨rfl, rfl⟩ := pure_eq_ok.mp h
    exact ⟨_, cons_ne_nil _ _, .leave hcode hhere hemit (.inl ⟨hop, rfl⟩) rfl⟩
  case h_4 hop =>
    rw [bind_eq_ok] at h
    obtain ⟨_, c₁, hreturn, h⟩ := h
    obtain ⟨rfl, rfl⟩ := pure_eq_ok.mp h
    exact ⟨_, cons_ne_nil _ _, .returnValue hcode hhere hemit hop hreturn⟩
  case h_5 hop =>
    rw [bind_eq_ok] at h
    obtain ⟨_, c₁, hinsert, h⟩ := h
    obtain ⟨-, rfl⟩ := insertAt_eq_ok.mp hinsert
    obtain ⟨rfl, rfl⟩ := pure_eq_ok.mp h
    exact ⟨_, cons_ne_nil _ _, .leave hcode hhere hemit (.inr ⟨hop, rfl⟩) rfl⟩
  case h_6 => exact (throw_eq_ok.mp h).elim

end

theorem walkBlock_sound : (walkBlock walk).Sound := by
  intro block source before visited scope c region c' h
  unfold walkBlock at h
  split at h
  · obtain ⟨rfl, rfl⟩ := pure_eq_ok.mp h
    exact ⟨[], fun _ => ‹_›, .stop ‹_›⟩
  · rename_i hstop
    obtain ⟨d, d', hd, h⟩ := bind_eq_ok.mp h
    obtain ⟨hdc, hdc'⟩ := get_eq_ok.mp hd
    rw [hdc, hdc'] at h
    cases hcode : c.blocks[source]? with
    | none =>
      simp only [hcode] at h
      exact (throw_eq_ok.mp h).elim
    | some code =>
      simp only [hcode] at h
      split at h
      · exact (throw_eq_ok.mp h).elim
      · cases hloop : code.loop? scope source with
        | some targets =>
          simp only [hloop] at h
          obtain ⟨log, hne, hlog⟩ := walkLoop_walks hwalk hcode hstop hloop h
          exact ⟨log, fun hnil => (hne hnil).elim, hlog⟩
        | none =>
          simp only [hloop] at h
          obtain ⟨_, d, hemit, h⟩ := bind_eq_ok.mp h
          obtain ⟨log, hne, hlog⟩ := walkTerminator_walks hwalk hcode ⟨hstop, hloop⟩ hemit h
          exact ⟨log, fun hnil => (hne hnil).elim, hlog⟩

end

theorem walkFrom_sound (bound : Nat) : Walker.Sound (walkFrom bound) := by
  induction bound with
  | zero =>
    intro block source before visited scope c region c' h
    exact (throw_eq_ok.mp h).elim
  | succ bound ih => exact walkBlock_sound ih

theorem walks_of_walk {entry : Nat} (h : Structure.walk entry c = .ok region c') :
    ∃ log, log ≠ [] ∧ Walks 0 entry none {} c region c' log := by
  replace h := getBind_eq_ok.mp h
  obtain ⟨log, hmade, hlog⟩ := walkFrom_sound _ h
  grind

/-! ### What a walk keeps -/

/-- The label of the block of the stream that another continues. -/
def labelBefore (c : Context) (before : Option Nat) : Option Id :=
  (before.bind fun b => c.blocks[b]?).map (·.label)

/-- The state in which the instructions of a block of the stream are handled. -/
def placedAt (c : Context) (source : Nat) (block : BlockId) : Context :=
  { c with placed := (source, block) :: c.placed }

/-- The state after control was recorded to leave a block as a block of the stream. -/
def endedAt (c : Context) (source : Nat) (block : BlockId) : Context :=
  { c with ends := (block, source) :: c.ends }

theorem emitBody_eq_ok {u : Unit} : emitBody block source code before c = .ok u d ↔
      ∃ d', Body.instructions (labelBefore c before) code.body (.append block)
        (placedAt c source block) = .ok () d' ∧ d = endedAt d' source block := by
  unfold emitBody
  simp only [bind_eq_ok, modify_eq_ok, get_eq_ok, markEnd]
  constructor
  · rintro ⟨_, _, rfl, _, _, ⟨rfl, rfl⟩, _, d', hbody, rfl⟩
    exact ⟨d', hbody, rfl⟩
  · rintro ⟨d', hbody, rfl⟩
    exact ⟨(), _, rfl, _, _, ⟨rfl, rfl⟩, (), d', hbody, rfl⟩

theorem grows_of_emitBody (h : emitBody block source code before c = .ok () d) :
    ∃ d', Grows Stays (.append block) (placedAt c source block) d' ∧ d = endedAt d' source block := by
  obtain ⟨d', hbody, hd⟩ := emitBody_eq_ok.mp h
  obtain ⟨b', rfl, hb'⟩ := Body.emits_of_instructions (b := ⟨placedAt c source block, []⟩) hbody
  exact ⟨_, hb'.grows, hd⟩

theorem grows_of_registerOperand {index : Nat} {r : Register} {spot : Spot}
    (h : Emit.registerOperand i index spot c = .ok r d) : Grows Plain spot c d := by
  obtain ⟨b', rfl, hb', -⟩ := (Emit.makes_registerOperand (b := ⟨c, []⟩) plain_loadConst i index).ok r d h
  exact hb'.grows

theorem grows_of_returnValue (h : returnValue block i c = .ok () d) :
    ∃ d', Grows Plain (.append block) c d' ∧ d = d'.append block (.jump .return) := by
  rw [returnValue, bind_eq_ok] at h
  obtain ⟨c₁, c₂, hget, h⟩ := h
  obtain ⟨rfl, rfl⟩ := get_eq_ok.mp hget
  cases hvar : c₂.function.returnVar with
  | none =>
    simp only [hvar] at h
    exact (throw_eq_ok.mp h).elim
  | some v =>
    simp only [hvar] at h
    obtain ⟨t, d₁, htree, h⟩ := bind_eq_ok.mp h
    obtain ⟨_, d₂, hstore, h⟩ := bind_eq_ok.mp h
    change (Lower.insertAt (.append block) (.jump .return) >>= fun _ => pure ()) d₂ = _ at h
    obtain ⟨_, d₃, hjump, h⟩ := bind_eq_ok.mp h
    obtain ⟨-, rfl⟩ := pure_eq_ok.mp h
    obtain ⟨-, rfl⟩ := insertAt_eq_ok.mp hjump
    obtain ⟨b₁, rfl, hb₁, -⟩ := (Emit.makes_treeOperand (b := ⟨c₂, []⟩) plain_loadConst i 0).ok t d₁ htree
    have hroot : b₁.context.HasRoot v := hb₁.grows.hasRoot (.inr (.inr hvar))
    obtain ⟨b₂, rfl, hb₂, -⟩ := (Code.makes_storeTree { root := v } t hroot).ok () d₂ hstore
    exact ⟨_, hb₁.grows.trans hb₂.grows, rfl⟩

/-- What holds of the states before and after a walk that puts code into `block` first: of the blocks
that were there, only `block` has changed. -/
structure Builds (block : BlockId) (c c' : Context) : Prop extends Carries c c' where
  moduleFunctions : c'.module.functions = c.module.functions
  nextKey : c.nextKey ≤ c'.nextKey
  size : c.function.blocks.size ≤ c'.function.blocks.size
  instructions : ∃ is : List Instruction, c'.function.instructions = c.function.instructions ++ is.toArray
  inRange : c.function.InRange → c'.function.InRange
  code : ∀ b, b ≠ block → b < c.function.blocks.size → c'.function.code b = c.function.code b
  ends : ∃ new, c'.ends = new ++ c.ends ∧ ∀ p ∈ new, p.1 = block ∨
      c.function.blocks.size ≤ p.1 ∧ p.1 < c'.function.blocks.size

namespace Builds

variable {other : BlockId} {c'' : Context}

protected theorem refl (block : BlockId) (c : Context) : Builds block c c where
  __ := Carries.refl c
  moduleFunctions := rfl
  nextKey := Nat.le_refl _
  size := Nat.le_refl _
  instructions := ⟨[], by simp⟩
  inRange := id
  code := fun _ _ _ => rfl
  ends := ⟨[], rfl, by simp⟩

protected theorem trans (h : Builds block c c') (h' : Builds other c' c'')
    (hother : other = block ∨ c.function.blocks.size ≤ other ∧ other < c'.function.blocks.size) :
    Builds block c c'' where
  __ := h.toCarries.trans h'.toCarries
  moduleFunctions := h'.moduleFunctions.trans h.moduleFunctions
  nextKey := Nat.le_trans h.nextKey h'.nextKey
  size := Nat.le_trans h.size h'.size
  instructions := by
    obtain ⟨is, his⟩ := h.instructions
    obtain ⟨is', his'⟩ := h'.instructions
    exact ⟨is ++ is', by rw [his', his]; simp⟩
  inRange := h'.inRange ∘ h.inRange
  code := by
    intro b hb hlt
    have hb' : b ≠ other := by
      grind
    rw [h'.code b hb' (Nat.lt_of_lt_of_le hlt h.size), h.code b hb hlt]
  ends := by
    obtain ⟨new, hnew, hmem⟩ := h.ends
    obtain ⟨new', hnew', hmem'⟩ := h'.ends
    refine ⟨new' ++ new, by rw [hnew', hnew, append_assoc], fun p hp => ?_⟩
    have hsize := h.size
    have hsize' := h'.size
    grind

theorem of_grows {kinds : Instruction → Prop} (h : Grows kinds (.append block) c c') : Builds block c c' where
  __ := h.toCarries
  moduleFunctions := h.moduleFunctions
  nextKey := h.nextKey
  size := Nat.le_of_eq h.size_blocks.symm
  instructions := by
    obtain ⟨is, -, his⟩ := h.instructions
    exact ⟨is, his⟩
  inRange := h.inRange
  code := fun _ hb _ => h.code_of_ne hb
  ends := ⟨[], h.ends, by simp⟩

theorem append (block : BlockId) (c : Context) (i : Instruction) : Builds block c (c.append block i) where
  __ := Builds.refl block c
  size := Nat.le_of_eq Function.insert_size.symm
  instructions := ⟨[i], by simp [Context.append, Context.withFunction]⟩
  inRange := fun h => h.insert
  code := fun _ hb _ => Function.code_insert_of_ne hb
  ends := ⟨[], rfl, by simp⟩

theorem openLoop (block : BlockId) (c : Context) (e : Event) : Builds block c (c.reported e).openLoop where
  __ := Builds.refl block c
  size := by
    rw [Context.size_openLoop]
    exact Nat.le_add_right ..
  inRange := fun h => h.addBlock.addBlock
  code := fun b _ _ => Context.code_openLoop _ b
  ends := ⟨[], rfl, by simp⟩

theorem openConditional (block : BlockId) (c : Context) (source : Nat) :
    Builds block c (c.openConditional source) where
  __ := Builds.refl block c
  size := by
    grind
  inRange := fun h => h.addBlock.addBlock.addBlock
  code := fun b _ _ => Context.code_openConditional c source b
  ends := by
    refine ⟨[(c.function.blocks.size + 1, source), (c.function.blocks.size, source)], rfl, ?_⟩
    grind

theorem emitBody (h : emitBody block source code before c = .ok () d) : Builds block c d := by
  obtain ⟨d', hgrows, rfl⟩ := grows_of_emitBody h
  have hbuilds := Builds.of_grows hgrows
  exact { hbuilds with
    ends := ⟨[(block, source)], by rw [endedAt, hgrows.ends]; rfl, by simp⟩ }

theorem returnValue (h : returnValue block i c = .ok () d) : Builds block c d := by
  obtain ⟨d', hgrows, rfl⟩ := grows_of_returnValue h
  exact (Builds.of_grows hgrows).trans (.append block d' _) (.inl rfl)

end Builds

theorem size_of_emitBody (h : emitBody block source code before c = .ok () d) :
    d.function.blocks.size = c.function.blocks.size := by
  obtain ⟨d', hgrows, rfl⟩ := grows_of_emitBody h
  exact hgrows.size_blocks

theorem sizes_of_loop {b₁ b₂ : BlockId} {e : Event} (hbody : Builds b₁ (c.reported e).openLoop d)
    (hrest : Builds b₂ d c') : c.function.blocks.size + 2 ≤ d.function.blocks.size ∧
      d.function.blocks.size ≤ c'.function.blocks.size :=
  ⟨Context.size_openLoop_reported c e ▸ hbody.size, hrest.size⟩

theorem sizes_of_cond {b₁ b₂ b₃ : BlockId} {i : RawInstruction} {condition : Register}
    {d₁ d₂ d₃ : Context} (hemit : emitBody block source code before c = .ok () d)
    (hcondition : Emit.registerOperand i 0 (.append block) d = .ok condition d₁)
    (htrue : Builds b₁ (d₁.openConditional source) d₂) (hfalse : Builds b₂ d₂ d₃)
    (hrest : Builds b₃ d₃ c') : d₁.function.blocks.size = c.function.blocks.size ∧
      d₁.function.blocks.size + 3 ≤ d₂.function.blocks.size ∧
      d₂.function.blocks.size ≤ d₃.function.blocks.size ∧
      d₃.function.blocks.size ≤ c'.function.blocks.size :=
  ⟨(grows_of_registerOperand hcondition).size_blocks.trans (size_of_emitBody hemit),
    Context.size_openConditional d₁ source ▸ htrue.size, hfalse.size, hrest.size⟩

theorem Walks.builds {log : List Emission} (h : Walks block source before scope c region c' log) :
    Builds block c c' := by
  induction h with
  | stop => exact .refl _ _
  | jump => exact .append ..
  | loop _ _ _ _ _ _ ihbody ihrest =>
    have hsizes := sizes_of_loop ihbody ihrest
    refine ((Builds.openLoop _ _ _).trans ihbody (.inr ?_)).trans ihrest (.inr ?_)
    · rw [Context.size_openLoop_reported]
      lia
    · lia
  | branch _ _ hemit _ _ _ _ _ ih => exact (Builds.emitBody hemit).trans ih (.inl rfl)
  | cond _ _ hemit _ hcondition _ _ _ _ _ _ _ _ _ ihtrue ihfalse ihrest =>
    have hsizes := sizes_of_cond hemit hcondition ihtrue ihfalse ihrest
    have h₁ := (Builds.emitBody hemit).trans (Builds.of_grows (grows_of_registerOperand hcondition)) (.inl rfl)
    refine (((h₁.trans (.openConditional _ _ _) (.inl rfl)).trans ihtrue (.inr ?_)).trans ihfalse
      (.inr ?_)).trans ihrest (.inr ?_)
    · rw [Context.size_openConditional]
      lia
    · lia
    · lia
  | leave _ _ hemit _ hc' => exact hc' ▸ (Builds.emitBody hemit).trans (.append ..) (.inl rfl)
  | returnValue _ _ hemit _ hreturn =>
    exact (Builds.emitBody hemit).trans (.returnValue hreturn) (.inl rfl)

/-! ### The records of a walk -/

section Records

variable {log : List Emission}

section

variable (h : Walks block source before scope c region c' log)
include h

theorem Walks.carries : Carries c c' := h.builds.toCarries

theorem Walks.head_eq : region.head = block := by
  induction h with
  | branch _ _ _ _ _ _ _ _ ih => exact ih
  | _ => rfl

/-- Code is made in the block where the walk starts and in blocks that are new, but there by then. -/
theorem Walks.block_of_mem {e : Emission}
    (he : e ∈ log) : c.function.blocks.size ≤ e.start.function.blocks.size ∧
      e.start.function.blocks.size ≤ c'.function.blocks.size ∧
      (e.block = block ∨ c.function.blocks.size ≤ e.block ∧ e.block < e.start.function.blocks.size) := by
  induction h with
  | stop | jump => cases he
  | loop _ _ _ _ hbody hrest ihbody ihrest =>
    have hsizes := sizes_of_loop hbody.builds hrest.builds
    grind
  | branch _ _ hemit _ _ _ _ hrest ih =>
    have hsize := hrest.builds.size
    rw [size_of_emitBody hemit] at hsize ih
    grind
  | cond _ _ hemit _ hcondition _ _ _ _ _ _ htrueArm hfalseArm hrest ihtrue ihfalse ihrest =>
    have hsizes := sizes_of_cond hemit hcondition htrueArm.builds hfalseArm.builds hrest.builds
    grind
  | leave hcode hhere hemit hop hc' =>
    obtain rfl := mem_singleton.mp he
    exact ⟨Nat.le_refl _, (Walks.leave hcode hhere hemit hop hc').builds.size, .inl rfl⟩
  | returnValue hcode hhere hemit hop hreturn =>
    obtain rfl := mem_singleton.mp he
    exact ⟨Nat.le_refl _, (Walks.returnValue hcode hhere hemit hop hreturn).builds.size, .inl rfl⟩

theorem Walks.block_lt
    (hblock : block < c.function.blocks.size) {e : Emission} (he : e ∈ log) :
    e.block < e.start.function.blocks.size := by
  have := h.block_of_mem he
  lia

end

theorem placed_of_emitBody {code : SourceBlock} (h : emitBody block source code before c = .ok () d) :
    d.placed = (source, block) :: c.placed := by
  obtain ⟨d', hgrows, rfl⟩ := grows_of_emitBody h
  exact hgrows.placed

theorem ends_of_emitBody {code : SourceBlock}
    (h : emitBody block source code before c = .ok () d) : d.ends = (block, source) :: c.ends := by
  obtain ⟨d', hgrows, rfl⟩ := grows_of_emitBody h
  rw [endedAt, hgrows.ends]
  rfl

theorem Walks.placed (h : Walks block source before scope c region c' log) :
    c'.placed = (log.map Emission.entry).reverse ++ c.placed := by
  induction h with
  | stop => rfl
  | jump => rfl
  | loop _ _ _ _ _ _ ihbody ihrest =>
    rw [ihrest, ihbody]
    simp only [map_append, reverse_append, append_assoc]
    rfl
  | branch _ _ hemit _ _ _ _ _ ih =>
    rw [ih, placed_of_emitBody hemit]
    simp [Emission.entry]
  | cond _ _ hemit _ hcondition _ _ _ _ _ _ _ _ _ ihtrue ihfalse ihrest =>
    have hplaced := (grows_of_registerOperand hcondition).placed.trans (placed_of_emitBody hemit)
    rw [ihrest, ihfalse, ihtrue]
    simp [Context.openConditional, hplaced, Emission.entry]
  | @leave _ _ _ _ _ _ d _ _ _ _ hemit _ hc' =>
    rw [hc']
    change d.placed = _
    exact placed_of_emitBody hemit
  | returnValue _ _ hemit _ hreturn =>
    obtain ⟨d', hgrows, rfl⟩ := grows_of_returnValue hreturn
    exact hgrows.placed.trans (placed_of_emitBody hemit)

theorem Builds.exit? {b : BlockId} (h : Builds block c c') (hr : c.function.InRange) (hb : b ≠ block)
    (hlt : b < c.function.blocks.size) : c'.function.exit? b = c.function.exit? b := by
  obtain ⟨is, his⟩ := h.instructions
  rw [Function.exit?, Function.exit?, h.code b hb hlt]
  refine Function.findSome?_congr fun r hr' => ?_
  rw [Function.exitAt, Function.exitAt, his, Array.getElem?_append_left (hr b r hr')]

theorem Builds.lookup_ends {b : BlockId} (h : Builds block c c') (hb : b ≠ block)
    (hlt : b < c.function.blocks.size) : c'.ends.lookup b = c.ends.lookup b := by
  obtain ⟨new, hnew, hmem⟩ := h.ends
  grind

theorem lookup_ends_openConditional {b : BlockId} (hb : b < c.function.blocks.size) :
    (c.openConditional source).ends.lookup b = c.ends.lookup b :=
  (Builds.openConditional c.function.blocks.size c source).lookup_ends (Nat.ne_of_lt hb) hb

theorem Walks.sourcesIn_eq_nil (h : Walks block source before scope c region c' log) {b : BlockId}
    (hb : b ≠ block) (hold : b < c.function.blocks.size ∨ c'.function.blocks.size ≤ b) :
    sourcesIn (log.map Emission.entry) b = [] := by
  refine ShaderIR.Spirv.sourcesIn_eq_nil ?_
  simp only [mem_map, forall_exists_index, and_imp, forall_apply_eq_imp_iff₂]
  intro e he
  have := h.block_of_mem he
  change e.block ≠ b
  lia

theorem Walks.lookup_ends (h : Walks block source before scope c region c' log)
    (hblock : block < c.function.blocks.size) :
    c'.ends.lookup block = (sourcesIn (log.map Emission.entry) block).getLast?.or (c.ends.lookup block) := by
  induction h with
  | stop => rfl
  | jump => rfl
  | loop _ _ _ _ hbody hrest =>
    have hsizes := sizes_of_loop hbody.builds hrest.builds
    rw [hrest.builds.lookup_ends (by lia) (by lia), hbody.builds.lookup_ends (by lia) (by grind),
      map_append, sourcesIn_append, hbody.sourcesIn_eq_nil (by lia) (by grind),
      hrest.sourcesIn_eq_nil (by lia) (by lia)]
    rfl
  | branch _ _ hemit _ _ _ _ _ ih =>
    rw [ih (Nat.lt_of_lt_of_le hblock (Builds.emitBody hemit).size), ends_of_emitBody hemit,
      map_cons, Emission.entry, sourcesIn_cons_self, getLast?_cons, lookup_cons_self]
    cases (sourcesIn _ _).getLast? <;> rfl
  | cond _ _ hemit _ hcondition _ _ _ _ _ _ htrueArm hfalseArm hrest =>
    have hsizes := sizes_of_cond hemit hcondition htrueArm.builds hfalseArm.builds hrest.builds
    have hends := (grows_of_registerOperand hcondition).ends.trans (ends_of_emitBody hemit)
    rw [hrest.builds.lookup_ends (by lia) (by lia), hfalseArm.builds.lookup_ends (by lia) (by lia),
      htrueArm.builds.lookup_ends (by lia) (by grind), lookup_ends_openConditional (by lia), hends,
      lookup_cons_self, map_cons, Emission.entry, sourcesIn_cons_self, map_append,
      map_append, sourcesIn_append, sourcesIn_append, htrueArm.sourcesIn_eq_nil (by lia) (by grind),
      hfalseArm.sourcesIn_eq_nil (by lia) (by lia), hrest.sourcesIn_eq_nil (by lia) (by lia)]
    rfl
  | @leave block _ _ _ _ _ d _ _ _ _ hemit _ hc' =>
    rw [hc']
    change d.ends.lookup block = _
    rw [ends_of_emitBody hemit]
    simp [Emission.entry]
  | returnValue _ _ hemit _ hreturn =>
    obtain ⟨d', hgrows, rfl⟩ := grows_of_returnValue hreturn
    change d'.ends.lookup _ = _
    rw [hgrows.ends, ends_of_emitBody hemit]
    simp [Emission.entry]

end Records

end Structure

end ShaderIR.Spirv
