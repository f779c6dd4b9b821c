import ShaderIR.Proofs.Calls
import ShaderIR.Proofs.Enclosure

/-!
# Where a walk can be

A walk is at a block of the stream in a scope. Where it goes from such a position is known before any
code is made: into the body of a loop or the arms of a selection, and on to another block of the same
region.
-/

namespace ShaderIR.Spirv

open List

/-- A block of the stream in a scope. -/
structure Position where
  source : Nat
  scope : Scope := {}
deriving DecidableEq

/-- How a walk goes on from a position. -/
inductive Turn where
  /-- Into a loop, and on from behind it. -/
  | loop (merge : Nat)
  /-- On to one block. -/
  | on (target : Nat)
  /-- Into both arms of a selection, and on from where they come together. -/
  | fork (onTrue onFalse merge : Nat)

namespace Position

/-- The header of a loop with merge block `m`, inside of the loop. -/
def inLoop (source m : Nat) : Position := ⟨source, { breakTo := some m, continueTo := some source }⟩

/-- A block in an arm of a selection with merge block `m`. -/
def inArm (p : Position) (m source : Nat) : Position := ⟨source, { p.scope with stop := some m }⟩

/-- A block in the same region. -/
def beside (p : Position) (source : Nat) : Position := ⟨source, p.scope⟩

end Position

namespace Turn

/-- The positions in further regions that a turn leads to. -/
def into (p : Position) : Turn → List Position
  | .loop m => [.inLoop p.source m]
  | .on _ => []
  | .fork onTrue onFalse m => [p.inArm m onTrue, p.inArm m onFalse]

/-- The positions in the same region that a turn leads to. -/
def onTo (p : Position) : Turn → List Position
  | .loop m => [p.beside m]
  | .on t => if p.scope.Stays t then [p.beside t] else []
  | .fork _ _ m => if p.scope.Stays m then [p.beside m] else []

end Turn

/-- Whether a block heads a selection. -/
def SourceBlock.isSelection (b : SourceBlock) : Bool :=
  match b.merge with
  | .selection _ => true
  | _ => false

namespace Context

/-- How a walk goes on from a position at a block with certain code, unless it ends there. -/
def turnAt? (c : Context) (p : Position) (code : SourceBlock) : Option Turn :=
  if (code.loop? p.scope p.source).isSome then (c.mergeTarget? code).map .loop
  else
    match code.terminator.op, c.branchTargets code with
    | .opBranch, [target] => some (.on target)
    | .opBranchConditional, [onTrue, onFalse] =>
      if (p.scope.jump? onTrue).isSome then some (.on onFalse)
      else if (p.scope.jump? onFalse).isSome then some (.on onTrue)
      else if code.isSelection then (c.mergeTarget? code).map (.fork onTrue onFalse)
      else none
    | _, _ => none

/-- How a walk goes on from a position, unless it ends there. -/
def turn? (c : Context) (p : Position) : Option Turn :=
  if p.scope.stop = some p.source then none else c.blocks[p.source]?.bind (c.turnAt? p)

/-- The positions in further regions that a walk goes into from a position. -/
def into (c : Context) (p : Position) : List Position := (c.turn? p).toList.flatMap (Turn.into p)

/-- The positions in the same region that a walk goes on to from a position. -/
def onTo (c : Context) (p : Position) : List Position := (c.turn? p).toList.flatMap (Turn.onTo p)

variable {c : Context} {p : Position} {t : Turn}

theorem into_of_turn? (h : c.turn? p = some t) : c.into p = t.into p := by simp [into, h]

theorem onTo_of_turn? (h : c.turn? p = some t) : c.onTo p = t.onTo p := by simp [onTo, h]

/-- The turns at a position, by the code of its block. -/
inductive Turns (c : Context) (p : Position) (code : SourceBlock) : Turn → Prop
  | loop {m} (hloop : (code.loop? p.scope p.source).isSome) (hm : c.mergeTarget? code = some m) :
      Turns c p code (.loop m)
  | branch {target} (hloop : code.loop? p.scope p.source = none)
      (htargets : c.branchTargets code = [target]) : Turns c p code (.on target)
  | bypassTrue {onTrue onFalse} (hloop : code.loop? p.scope p.source = none)
      (htargets : c.branchTargets code = [onTrue, onFalse]) (htrue : (p.scope.jump? onTrue).isSome) :
      Turns c p code (.on onFalse)
  | bypassFalse {onTrue onFalse} (hloop : code.loop? p.scope p.source = none)
      (htargets : c.branchTargets code = [onTrue, onFalse]) (hfalse : (p.scope.jump? onFalse).isSome) :
      Turns c p code (.on onTrue)
  | fork {onTrue onFalse m} (hloop : code.loop? p.scope p.source = none)
      (htargets : c.branchTargets code = [onTrue, onFalse]) (hselection : code.isSelection)
      (hm : c.mergeTarget? code = some m) : Turns c p code (.fork onTrue onFalse m)

theorem turns_of_turn? (h : c.turn? p = some t) : ∃ code, c.blocks[p.source]? = some code ∧ c.Turns p code t := by
  unfold turn? at h
  split at h
  · cases h
  obtain ⟨code, hcode, h⟩ := Option.bind_eq_some_iff.mp h
  refine ⟨code, hcode, ?_⟩
  unfold turnAt? at h
  split at h
  · obtain ⟨m, hm, rfl⟩ := Option.map_eq_some_iff.mp h
    exact .loop ‹_› hm
  have hloop : code.loop? p.scope p.source = none := Option.not_isSome_iff_eq_none.mp ‹_›
  split at h
  · cases h
    exact .branch hloop ‹_›
  · split at h
    · cases h
      exact .bypassTrue hloop ‹_› ‹_›
    split at h
    · cases h
      exact .bypassFalse hloop ‹_› ‹_›
    split at h
    · obtain ⟨m, hm, rfl⟩ := Option.map_eq_some_iff.mp h
      exact .fork hloop ‹_› ‹_› hm
    · cases h
  · cases h

end Context

theorem Carries.turn?_eq {c c' : Context} (h : Carries c c') (p : Position) : c'.turn? p = c.turn? p := by
  have hblock (id : Id) : (c'.ids.block id).toOption = (c.ids.block id).toOption := by
    ext n
    rw [toOption_eq_some, toOption_eq_some, h.block_eq_ok]
  have htargets (code : SourceBlock) : c'.branchTargets code = c.branchTargets code := by
    simp only [Context.branchTargets, hblock]
  have hmerge (code : SourceBlock) : c'.mergeTarget? code = c.mergeTarget? code := by
    simp only [Context.mergeTarget?, hblock]
  have hturn : c'.turnAt? p = c.turnAt? p := by
    funext code
    simp only [Context.turnAt?, htargets, hmerge]
  simp only [Context.turn?, h.blocks, hturn]

namespace Structure

namespace Call

/-- Where the walk starts that is asked for. -/
def position (k : Call) : Position := ⟨k.source, k.scope⟩

variable {k k' : Call} {code : SourceBlock} {d d₁ : Context} {onTrue onFalse m : Nat} {log : List Emission}

theorem Enters.turn?_eq (h : k.Enters code) : k.state.turn? k.position = k.state.turnAt? k.position code := by
  have hstop : k.position.scope.stop ≠ some k.position.source := h.stop
  have hfound : k.state.blocks[k.position.source]? = some code := h.found
  rw [Context.turn?, if_neg hstop, hfound, Option.bind_some]

theorem Opens.turn? {merge continueTarget : Id} (h : k.Opens code merge continueTarget m) :
    k.state.turn? k.position = some (.loop m) := by
  have hm : k.state.mergeTarget? code = some m :=
    Context.mergeTarget?_eq_some.mpr ⟨merge, SourceBlock.mergeLabel?_of_loop? h.loop, h.merge⟩
  have hloop : (code.loop? k.position.scope k.position.source).isSome := by
    rw [position, h.loop]
    rfl
  rw [h.turn?_eq, Context.turnAt?, if_pos hloop, hm]
  rfl

theorem Makes.turn?_of_branch (h : k.Makes code d) (hop : code.terminator.op = .opBranch) {label : Id}
    {target : Nat} (hlabel : code.terminator.operand 0 = .ok label)
    (htarget : d.ids.block label = .ok target) : k.state.turn? k.position = some (.on target) := by
  have hloop : ¬(code.loop? k.position.scope k.position.source).isSome := by simp [position, h.loop]
  have htargets : k.state.branchTargets code = [target] := by
    simp [Context.branchTargets, SourceBlock.branchLabels, hop, hlabel, h.carries.block_eq_ok.mp htarget,
      Except.toOption]
  rw [h.turn?_eq, Context.turnAt?, if_neg hloop, hop, htargets]

section

variable (h : k.Forks code d d₁ onTrue onFalse)
include h

theorem Forks.branchTargets : k.state.branchTargets code = [onTrue, onFalse] := by
  obtain ⟨condition, hfork⟩ := h.fork
  obtain ⟨-, ⟨trueLabel, htrueLabel, honTrue⟩, falseLabel, hfalseLabel, honFalse⟩ := fork_eq_ok.mp hfork
  have htrue := h.carries.block_eq_ok.mp honTrue
  have hfalse := h.carries.block_eq_ok.mp honFalse
  simp [Context.branchTargets, SourceBlock.branchLabels, h.op, htrueLabel, hfalseLabel, htrue, hfalse,
    Except.toOption]

theorem Forks.turn?_eq : k.state.turn? k.position =
    if (k.scope.jump? onTrue).isSome then some (.on onFalse)
    else if (k.scope.jump? onFalse).isSome then some (.on onTrue)
    else if code.isSelection then (k.state.mergeTarget? code).map (.fork onTrue onFalse)
    else none := by
  have hloop : ¬(code.loop? k.position.scope k.position.source).isSome := by simp [position, h.loop]
  rw [h.toEnters.turn?_eq, Context.turnAt?, if_neg hloop, h.op, h.branchTargets]
  rfl

theorem Forks.turn?_of_bypasses {first arm : BlockId} {j : Jump}
    {other : Nat} (hbypasses : Bypasses k.scope onTrue onFalse first arm j other) :
    k.state.turn? k.position = some (.on other) := by
  rw [h.turn?_eq]
  cases hbypasses with
  | onTrue htrue => simp [htrue]
  | onFalse htrue hfalse => simp [htrue, hfalse]

end

theorem Selects.turn? (h : k.Selects code d d₁ onTrue onFalse m) :
    k.state.turn? k.position = some (.fork onTrue onFalse m) := by
  obtain ⟨merge, hmerge, hm⟩ := h.merge
  have htarget : k.state.mergeTarget? code = some m := Context.mergeTarget?_eq_some.mpr
      ⟨merge, by simp [SourceBlock.mergeLabel?, hmerge], h.carries.block_eq_ok.mp hm⟩
  simp [h.turn?_eq, h.jumpTrue, h.jumpFalse, SourceBlock.isSelection, hmerge, htarget]

theorem Asks.moves (h : k.Asks k' log) : k'.position ∈ k.state.into k.position ∧ k'.visited = [] ∨
      k'.position ∈ k.state.onTo k.position ∧ k'.visited = k.source :: k.visited := by
  cases h with
  | body hopens =>
    rw [Context.into_of_turn? hopens.turn?]
    exact .inl ⟨mem_singleton_self _, rfl⟩
  | behind hopens =>
    rw [Context.onTo_of_turn? hopens.turn?]
    exact .inr ⟨mem_singleton_self _, rfl⟩
  | branch hmakes hop hlabel htarget hstays =>
    rw [Context.onTo_of_turn? (hmakes.turn?_of_branch hop hlabel htarget), Turn.onTo, position, if_pos hstays]
    exact .inr ⟨mem_singleton_self _, rfl⟩
  | bypass hforks hbypasses hstays =>
    rw [Context.onTo_of_turn? (hforks.turn?_of_bypasses hbypasses), Turn.onTo, position, if_pos hstays]
    exact .inr ⟨mem_singleton_self _, rfl⟩
  | trueArm hselects =>
    rw [Context.into_of_turn? hselects.turn?]
    exact .inl ⟨mem_cons_self .., rfl⟩
  | falseArm hselects =>
    rw [Context.into_of_turn? hselects.turn?]
    exact .inl ⟨mem_cons_of_mem _ (mem_singleton_self _), rfl⟩
  | join hselects _ _ hstays =>
    rw [Context.onTo_of_turn? hselects.turn?, Turn.onTo, position, if_pos hstays]
    exact .inr ⟨mem_singleton_self _, rfl⟩

end Call

/-! ### The blocks a walk treads -/

/-- The blocks whose code a walk from a position makes, in order. -/
inductive Treads (c : Context) : Position → List Nat → Prop
  | stop {p} (hstop : p.scope.stop = some p.source) : Treads c p []
  | loop {p m l₁ l₂} (hturn : c.turn? p = some (.loop m)) (hbody : Treads c (.inLoop p.source m) l₁)
      (hrest : Treads c (p.beside m) l₂) : Treads c p (l₁ ++ l₂)
  | on {p t l} (hturn : c.turn? p = some (.on t)) (hrest : p.scope.Stays t → Treads c (p.beside t) l)
      (hleft : ¬p.scope.Stays t → l = []) : Treads c p (p.source :: l)
  | fork {p onTrue onFalse m l₁ l₂ l₃} (hturn : c.turn? p = some (.fork onTrue onFalse m))
      (htrue : Treads c (p.inArm m onTrue) l₁) (hfalse : Treads c (p.inArm m onFalse) l₂)
      (hrest : p.scope.Stays m → Treads c (p.beside m) l₃) (hleft : ¬p.scope.Stays m → l₃ = []) :
      Treads c p (p.source :: (l₁ ++ l₂ ++ l₃))
  | leave {p} (hstop : p.scope.stop ≠ some p.source)
      (htargets : ∀ code ∈ c.blocks[p.source]?, c.branchTargets code = []) : Treads c p [p.source]

/-- A walk treads the blocks whose code it makes. -/
theorem Walks.treads {block : BlockId} {source : Nat} {before : Option Nat} {scope : Scope}
    {c c' c₀ : Context} {region : Region} {log : List Emission}
    (h : Walks block source before scope c region c' log) (hmade : log = [] → scope.stop = some source)
    (hc : Carries c₀ c) : Treads c₀ ⟨source, scope⟩ (log.map (·.source)) := by
  induction h with
  | stop hstop => exact .stop hstop
  | jump => exact .stop (hmade rfl)
  | @loop block source before scope c code merge continueTarget m body _ _ _ _ _ hcode hhere hloop
      hmerge hbody _ ihbody ihrest =>
    obtain ⟨hstop, hne, hmade'⟩ := hhere
    have hopens : Call.Opens ⟨block, source, before, [], scope, c⟩ code merge continueTarget m :=
      ⟨⟨hcode, hstop, not_mem_nil⟩, hloop, hmerge⟩
    have hbodyState := hc.trans (Call.Asks.body hopens).carries
    rw [map_append]
    exact .loop ((hc.turn?_eq _).symm.trans hopens.turn?) (ihbody (fun hnil => (hne hnil).elim) hbodyState)
      (ihrest hmade' (hbodyState.trans hbody.carries))
  | @branch block source before scope c code d _ _ _ _ _ hcode hhere hemit hop hlabel htarget
      hstays _ ih =>
    have hmakes : Call.Makes ⟨block, source, before, [], scope, c⟩ code d :=
      ⟨⟨hcode, hhere.1, not_mem_nil⟩, hhere.2, hemit⟩
    refine .on ((hc.turn?_eq _).symm.trans (hmakes.turn?_of_branch hop hlabel htarget))
      (fun hs => ih (fun hnil => (hstays.mp hnil hs).elim) (hc.trans hmakes.carries)) fun hs => ?_
    rw [hstays.mpr hs]
    rfl
  | @cond block source before scope c code d d₁ condition _ onTrue _ onFalse m _ _ _ _ _ _ _ _
      log₃ hcode hhere hemit hop hcondition htrueLabel honTrue hfalseLabel honFalse hjoins hstays
      htrueArm hfalseArm _ ihtrue ihfalse ihrest =>
    have hforks : Call.Forks ⟨block, source, before, [], scope, c⟩ code d d₁ onTrue onFalse :=
      ⟨⟨⟨hcode, hhere.1, not_mem_nil⟩, hhere.2, hemit⟩, hop, condition,
        fork_eq_ok.mpr ⟨hcondition, ⟨_, htrueLabel, honTrue⟩, _, hfalseLabel, honFalse⟩⟩
    have hopen := hc.trans hforks.carries
    have htreads := fun hs =>
      ihrest (fun hnil => (hstays.mp hnil hs).elim) ((hopen.trans htrueArm.carries).trans hfalseArm.carries)
    have hleft : ¬scope.Stays m → log₃.map (·.source) = [] := fun hs => by rw [hstays.mpr hs, map_nil]
    cases hjoins with
    | merge hmerge hm hjumpTrue hjumpFalse htrueLog hfalseLog =>
      have hselects : Call.Selects ⟨block, source, before, [], scope, c⟩ code d d₁ onTrue onFalse m :=
        ⟨hforks, hjumpTrue, hjumpFalse, _, hmerge, hm⟩
      rw [map_cons, map_append, map_append]
      exact .fork ((hc.turn?_eq _).symm.trans hselects.turn?) (ihtrue (fun hnil => by rw [htrueLog hnil]) hopen)
        (ihfalse (fun hnil => by rw [hfalseLog hnil]) (hopen.trans htrueArm.carries)) htreads hleft
    | trueJumps htrue =>
      have hbypasses : Call.Bypasses scope onTrue onFalse 0 0 _ onFalse := .onTrue htrue
      exact .on ((hc.turn?_eq _).symm.trans (hforks.turn?_of_bypasses hbypasses)) htreads hleft
    | falseJumps htrue hfalse =>
      have hbypasses : Call.Bypasses scope onTrue onFalse 0 1 _ onTrue := .onFalse htrue hfalse
      exact .on ((hc.turn?_eq _).symm.trans (hforks.turn?_of_bypasses hbypasses)) htreads hleft
  | leave hcode hhere _ hop =>
    refine .leave hhere.1 fun code' hcode' => ?_
    rw [← hc.blocks, hcode] at hcode'
    cases hcode'
    rcases hop with ⟨hop, -⟩ | ⟨hop, -⟩ <;> simp [Context.branchTargets, SourceBlock.branchLabels, hop]
  | returnValue hcode hhere _ hop =>
    refine .leave hhere.1 fun code' hcode' => ?_
    rw [← hc.blocks, hcode] at hcode'
    cases hcode'
    simp [Context.branchTargets, SourceBlock.branchLabels, hop]

end Structure

end ShaderIR.Spirv
