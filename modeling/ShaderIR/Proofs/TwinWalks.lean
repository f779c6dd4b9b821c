import ShaderIR.Proofs.TwinCode
import ShaderIR.Spirv.PhiSources
import ShaderIR.Spirv.Structure

/-!
# Walks of two readings

Over blocks that belong together, the walks of two readings make the same regions, and the phis of
both get the same sources.
-/

namespace ShaderIR.Spirv

open List Lower

variable {α β : Type} {L : Latitude} {p q : Pairing}

/-! ### Code of blocks -/

namespace RawInstruction.Same

variable {i i' : RawInstruction} (h : i.Same i')
include h

theorem op_eq : i'.op = i.op := by
  have hop := congrArg RawInstruction.op h
  exact hop

theorem isMerge_eq : i'.isMerge = i.isMerge := by
  simp only [RawInstruction.isMerge, h.op_eq]

theorem isTerminator_eq : i'.isTerminator = i.isTerminator := by
  simp only [RawInstruction.isTerminator, h.op_eq]

theorem merge_eq : i'.merge = i.merge := by
  rw [h]
  rfl

end RawInstruction.Same

variable {i : RawInstruction} {code' code : SourceBlock}

theorem RawInstruction.isMerge_eq_false_of_isLine (h : i.isLine = true) : i.isMerge = false := by
  unfold isLine at h
  unfold isMerge
  split at h <;> simp_all

theorem RawInstruction.isMerge_eq_false_of_isName (h : i.isName = true) : i.isMerge = false := by
  unfold isName at h
  unfold isMerge
  split at h <;> simp_all

namespace CodeAlike

variable {is is' js js' : List RawInstruction}

section

variable (h : CodeAlike L is is')
include h

protected theorem append (h' : CodeAlike L js js') :
    CodeAlike L (is ++ js) (is' ++ js') := by
  induction h with
  | nil => exact h'
  | both hi _ ih => exact .both hi ih
  | line hi _ ih => exact .line hi ih
  | name hs hi _ ih => exact .name hs hi ih

protected theorem reverse : CodeAlike L is.reverse is'.reverse := by
  induction h with
  | nil => exact .nil
  | both hi _ ih =>
    rw [reverse_cons, reverse_cons]
    exact ih.append (.both hi .nil)
  | @line _ is _ hi _ ih =>
    rw [reverse_cons, ← append_nil is.reverse]
    exact ih.append (.line hi .nil)
  | @name _ _ is' hs hi _ ih =>
    rw [reverse_cons, ← append_nil is'.reverse]
    exact ih.append (.name hs hi .nil)

theorem phis : List.Forall₂ RawInstruction.Same (is.filter (·.op = .opPhi)) (is'.filter (·.op = .opPhi)) := by
  induction h with
  | nil => exact .nil
  | both hi _ ih =>
    rw [filter_cons, filter_cons, hi.op_eq]
    split
    · exact .cons hi ih
    · exact ih
  | @line i _ _ hi =>
    have hop : i.op ≠ .opPhi := fun hop => by simp [RawInstruction.isLine, hop] at hi
    rwa [filter_cons_of_neg (by simpa using hop)]
  | @name i _ _ _ hi =>
    have hop : i.op ≠ .opPhi := fun hop => by simp [RawInstruction.isName, hop] at hi
    rwa [filter_cons_of_neg (by simpa using hop)]

end

theorem splitAtMerge_cons (hi : i.isMerge = false) : Spirv.splitAtMerge (i :: is) =
      (Spirv.splitAtMerge is).map fun (before, merge, after) => (i :: before, merge, after) := by
  rw [Spirv.splitAtMerge, hi]
  grind

theorem splitAtMerge (h : CodeAlike L is is') : Option.Rel (fun x x' => CodeAlike L x.1 x'.1 ∧ x.2.1.Same x'.2.1)
      (splitAtMerge is) (splitAtMerge is') := by
  induction h with
  | nil => exact .none
  | @both _ _ is is' hi _ ih =>
    rw [Spirv.splitAtMerge, Spirv.splitAtMerge, hi.isMerge_eq]
    generalize Spirv.splitAtMerge is = x, Spirv.splitAtMerge is' = x' at ih ⊢
    cases ih with
    | some hx => exact .some ⟨.both hi hx.1, hx.2⟩
    | none =>
      dsimp only
      split
      · exact .some ⟨.nil, hi⟩
      · exact .none
  | @line i is is' hi _ ih =>
    rw [splitAtMerge_cons (RawInstruction.isMerge_eq_false_of_isLine hi)]
    generalize Spirv.splitAtMerge is = x, Spirv.splitAtMerge is' = x' at ih ⊢
    cases ih with
    | some hx => exact .some ⟨.line hi hx.1, hx.2⟩
    | none => exact .none
  | @name i is is' hs hi _ ih =>
    rw [splitAtMerge_cons (RawInstruction.isMerge_eq_false_of_isName hi)]
    generalize Spirv.splitAtMerge is = x, Spirv.splitAtMerge is' = x' at ih ⊢
    cases ih with
    | some hx => exact .some ⟨.name hs hi hx.1, hx.2⟩
    | none => exact .none

end CodeAlike

namespace SourceBlock.Alike

variable {b b' : SourceBlock}

theorem body (h : b.Alike L b') : CodeAlike L b.body b'.body := by
  unfold SourceBlock.body
  have hsplit := h.code.splitAtMerge
  generalize splitAtMerge b.code = x, splitAtMerge b'.code = x' at hsplit ⊢
  cases hsplit with
  | some hx => exact hx.1
  | none => exact h.code

theorem merge_eq (h : b.Alike L b') : b'.merge = b.merge := by
  unfold SourceBlock.merge
  have hsplit := h.code.splitAtMerge
  generalize splitAtMerge b.code = x, splitAtMerge b'.code = x' at hsplit ⊢
  cases hsplit with
  | some hx =>
    dsimp only
    rw [hx.2.merge_eq]
  | none => rfl

theorem loop?_eq (h : b.Alike L b') (scope : Scope) (source : Nat) :
    b'.loop? scope source = b.loop? scope source := by
  rw [SourceBlock.loop?, SourceBlock.loop?, h.merge_eq]

end SourceBlock.Alike

namespace Body

theorem reported_of_same (before : Option Id) {i' : RawInstruction} (h : i.Same i') :
    reported before i' = reported before i := by
  rw [h, reported, reported, instruction_offset]
  rfl

theorem reported_line (before : Option Id) (hi : i.isLine = true) (spot : Spot) (c : Context) :
    reported before i spot c = .ok () { c with events := .instruction i.op i.length :: c.events } := by
  have hnothing : instruction before i = pure () := by
    unfold RawInstruction.isLine at hi
    unfold instruction
    split at hi <;> simp_all
  rw [reported, hnothing]
  rfl

theorem reported_name (before : Option Id) (hi : i.isName = true) (spot : Spot) (c : Context) :
    ∃ d, reported before i spot c = .error (.unsupportedOpcode i.op) d := by
  have hname : instruction before i = throw (.unsupportedOpcode i.op) := by
    unfold RawInstruction.isName at hi
    unfold instruction
    split at hi <;> simp_all [Code.AluRule.ofOpcode?]
  rw [reported, hname]
  exact ⟨_, rfl⟩

theorem inStep_instructions (hp : p.due = []) (before : Option Id) {is is' : List RawInstruction}
    (h : CodeAlike L is is') :
    EmitInStep L p (instructions before is) (instructions before is') Done := by
  induction h generalizing p with
  | nil => exact .pure fun _ _ => trivial
  | @both i i' _ _ hi _ ih =>
    have hfirst : EmitInStep L p (reported before i) (reported before i') Done := by
      rw [reported_of_same before hi]
      exact inStep_reported hp before i
    exact hfirst.seq (ih hp)
  | @line i _ is' hi _ ih =>
    intro spot q hq c c' hc
    have hrest := ih hp spot hq (hc.report_right (.instruction i.op i.length))
    have hskip : instructions before (i :: is') spot c' = instructions before is' spot
        { c' with events := .instruction i.op i.length :: c'.events } :=
      Emit.bind_of_ok (reported_line before hi spot c')
    rwa [hskip]
  | @name i is _ hs hi =>
    intro spot q hq c c' hc
    obtain ⟨d, hd⟩ := reported_name before hi spot c
    have hfail : instructions before (i :: is) spot c = .error (.unsupportedOpcode i.op) d :=
      EStateM.bind_of_error hd
    rw [hfail]
    exact fun hstrict => absurd hstrict hs

end Body

/-! ### Structure -/

namespace Structure

theorem inStep_follow (scope : Scope) (block : BlockId) (target : Nat) :
    Steady L p (follow scope block target) := by
  unfold follow
  split
  · exact .pure fun _ _ => rfl
  · cases scope.jump? target with
    | none => exact .pure fun _ _ => rfl
    | some jump => exact (inStep_insertAt ..).bind_same fun _ => .pure fun _ _ => rfl

theorem inStep_markEnd (block : BlockId) (source : Nat) : Steady L p (markEnd block source) Done :=
  .modify fun _ _ _ _ hc => { hc with ends := by rw [hc.ends] }

theorem inStep_nextConditional : Steady L p nextConditional := .modifyGet fun q _ _ _ hc =>
    ⟨q, .refl q, { hc with conditionals := by rw [hc.conditionals] }, hc.conditionals⟩

theorem inStep_nextLoop : Steady L p nextLoop :=
  .modifyGet fun q _ _ _ hc => ⟨q, .refl q, { hc with loops := by rw [hc.loops] }, hc.loops⟩

theorem label_eq {c c' : Context} (hc : c.Alike L p c') (source : Nat) :
    (c'.blocks[source]?).map (·.label) = (c.blocks[source]?).map (·.label) := by
  have hblock := hc.blocks source
  generalize c.blocks[source]? = x, c'.blocks[source]? = x' at hblock ⊢
  cases hblock with
  | none => rfl
  | some h => exact congrArg some h.label

theorem inStep_emitBody (hp : p.due = []) (block : BlockId) (source : Nat) (h : code.Alike L code')
    (before : Option Nat) :
    InStep L p (emitBody block source code before) (emitBody block source code' before) Done := by
  refine InStep.seq (.modify fun _ _ _ _ hc => { hc with placed := by rw [hc.placed] }) ?_
  refine InStep.get.bind fun q hq c c' hc => ?_
  have hbefore : (before.bind fun b => c'.blocks[b]?).map (·.label) =
      (before.bind fun b => c.blocks[b]?).map (·.label) := by
    cases before with
    | none => rfl
    | some b => exact label_eq hc b
  dsimp only
  rw [hbefore]
  exact (Body.inStep_instructions (hq.due.trans hp) _ h.body (.append block)).seq (inStep_markEnd ..)

theorem inStep_returnValue (block : BlockId) (terminator : RawInstruction) :
    Steady L p (returnValue block terminator) Done := by
  refine InStep.get.bind fun q hq c c' hc => ?_
  rw [hc.function.returnVar]
  cases c.function.returnVar with
  | none => exact .meaningless fun _ => rfl
  | some v =>
    refine EmitInStep.bind (Emit.inStep_treeOperand terminator 0) (fun q₁ hq₁ t t' ht => ?_) (.append block)
    refine (Code.inStep_storeTree _ ht).seq ?_
    exact Emit.inStep_instruction.bind_same fun _ => .pure fun _ _ => trivial

/-- Walks that lead to the same regions. -/
def WalkersInStep (L : Latitude) (w w' : Walker) : Prop :=
  ∀ (p : Pairing) block source before visited scope, p.due = [] →
    InStep L p (w block source before visited scope) (w' block source before visited scope) Equal

variable {w w' : Walker}

theorem inStep_goOn (hw : WalkersInStep L w w') (hp : p.due = []) (block : BlockId) (target : Nat)
    (before : Option Nat) (visited : List Nat) (scope : Scope) :
    InStep L p (goOn w block target before visited scope) (goOn w' block target before visited scope)
      Equal := by
  refine (inStep_follow scope block target).bind_same fun next => ?_
  cases next with
  | none => exact .pure fun _ _ => rfl
  | some next => exact hw p _ _ _ _ _ hp

theorem inStep_lookupBlock (label : Id) : Steady L p (Lower.lookup (·.block label)) :=
  .lookup fun _ _ _ _ ht => ht.block label

theorem inStep_walkLoop (hw : WalkersInStep L w w') (hp : p.due = []) (block : BlockId)
    (source : Nat) (label merge continueTarget : Id) (visited : List Nat) (scope : Scope) :
    InStep L p (walkLoop w block source label merge continueTarget visited scope)
      (walkLoop w' block source label merge continueTarget visited scope) Equal := by
  refine (inStep_report rfl _).seq ?_
  refine inStep_nextLoop.bind_same fun node => ?_
  refine inStep_addBlock.bind_same fun inside => ?_
  refine inStep_addBlock.bind_same fun after => ?_
  refine (inStep_lookupBlock merge).bind_same fun mergeBlock => ?_
  refine (hw p _ _ _ _ _ hp).bind_same fun body => ?_
  refine (hw p _ _ _ _ _ hp).bind_same fun rest => ?_
  exact .pure fun _ _ => rfl

theorem inStep_fork (block : BlockId) (branch : RawInstruction) : Steady L p (fork block branch) := by
  refine (Emit.inStep_registerOperand branch 0 (.append block)).bind_same fun condition => ?_
  refine (inStep_operand branch 1).bind_same fun trueLabel => ?_
  refine (inStep_lookupBlock trueLabel).bind_same fun onTrue => ?_
  refine (inStep_operand branch 2).bind_same fun falseLabel => ?_
  refine (inStep_lookupBlock falseLabel).bind_same fun onFalse => ?_
  exact .pure fun _ _ => rfl

section

variable (hw : WalkersInStep L w w')
include hw

theorem inStep_walkArms (hp : p.due = []) (h : code.Alike L code')
    (trueBlock falseBlock after : BlockId) (onTrue onFalse : Nat) (visited : List Nat)
    (scope : Scope) (region : Region → Region → Region → Region) :
    InStep L p (walkArms w code trueBlock falseBlock after onTrue onFalse visited scope region)
      (walkArms w' code' trueBlock falseBlock after onTrue onFalse visited scope region) Equal := by
  unfold walkArms
  rw [h.merge_eq, h.label]
  extract_lets jumping
  cases jumping with
  | some entry =>
    refine (inStep_insertAt ..).bind_same fun _ => ?_
    exact (inStep_goOn hw hp ..).bind_same fun rest => .pure fun _ _ => rfl
  | none =>
    dsimp only
    cases code.merge with
    | selection merge =>
      refine (inStep_lookupBlock merge).bind_same fun mergeBlock => ?_
      refine (hw p _ _ _ _ _ hp).bind_same fun trueArm => ?_
      refine (hw p _ _ _ _ _ hp).bind_same fun falseArm => ?_
      exact (inStep_goOn hw hp ..).bind_same fun rest => .pure fun _ _ => rfl
    | none | loop => exact .throw fun _ => rfl

theorem inStep_walkCond (hp : p.due = []) (block : BlockId)
    (source : Nat) (h : code.Alike L code') (visited : List Nat) (scope : Scope) :
    InStep L p (walkCond w block source code visited scope)
      (walkCond w' block source code' visited scope) Equal := by
  unfold walkCond
  have hfork : fork block code'.terminator = fork block code.terminator := by
    rw [h.terminator]
    rfl
  rw [hfork]
  refine (inStep_fork block _).bind_same fun branch => ?_
  refine inStep_nextConditional.bind_same fun node => ?_
  refine inStep_addBlock.bind_same fun trueBlock => ?_
  refine inStep_addBlock.bind_same fun falseBlock => ?_
  refine inStep_addBlock.bind_same fun after => ?_
  refine (inStep_markEnd trueBlock source).seq ?_
  refine (inStep_markEnd falseBlock source).seq ?_
  exact inStep_walkArms hw hp h ..

theorem inStep_walkTerminator (hp : p.due = []) (block : BlockId)
    (source : Nat) (h : code.Alike L code') (visited : List Nat) (scope : Scope) :
    InStep L p (walkTerminator w block source code visited scope)
      (walkTerminator w' block source code' visited scope) Equal := by
  unfold walkTerminator
  rw [h.terminator.op_eq]
  split
  · have hlabel : Lower.operand code'.terminator 0 = Lower.operand code.terminator 0 := by
      rw [h.terminator]
      rfl
    rw [hlabel]
    refine (inStep_operand code.terminator 0).bind_same fun label => ?_
    refine (inStep_lookupBlock label).bind_same fun target => ?_
    exact inStep_goOn hw hp ..
  · exact inStep_walkCond hw hp block source h visited scope
  · exact (inStep_insertAt ..).bind_same fun _ => .pure fun _ _ => rfl
  · have hreturn : returnValue block code'.terminator = returnValue block code.terminator := by
      rw [h.terminator]
      rfl
    rw [hreturn]
    exact (inStep_returnValue block _).seq (.pure fun _ _ => rfl)
  · exact (inStep_insertAt ..).bind_same fun _ => .pure fun _ _ => rfl
  · exact .throw fun _ => rfl

theorem walkersInStep_walkBlock : WalkersInStep L (walkBlock w) (walkBlock w') := by
  intro p block source before visited scope hp
  unfold walkBlock
  split
  · exact .pure fun _ _ => rfl
  refine InStep.get.bind fun q hq c c' hc => ?_
  have hp₁ := hq.due.trans hp
  have hblock := hc.blocks source
  generalize c.blocks[source]? = x, c'.blocks[source]? = x' at hblock ⊢
  cases hblock with
  | none => exact .throw fun _ => rfl
  | @some code code' h =>
    dsimp only
    rw [h.label, h.loop?_eq]
    split
    · exact .meaningless fun _ => rfl
    cases code.loop? scope source with
    | some targets => exact inStep_walkLoop hw hp₁ ..
    | none =>
      refine (inStep_emitBody hp₁ block source h before).seq ?_
      exact inStep_walkTerminator hw hp₁ block source h _ scope

end

theorem walkersInStep_walkFrom (bound : Nat) : WalkersInStep L (walkFrom bound) (walkFrom bound) := by
  induction bound with
  | zero => exact fun _ _ _ _ _ _ _ => .throw fun _ => rfl
  | succ bound ih => exact walkersInStep_walkBlock ih

theorem inStep_walk (hp : p.due = []) (entry : Nat) : Steady L p (walk entry) := by
  refine InStep.get.bind fun q hq c c' hc => ?_
  rw [hc.blocks.size_eq]
  exact walkersInStep_walkFrom _ q _ _ _ _ _ (hq.due.trans hp)

end Structure

/-! ### Phis -/

namespace PhiSources

theorem inStep_predecessors (block : BlockId) : Steady L p (predecessors block) := by
  refine InStep.get.bind fun q _ c c' hc => ?_
  rw [hc.function.blocks]
  cases c.function.blocks[block]? with
  | some b => exact .pure fun _ _ => rfl
  | none => exact .throw fun _ => rfl

theorem addSource_alike {w : TypeMap} {marks : List Mark} {f f' : Function}
    (h : f.Alike L w marks f') (pred : BlockId) (phi value : Register) :
    (addSource pred f phi value).Alike L w marks (addSource pred f' phi value) := by
  unfold addSource
  split
  · next sources lanes hphi =>
    rw [h.phi_iff.mpr hphi]
    exact h.replace_phi hphi _
  · next hno =>
    split
    · next sources lanes hphi => exact absurd (h.phi_iff.mp hphi) (hno sources lanes)
    · exact h

theorem addAll_alike {w : TypeMap} {marks : List Mark} (pred : BlockId)
    (pairs : List (Register × Register)) {f f' : Function} (h : f.Alike L w marks f') :
    (pairs.foldl (fun f (phi, value) => addSource pred f phi value) f).Alike L w marks
      (pairs.foldl (fun f (phi, value) => addSource pred f phi value) f') := by
  induction pairs generalizing f f' with
  | nil => exact h
  | cons pair pairs ih => exact ih (addSource_alike h pred pair.1 pair.2)

theorem inStep_addSources {phi phi' source source' : Tree} (hphi : phi.Alike p.types phi')
    (pred : BlockId) (hsource : source.Alike p.types source') :
    InStep L p (addSources phi pred source) (addSources phi' pred source') Done := by
  unfold addSources
  rw [hphi.leaves_eq, hsource.leaves_eq]
  exact .modify fun _ _ _ _ hc => hc.withFunction (addAll_alike pred _ hc.function)

theorem inStep_listedAt? (pairs : List (Id × Id)) (block : BlockId) : Steady L p (listedAt? pairs block) := by
  refine InStep.get.bind fun q _ c c' hc => ?_
  refine .pure fun _ _ => ?_
  rw [hc.ends]
  cases c.ends.lookup block with
  | none => rfl
  | some source =>
    have hlisted := congrArg (·.bind (Code.listedValue? pairs)) (Structure.label_eq hc source)
    rw [Option.bind_map, Option.bind_map] at hlisted
    exact hlisted

/-- Phis that were made in both readings. -/
def MadeAlike (p : Pairing) : Made → Made → Prop := List.Forall₂ (KeyedAlike (Tree.Alike p.types))

theorem stable_madeAlike : Stable MadeAlike := fun _ _ hq _ _ h => h.imp fun _ _ hx => ⟨hx.1, hx.2.mono hq.types⟩

theorem MadeAlike.cons {made made' : Made} (block : BlockId) {t t' : Tree}
    (ht : t.Alike p.types t') (hmade : MadeAlike p made made') :
    MadeAlike p ((block, t) :: made) ((block, t') :: made') :=
  List.Forall₂.cons ⟨rfl, ht⟩ hmade

/-- A value in both readings, and the phis that were made for it. -/
def FoundAlike (p : Pairing) (x x' : Tree × Made) : Prop := x.1.Alike p.types x'.1 ∧ MadeAlike p x.2 x'.2

theorem inStep_fill {find find' : BlockId → Made → Lower (Tree × Made)}
    (hfind : ∀ q, p.Grows q → ∀ block made made', MadeAlike q made made' →
      InStep L q (find block made) (find' block made') FoundAlike)
    {phi phi' : Tree} (hphi : phi.Alike p.types phi') (preds : List BlockId) {made made' : Made}
    (hmade : MadeAlike p made made') :
    InStep L p (fill find phi preds made) (fill find' phi' preds made') MadeAlike := by
  refine .foldlM stable_madeAlike (fun q hq made made' pred hmade => ?_) hmade
  refine (hfind q hq pred made made' hmade).bind fun q₁ hq₁ x x' hx => ?_
  refine (inStep_addSources (hphi.mono (hq.trans hq₁).types) pred hx.1).seq ?_
  exact .pure fun q₂ hq₂ => stable_madeAlike q₁ q₂ hq₂ _ _ hx.2

theorem inStep_valueAt (pairs : List (Id × Id)) (depth : Nat) {ty ty' : TypeId}
    (hty : p.types.Maps ty ty') (block : BlockId) {made made' : Made} (hmade : MadeAlike p made made') :
    InStep L p (valueAt pairs ty depth block made) (valueAt pairs ty' depth block made') FoundAlike := by
  induction depth generalizing p block made made' with
  | zero => exact .throw fun _ => rfl
  | succ depth ih =>
    refine (inStep_listedAt? pairs block).bind_same fun listed => ?_
    cases listed with
    | some value =>
      refine (Emit.inStep_treeOf value (.beforeJump block)).bind fun q₁ hq₁ t t' ht => ?_
      refine .pure fun q₂ hq₂ => ⟨ht.mono hq₂.types, ?_⟩
      exact stable_madeAlike p q₂ (hq₁.trans hq₂) _ _ hmade
    | none =>
      have hknown := lookup_alike hmade block
      dsimp only
      generalize made.lookup block = x, made'.lookup block = x' at hknown ⊢
      cases hknown with
      | some hx => exact .pure fun q hq => ⟨hx.mono hq.types, stable_madeAlike p q hq _ _ hmade⟩
      | none =>
        refine (Code.inStep_phiTree hty (.front block)).bind fun q₁ hq₁ t t' ht => ?_
        refine (inStep_predecessors block).bind_same fun preds => ?_
        have hmade₁ := MadeAlike.cons block ht (stable_madeAlike p q₁ hq₁ _ _ hmade)
        have hrest : InStep L q₁ (do return (t, ← fill (valueAt pairs ty depth) t preds ((block, t) :: made)))
            (do return (t', ← fill (valueAt pairs ty' depth) t' preds ((block, t') :: made')))
            FoundAlike := by
          refine (inStep_fill (fun q₂ hq₂ block made made' hmade => ?_) ht preds hmade₁).bind
            fun q₂ hq₂ made₂ made₂' hmade₂ => ?_
          · exact ih (hty.mono (hq₁.trans hq₂).types) block hmade
          · refine .pure fun q₃ hq₃ => ⟨ht.mono (hq₂.trans hq₃).types, ?_⟩
            exact stable_madeAlike q₂ q₃ hq₃ _ _ hmade₂
        split
        · exact .seq (.meaningless fun _ => rfl) hrest
        · exact hrest

theorem inStep_resolve (source : Nat) (i : RawInstruction) : Steady L p (resolve source i) Done := by
  refine (inStep_operand i 1).bind_same fun id => ?_
  refine InStep.get.bind fun q₁ hq₁ c c' hc => ?_
  have hpending := lookup_alike hc.pendingPhis id
  generalize c.pendingPhis.lookup id = x, c'.pendingPhis.lookup id = x' at hpending ⊢
  cases hpending with
  | none => exact .pure fun _ _ => trivial
  | @some t t' ht =>
    refine InStep.seq (.modify fun _ _ d d' hd => ?_) ?_
    · exact { hd with pendingPhis := filter_alike hd.pendingPhis (· ≠ id) }
    refine (inStep_typeOperand i 0).bind fun q₂ hq₂ ty ty' hty => ?_
    refine (inStep_ofExcept (Code.phiPairs i)).bind_same fun pairs => ?_
    refine InStep.get.bind fun q₃ hq₃ d d' hd => ?_
    rw [hd.placed]
    cases d.placed.lookup source with
    | none => exact .meaningless fun _ => rfl
    | some block =>
      refine (inStep_report rfl _).seq ?_
      refine InStep.get.bind fun q₄ hq₄ e e' he => ?_
      rw [he.function.blocks]
      refine (inStep_predecessors block).bind_same fun preds => ?_
      have htree := ht.mono (hq₂.trans (hq₃.trans hq₄)).types
      refine (inStep_fill (fun q₅ hq₅ block made made' hmade => ?_) htree preds .nil).bind
        fun _ _ _ _ _ => .pure fun _ _ => trivial
      exact inStep_valueAt pairs _ (hty.mono (hq₃.trans (hq₄.trans hq₅)).types) block hmade

theorem resolve_of_same (source : Nat) {i' : RawInstruction} (h : i.Same i') :
    resolve source i' = resolve source i := by
  rw [h]
  unfold resolve Code.phiPairs
  simp only [RawInstruction.pairsFrom_offset]
  rfl

theorem inStep_resolveAll (f : SourceFunction) : Steady L p (resolveAll f) Done := by
  refine .forM_same fun source => ?_
  refine InStep.get.bind fun q₁ hq₁ c c' hc => ?_
  have hblock := hc.blocks source
  generalize c.blocks[source]? = x, c'.blocks[source]? = x' at hblock ⊢
  cases hblock with
  | none => exact .pure fun _ _ => trivial
  | some h =>
    refine .forM h.code.phis fun i i' hi => ?_
    rw [resolve_of_same source hi]
    exact inStep_resolve source i

end PhiSources

end ShaderIR.Spirv
