import ShaderIR.Proofs.Leaves
import ShaderIR.Proofs.Walk

/-!
# What a walk goes through

A walk takes few kinds of steps from one state to the next: it records where code goes and as what
control leaves it, makes code that is no phi, handles phis, puts in jumps, and opens loops and
conditionals. What every step keeps, the walk keeps, and it goes from the code of one block of the
stream to that of the next.
-/

namespace ShaderIR.Spirv

open EStateM List Lower

/-! ### Phis -/

/-- How a phi is handled in a block that continues another, if any. -/
inductive PhiStep (spot : Spot) (i : RawInstruction) : Option Id → Context → Context → Prop
  /-- A phi without sources is put in place. -/
  | pend {c c₁ ids ty id pairs t}
      (hty : ∃ typeId v, i.operand 0 = .ok typeId ∧ c.ids.typeValue typeId = .ok v ∧ ty = v.ty)
      (hid : i.operand 1 = .ok id) (hpairs : Code.phiPairs i = .ok pairs)
      (htree : Code.phiTree ty spot c = .ok t c₁)
      (hdefine : c₁.ids.define id (.tree t) = .ok ids) :
      PhiStep spot i none c { c₁ with ids, pendingPhis := (id, t) :: c₁.pendingPhis }
  /-- The phi takes the value listed for the block that it continues. -/
  | take {c c₁ ids label id pairs value t} (hid : i.operand 1 = .ok id)
      (hpairs : Code.phiPairs i = .ok pairs) (hlisted : Code.listedValue? pairs label = some value)
      (htree : Emit.treeOf value spot c = .ok t c₁)
      (hdefine : c₁.ids.define id (.tree t) = .ok ids) :
      PhiStep spot i (some label) c { c₁ with ids }

theorem phiStep_of_phi {spot : Spot} {i : RawInstruction} {before : Option Id} {c c' : Context}
    (h : Code.phi before i spot c = .ok () c') : PhiStep spot i before c c' := by
  unfold Code.phi at h
  obtain ⟨ty, htype, h⟩ := Emit.look_eq_ok.mp h
  obtain ⟨id, hid, h⟩ := Emit.look_eq_ok.mp h
  obtain ⟨pairs, hpairs, h⟩ := Emit.look_eq_ok.mp h
  obtain ⟨hty, -⟩ := typeOperand_eq_ok.mp htype
  obtain ⟨hid, -⟩ := operand_eq_ok.mp hid
  obtain ⟨hpairs, -⟩ := ofExcept_eq_ok.mp hpairs
  cases before with
  | some label =>
    cases hlisted : Code.listedValue? pairs label with
    | none =>
      simp only [hlisted] at h
      exact (throw_eq_ok.mp h).elim
    | some value =>
      simp only [hlisted] at h
      obtain ⟨t, c₁, htree, h⟩ := Emit.bind_eq_ok.mp h
      obtain ⟨ids, hdefine, rfl⟩ := define_eq_ok.mp h
      exact .take hid hpairs hlisted htree hdefine
  | none =>
    obtain ⟨t, c₁, htree, h⟩ := Emit.bind_eq_ok.mp h
    obtain ⟨_, c₂, hdefine, h⟩ := Emit.bind_eq_ok.mp h
    obtain ⟨ids, hids, rfl⟩ := define_eq_ok.mp hdefine
    obtain rfl := modify_eq_ok.mp h
    exact @PhiStep.pend _ _ _ c₁ ids _ _ _ _ hty hid hpairs htree hids

namespace PhiStep

variable {spot : Spot} {i : RawInstruction} {before : Option Id} {c c' : Context}

theorem defines (h : PhiStep spot i before c c') :
    ∃ (is : List Instruction) (c₁ : Context) (id : Id) (t : Tree), (∀ i ∈ is, Stays i) ∧
      Inserts spot is c c₁ ∧ i.operand 1 = .ok id ∧ c₁.ids.define id (.tree t) = .ok c'.ids ∧
      ∃ pending, pending.length ≤ 1 ∧
        c' = { c₁ with ids := c'.ids, pendingPhis := pending ++ c₁.pendingPhis } := by
  cases h with
  | @pend _ c₁ _ _ id _ t _ hid _ htree hdefine =>
    obtain ⟨is, his, hplants⟩ := Code.plants_phiTree htree
    refine ⟨is, c₁, id, t, fun i hi => ?_, hplants.inserts, hid, hdefine, [(id, t)], by simp, rfl⟩
    obtain ⟨lanes, rfl⟩ := his i hi
    rfl
  | @take _ c₁ _ _ id _ _ t hid _ _ htree hdefine =>
    obtain ⟨words, hinserts⟩ := Emit.inserts_treeOf htree
    refine ⟨_, c₁, id, t, fun i hi => ?_, hinserts, hid, hdefine, [], by simp, rfl⟩
    obtain ⟨bits, -, rfl⟩ := mem_map.mp hi
    rfl

end PhiStep

variable {b block : BlockId} {code : SourceBlock} {e : Emission}

namespace Structure

/-! ### Steps -/

/-- One step of a walk. -/
inductive WalkStep : Context → Context → Prop
  | place {c} (source : Nat) (block : BlockId) : WalkStep c (placedAt c source block)
  | mark {c} (source : Nat) (block : BlockId) : WalkStep c (endedAt c source block)
  | report {c} (e : Event) : WalkStep c (c.reported e)
  | plain {c d block} (h : Grows Plain (.append block) c d) : WalkStep c d
  | phi {c d block i before} (h : PhiStep (.append block) i before c d) : WalkStep c d
  | append {c i} (block : BlockId) (hi : i.isPhi = false) (hplaces : i.places = []) :
      WalkStep c (c.append block i)
  | openLoop {c} : WalkStep c c.openLoop
  | openConditional {c} (source : Nat) : WalkStep c (c.openConditional source)

/-- Any number of steps of a walk. -/
def WalksOn : Context → Context → Prop := Relation.ReflTransGen WalkStep

/-- What holds of the states before and after any number of steps: what was there stays, and code
only comes behind what is in its block. -/
structure Continues (c c' : Context) : Prop extends Carries c c' where
  pendingPhis : c.pendingPhis <:+ c'.pendingPhis
  instructions : ∀ (r : Register) (i : Instruction),
    c.function.instructions[r]? = some i → c'.function.instructions[r]? = some i
  code : ∀ b, c.function.code b <+: c'.function.code b
  /-- Only new instructions are put into blocks. -/
  newCode : ∀ b, ∀ r ∈ c'.function.code b, r ∈ c.function.code b ∨ c.function.instructions.size ≤ r
  count : c.function.instructions.size ≤ c'.function.instructions.size
  size : c.function.blocks.size ≤ c'.function.blocks.size
  inRange : c.function.InRange → c'.function.InRange

namespace Continues

variable {c c' c'' : Context}

protected theorem refl (c : Context) : Continues c c where
  __ := Carries.refl c
  pendingPhis := suffix_rfl
  instructions := fun _ _ h => h
  code := fun _ => prefix_rfl
  newCode := fun _ _ => .inl
  count := Nat.le_refl _
  size := Nat.le_refl _
  inRange := id

protected theorem trans (h : Continues c c') (h' : Continues c' c'') : Continues c c'' where
  __ := h.toCarries.trans h'.toCarries
  pendingPhis := h.pendingPhis.trans h'.pendingPhis
  instructions := fun r i hi => h'.instructions r i (h.instructions r i hi)
  code := fun b => (h.code b).trans (h'.code b)
  newCode := fun b r hr =>
    (h'.newCode b r hr).elim (h.newCode b r) fun hle => .inr (Nat.le_trans h.count hle)
  count := Nat.le_trans h.count h'.count
  size := Nat.le_trans h.size h'.size
  inRange := h'.inRange ∘ h.inRange

theorem of_grows (h : Grows Plain (.append block) c c') : Continues c c' where
  __ := h.toCarries
  pendingPhis := (h.pendingPhis fun _ hphi => Bool.noConfusion hphi.2) ▸ suffix_rfl
  instructions := fun r i hi => h.getElem?_instructions hi
  code := fun b => by
    obtain ⟨is, locals, -, hf⟩ := h.function
    rw [hf]
    exact Function.code_isPrefix_insertAll_append
  newCode := fun b r hr => by
    obtain ⟨is, locals, -, hf⟩ := h.function
    rw [hf] at hr
    exact (Function.mem_code_insertAll.mp hr).imp_right (·.1.1)
  count := h.size_instructions
  size := Nat.le_of_eq h.size_blocks.symm
  inRange := h.inRange

theorem of_phiStep {i : RawInstruction} {before : Option Id}
    (h : PhiStep (.append block) i before c c') : Continues c c' := by
  obtain ⟨is, c₁, id, t, -, hinserts, -, hdefine, pending, -, hc'⟩ := h.defines
  obtain ⟨types, nextKey, hext, rfl⟩ := hinserts
  rw [hc']
  exact {
    blocks := rfl
    functions := rfl
    ids := IdTable.extends_of_define hdefine
    newIds := fun _ _ => IdTable.get_or_isLocal_of_define hdefine (.inl ⟨t, rfl⟩)
    types := hext
    constants := rfl
    pendingPhis := suffix_append ..
    instructions := fun r i hi => by
      obtain ⟨hlt, -⟩ := Array.getElem?_eq_some_iff.mp hi
      rw [Function.insertAll_instructions, Array.getElem?_append_left hlt, hi]
    code := fun _ => Function.code_isPrefix_insertAll_append
    newCode := fun b r hr => (Function.mem_code_insertAll.mp hr).imp_right (·.1.1)
    count := by simp
    size := by simp
    inRange := fun hr => hr.insertAll }

theorem append (c : Context) (block : BlockId) (i : Instruction) : Continues c (c.append block i) where
  __ := Continues.refl c
  instructions := fun r i' hi => by
    obtain ⟨hlt, -⟩ := Array.getElem?_eq_some_iff.mp hi
    change (c.function.insert (.append block) i).2.instructions[r]? = some i'
    rw [Function.insert_instructions, Array.getElem?_push, if_neg (Nat.ne_of_lt hlt), hi]
  code := fun b => by
    change _ <+: (c.function.insertAll (.append block) [i]).code b
    exact Function.code_isPrefix_insertAll_append
  newCode := fun b r hr => (Function.mem_code_insert.mp hr).imp_right fun h => Nat.le_of_eq h.1.symm
  count := by
    change _ ≤ (c.function.insert (.append block) i).2.instructions.size
    simp
  size := by
    change _ ≤ (c.function.insert (.append block) i).2.blocks.size
    simp only [Function.insert_size, Nat.le_refl]
  inRange := fun h => h.insert

theorem openLoop (c : Context) : Continues c c.openLoop where
  __ := Continues.refl c
  code := fun b => c.code_openLoop b ▸ prefix_rfl
  newCode := fun b r hr => .inl (c.code_openLoop b ▸ hr)
  size := by
    rw [Context.size_openLoop]
    exact Nat.le_add_right ..
  inRange := fun h => h.addBlock.addBlock

theorem openConditional (c : Context) (source : Nat) : Continues c (c.openConditional source) where
  __ := Continues.refl c
  code := fun b => c.code_openConditional source b ▸ prefix_rfl
  newCode := fun b r hr => .inl (c.code_openConditional source b ▸ hr)
  size := by
    grind
  inRange := fun h => h.addBlock.addBlock.addBlock

end Continues

theorem WalkStep.continues {c c' : Context} (h : WalkStep c c') : Continues c c' := by
  cases h with
  | plain h => exact .of_grows h
  | phi h => exact .of_phiStep h
  | append block => exact .append ..
  | openLoop => exact .openLoop c
  | openConditional source => exact .openConditional c source
  | _ => exact { Continues.refl c with }

theorem WalksOn.continues {c c' : Context} (h : WalksOn c c') : Continues c c' := by
  induction h with
  | refl => exact .refl c
  | tail _ hstep ih => exact ih.trans hstep.continues

/-! ### The code of a block of the stream -/

section Body

variable {c c' : Context} {before : Option Id} {block : BlockId} {i : RawInstruction}
  {is js : List RawInstruction} {spot : Spot}

theorem instructions_append_eq_ok : Body.instructions before (is ++ js) spot c = .ok () c' ↔
      ∃ d, Body.instructions before is spot c = .ok () d ∧ Body.instructions before js spot d = .ok () c' := by
  simp only [Body.instructions, Emit.forM_at]
  exact forM_append_eq_ok

theorem instructions_cons_eq_ok : Body.instructions before (i :: is) spot c = .ok () c' ↔
      ∃ d, Body.instruction before i spot (c.reported (.instruction i.op i.length)) = .ok () d ∧
        Body.instructions before is spot d = .ok () c' := by
  change (Body.reported before i >>= fun _ => Body.instructions before is) spot c = .ok () c' ↔ _
  constructor
  · intro h
    obtain ⟨_, d, hi, hrest⟩ := Emit.bind_eq_ok.mp h
    obtain ⟨_, c₁, hreport, hi⟩ := Emit.bind_eq_ok.mp hi
    obtain rfl := report_eq_ok.mp hreport
    exact ⟨d, hi, hrest⟩
  · rintro ⟨d, hi, hrest⟩
    exact Emit.bind_eq_ok.mpr ⟨(), d, Emit.bind_eq_ok.mpr ⟨(), _, rfl, hi⟩, hrest⟩

theorem walkStep_of_instruction (h : Body.instruction before i (.append block) c = .ok () c') :
    WalkStep c c' := by
  by_cases hi : i.op = .opPhi
  · rw [Body.instruction_phi hi] at h
    exact .phi (phiStep_of_phi h)
  · obtain ⟨b', rfl, hb'⟩ := Body.emits_of_plain (b := ⟨c, []⟩) hi h
    exact .plain hb'.grows

theorem walksOn_of_instructions (h : Body.instructions before is (.append block) c = .ok () c') :
    WalksOn c c' := by
  induction is generalizing c with
  | nil =>
    obtain ⟨-, rfl⟩ := pure_eq_ok.mp h
    exact .refl
  | cons i is ih =>
    obtain ⟨d, hi, hrest⟩ := instructions_cons_eq_ok.mp h
    exact ((Relation.ReflTransGen.single (.report _)).tail (walkStep_of_instruction hi)).trans (ih hrest)

end Body

theorem walksOn_of_emitBody {c d : Context} {source : Nat} {before : Option Nat}
    (h : emitBody block source code before c = .ok () d) : WalksOn c d := by
  obtain ⟨d', hbody, rfl⟩ := emitBody_eq_ok.mp h
  exact ((Relation.ReflTransGen.single (.place source block)).trans
    (walksOn_of_instructions hbody)).tail (.mark source block)

/-! ### From the code of one block to that of the next -/

/-- The code of a block of the stream was made as it is recorded. -/
structure IsMade (e : Emission) : Prop where
  code : e.start.blocks[e.source]? = some e.code
  emit : emitBody e.block e.source e.code e.before e.start = .ok () e.finish

/-- Steps lead from one state through all code that is made to another. -/
structure Logged (c : Context) (log : List Emission) (c' : Context) : Prop where
  steps : WalksOn c c'
  made : ∀ e ∈ log, IsMade e ∧ WalksOn c e.start ∧ WalksOn e.finish c'
  pairwise : log.Pairwise fun e e' => WalksOn e.finish e'.start

namespace Logged

variable {c c' d : Context} {log log' : List Emission}

theorem of_steps (h : WalksOn c c') : Logged c [] c' := ⟨h, by simp, .nil⟩

theorem of_emitBody {source : Nat} {before : Option Nat} (hcode : c.blocks[source]? = some code)
    (hemit : emitBody block source code before c = .ok () d) :
    Logged c [⟨source, block, before, code, c, d⟩] d := by
  refine ⟨walksOn_of_emitBody hemit, fun e he => ?_, pairwise_singleton ..⟩
  obtain rfl := mem_singleton.mp he
  exact ⟨⟨hcode, hemit⟩, .refl, .refl⟩

theorem append (h : Logged c log d) (h' : Logged d log' c') : Logged c (log ++ log') c' where
  steps := h.steps.trans h'.steps
  made := fun e he => by
    rcases mem_append.mp he with he | he
    · obtain ⟨hmade, hstart, hfinish⟩ := h.made e he
      exact ⟨hmade, hstart, hfinish.trans h'.steps⟩
    · obtain ⟨hmade, hstart, hfinish⟩ := h'.made e he
      exact ⟨hmade, h.steps.trans hstart, hfinish⟩
  pairwise := pairwise_append.mpr ⟨h.pairwise, h'.pairwise, fun e he e' he' =>
    (h.made e he).2.2.trans (h'.made e' he').2.1⟩

theorem after (h : WalksOn c d) (h' : Logged d log c') : Logged c log c' := (of_steps h).append h'

end Logged

variable {block : BlockId} {source : Nat} {before : Option Nat} {scope : Scope} {c c' : Context}
  {region : Region} {log : List Emission}

theorem Walks.logged (h : Walks block source before scope c region c' log) : Logged c log c' := by
  induction h with
  | stop => exact .of_steps .refl
  | jump => exact .of_steps (.single (.append _ rfl rfl))
  | loop _ _ _ _ _ _ ihbody ihrest =>
    exact .append (.after ((Relation.ReflTransGen.single (.report _)).tail .openLoop) ihbody) ihrest
  | branch hcode _ hemit _ _ _ _ _ ih =>
    exact (Logged.of_emitBody hcode hemit).append ih
  | cond hcode _ hemit _ hcondition _ _ _ _ _ _ _ _ _ ihtrue ihfalse ihrest =>
    refine (Logged.of_emitBody hcode hemit).append (.append (.append (.after ?_ ihtrue) ihfalse) ihrest)
    exact (Relation.ReflTransGen.single (.plain (grows_of_registerOperand hcondition))).tail (.openConditional _)
  | leave hcode _ hemit hop hc' =>
    subst hc'
    refine (Logged.of_emitBody hcode hemit).append (.of_steps (.single (.append _ ?_ ?_)))
    all_goals rcases hop with ⟨-, rfl⟩ | ⟨-, rfl⟩ <;> rfl
  | returnValue hcode _ hemit _ hreturn =>
    obtain ⟨d', hgrows, rfl⟩ := grows_of_returnValue hreturn
    refine (Logged.of_emitBody hcode hemit).append (.of_steps ?_)
    exact (Relation.ReflTransGen.single (.plain hgrows)).tail (.append _ rfl rfl)

/-! ### Where code is made -/

/-- A block that holds no code yet. -/
structure IsFresh (c : Context) (b : BlockId) : Prop where
  lt : b < c.function.blocks.size
  code : c.function.code b = []

namespace IsFresh

variable {b other : BlockId}

theorem builds (h : IsFresh c b) (hb : Builds other c c') (hne : b ≠ other) : IsFresh c' b :=
  ⟨Nat.lt_of_lt_of_le h.lt hb.size, (hb.code b hne h.lt).trans h.code⟩

theorem openLoop (c : Context) (e : Event) (hle : c.function.blocks.size ≤ b)
    (hlt : b < c.function.blocks.size + 2) : IsFresh (c.reported e).openLoop b where
  lt := by
    rw [Context.size_openLoop]
    exact hlt
  code := (Context.code_openLoop _ b).trans (Function.code_of_size_le hle)

theorem openConditional (c : Context) (source : Nat) (hle : c.function.blocks.size ≤ b)
    (hlt : b < c.function.blocks.size + 3) : IsFresh (c.openConditional source) b where
  lt := by
    rw [Context.size_openConditional]
    exact hlt
  code := (c.code_openConditional source b).trans (Function.code_of_size_le hle)

end IsFresh

/-- Each code continues the one before it, and the first continues `before`. -/
def Chained : Option Nat → List Emission → Prop
  | _, [] => True
  | before, e :: log => e.before = before ∧ Chained (some e.source) log

theorem Chained.append {log' : List Emission} (h : Chained before log) (h' : Chained before log')
    (hnil : log = [] ∨ log' = []) : Chained before (log ++ log') := by
  grind

/-- The code that is made in a block. -/
def madeIn (log : List Emission) (b : BlockId) : List Emission := log.filter (·.block = b)

theorem madeIn_append {log' : List Emission} :
    madeIn (log ++ log') b = madeIn log b ++ madeIn log' b := filter_append ..

theorem Walks.madeIn_eq_nil (h : Walks block source before scope c region c' log) (hb : b ≠ block)
    (hold : b < c.function.blocks.size ∨ c'.function.blocks.size ≤ b) : madeIn log b = [] := by
  rw [madeIn, filter_eq_nil_iff]
  intro e he
  have := h.block_of_mem he
  simp only [decide_eq_true_eq]
  lia

/-- Two walks, one after the other, make code in different blocks. -/
theorem Walks.madeIn_eq_nil_or {b' : BlockId} {source' : Nat} {before' : Option Nat} {scope' : Scope}
    {d d' : Context} {region' : Region} {log' : List Emission}
    (h : Walks block source before scope c region c' log)
    (h' : Walks b' source' before' scope' d region' d' log') (hblock : block < c.function.blocks.size)
    (hb' : b' < c.function.blocks.size) (hne : block ≠ b')
    (hle : c'.function.blocks.size ≤ d.function.blocks.size) : madeIn log b = [] ∨ madeIn log' b = [] := by
  have hsize := h.builds.size
  by_cases hb : b ≠ block ∧ (b < c.function.blocks.size ∨ c'.function.blocks.size ≤ b)
  · exact .inl (h.madeIn_eq_nil hb.1 hb.2)
  · exact .inr (h'.madeIn_eq_nil (by lia) (by lia))

theorem chained_singleton (e : Emission) : Chained (if b = e.block then e.before else none) (madeIn [e] b) := by
  by_cases hb : b = e.block
  · rw [if_pos hb, madeIn, filter_cons_of_pos (by simpa using hb.symm)]
    exact ⟨rfl, trivial⟩
  · rw [madeIn, filter_cons_of_neg (by simpa using Ne.symm hb)]
    trivial

theorem Walks.chained (h : Walks block source before scope c region c' log)
    (hblock : block < c.function.blocks.size) (b : BlockId) :
    Chained (if b = block then before else none) (madeIn log b) := by
  induction h with
  | stop => trivial
  | jump => trivial
  | loop _ _ _ _ hbody hrest ihbody ihrest =>
    have hsizes := sizes_of_loop hbody.builds hrest.builds
    have h₁ := ihbody (by grind)
    have h₂ := ihrest (by lia)
    rw [ite_self] at h₁ h₂
    rw [madeIn_append]
    split
    · rw [hbody.madeIn_eq_nil (by lia) (by grind), hrest.madeIn_eq_nil (by lia) (by lia)]
      trivial
    · exact h₁.append h₂ (hbody.madeIn_eq_nil_or hrest (by grind) (by grind) (by lia) (by lia))
  | branch _ _ hemit _ _ _ _ _ ih =>
    have hrest := ih (by rwa [size_of_emitBody hemit])
    rw [madeIn]
    split
    · next hb =>
      rw [if_pos hb] at hrest
      rw [filter_cons_of_pos (by simp [hb])]
      exact ⟨rfl, hrest⟩
    · next hb =>
      rw [if_neg hb] at hrest
      rwa [filter_cons_of_neg (by simpa using Ne.symm hb)]
  | cond _ _ hemit _ hcondition _ _ _ _ _ _ htrueArm hfalseArm hrest ihtrue ihfalse ihrest =>
    have hsizes := sizes_of_cond hemit hcondition htrueArm.builds hfalseArm.builds hrest.builds
    have h₁ := ihtrue (by grind)
    have h₂ := ihfalse (by lia)
    have h₃ := ihrest (by lia)
    rw [ite_self] at h₁ h₂ h₃
    rw [madeIn]
    split
    · next hb =>
      rw [filter_cons_of_pos (by simp [hb])]
      refine ⟨rfl, ?_⟩
      rw [← madeIn, madeIn_append, madeIn_append, htrueArm.madeIn_eq_nil (by lia) (by grind),
        hfalseArm.madeIn_eq_nil (by lia) (by lia), hrest.madeIn_eq_nil (by lia) (by lia)]
      trivial
    · next hb =>
      rw [filter_cons_of_neg (by simpa using Ne.symm hb), ← madeIn, madeIn_append, madeIn_append]
      refine (h₁.append h₂ ?_).append h₃ ?_
      · exact htrueArm.madeIn_eq_nil_or hfalseArm (by grind) (by grind) (by lia) (by lia)
      · -- a block belongs to one of the arms or to what follows them
        rcases hfalseArm.madeIn_eq_nil_or hrest (by lia) (by lia) (by lia) (by lia) with hnil | hnil
        · rw [hnil, append_nil]
          exact htrueArm.madeIn_eq_nil_or hrest (by grind) (by grind) (by lia) (by lia)
        · exact .inr hnil
  | leave | returnValue => exact chained_singleton ⟨_, _, _, _, _, _⟩

theorem Chained.before_ne_none {s : Nat} (h : Chained (some s) log) (he : e ∈ log) : e.before ≠ none := by
  induction log generalizing s with
  | nil => cases he
  | cons e' log ih =>
    rcases mem_cons.mp he with rfl | he
    · rw [h.1]
      exact nofun
    · exact ih h.2 he

theorem Chained.head?_eq (h : Chained before log) (he : e ∈ log) (hbefore : e.before = none) :
    log.head? = some e := by
  cases log with
  | nil => cases he
  | cons e' log =>
    rcases mem_cons.mp he with rfl | he
    · rfl
    · exact (h.2.before_ne_none he hbefore).elim

theorem sourcesIn_map_entry (log : List Emission) (b : BlockId) :
    sourcesIn (log.map Emission.entry) b = (madeIn log b).map (·.source) := by
  rw [sourcesIn, madeIn, filter_map, map_map]
  rfl

theorem Walks.head?_sourcesIn (h : Walks block source none scope c region c' log)
    (hblock : block < c.function.blocks.size) (he : e ∈ log) (hbefore : e.before = none) :
    (sourcesIn (log.map Emission.entry) e.block).head? = some e.source := by
  have hmem : e ∈ madeIn log e.block := mem_filter.mpr ⟨he, by simp⟩
  rw [sourcesIn_map_entry, head?_map, (h.chained hblock e.block).head?_eq hmem hbefore]
  rfl

theorem Walks.before_eq_none (h : Walks block source before scope c region c' log)
    (hbefore : ∀ s ∈ before, ∃ code, c.blocks[s]? = some code) (he : e ∈ log)
    (hlabel : labelBefore e.start e.before = none) : e.before = none := by
  have hhere {before : Option Nat} {c : Context} (hbefore : ∀ s ∈ before, ∃ code, c.blocks[s]? = some code)
      (hlabel : labelBefore c before = none) : before = none := by
    cases before with
    | none => rfl
    | some s =>
      obtain ⟨code, hcode⟩ := hbefore s rfl
      simp [labelBefore, hcode] at hlabel
  induction h with
  | stop => cases he
  | jump => cases he
  | loop _ _ _ _ _ _ ihbody ihrest =>
    grind
  | branch hcode _ hemit _ _ _ _ _ ih =>
    rcases mem_cons.mp he with rfl | he
    · exact hhere hbefore hlabel
    · refine ih (fun s hs => ?_) he
      obtain rfl := Option.some_inj.mp hs
      rw [(walksOn_of_emitBody hemit).continues.blocks]
      exact ⟨_, hcode⟩
  | cond _ _ _ _ _ _ _ _ _ _ _ _ _ _ ihtrue ihfalse ihrest =>
    grind
  | leave | returnValue =>
    grind

/-! ### Blocks -/

theorem size_append (c : Context) (block : BlockId) (i : Instruction) :
    (c.append block i).function.blocks.size = c.function.blocks.size := Function.insert_size

theorem mem_blocks_last (h : c'.function.blocks.size = c.function.blocks.size) : b ∈ (Region.last block).blocks ↔
      b = block ∨ c.function.blocks.size ≤ b ∧ b < c'.function.blocks.size := by
  rw [Region.blocks, mem_singleton]
  lia

theorem Walks.mem_blocks_iff (h : Walks block source before scope c region c' log) : b ∈ region.blocks ↔
      b = block ∨ c.function.blocks.size ≤ b ∧ b < c'.function.blocks.size := by
  induction h with
  | stop => exact mem_blocks_last rfl
  | jump => exact mem_blocks_last (size_append ..)
  | loop _ _ _ _ hbody hrest ihbody ihrest =>
    have hsizes := sizes_of_loop hbody.builds hrest.builds
    rw [Region.blocks, mem_cons, mem_append, ihbody, ihrest, Context.size_openLoop_reported]
    lia
  | branch _ _ hemit _ _ _ _ _ ih => rw [ih, size_of_emitBody hemit]
  | cond _ _ hemit _ hcondition _ _ _ _ _ _ htrueArm hfalseArm hrest ihtrue ihfalse ihrest =>
    have hsizes := sizes_of_cond hemit hcondition htrueArm.builds hfalseArm.builds hrest.builds
    rw [Region.blocks, mem_cons, mem_append, mem_append, ihtrue, ihfalse, ihrest, Context.size_openConditional]
    lia
  | leave _ _ hemit _ hc' => exact mem_blocks_last (hc' ▸ (size_append ..).trans (size_of_emitBody hemit))
  | returnValue _ _ hemit _ hreturn =>
    obtain ⟨d', hgrows, rfl⟩ := grows_of_returnValue hreturn
    exact mem_blocks_last ((size_append ..).trans (hgrows.size_blocks.trans (size_of_emitBody hemit)))

theorem code_of_emitBody {d : Context} (h : emitBody block source code before c = .ok () d)
    (hb : b ≠ block) : d.function.code b = c.function.code b := by
  obtain ⟨d', hgrows, rfl⟩ := grows_of_emitBody h
  exact hgrows.code_of_ne hb

theorem Walks.jump_of_mem (h : Walks block source before scope c region c' log)
    (hb : ∀ e ∈ log, e.block ≠ b) {r : Register} (hr : r ∈ c'.function.code b) :
    r ∈ c.function.code b ∨ ∃ j, c'.function.instructions[r]? = some (.jump j) := by
  induction h with
  | stop => exact .inl hr
  | @jump block _ _ _ c j =>
    change r ∈ (c.function.insert (.append block) (.jump j)).2.code b at hr
    rcases Function.mem_code_insert.mp hr with hr | ⟨rfl, -, -⟩
    · exact .inl hr
    · refine .inr ⟨j, ?_⟩
      change (c.function.insert (.append block) (.jump j)).2.instructions[_]? = _
      simp
  | loop _ _ _ _ _ hrest ihbody ihrest =>
    have hkeeps := hrest.logged.steps.continues.instructions
    rcases ihrest (fun e he => hb e (mem_append_right _ he)) hr with hr | hr
    · rcases ihbody (fun e he => hb e (mem_append_left _ he)) hr with hr | ⟨j, hj⟩
      · rw [Context.code_openLoop] at hr
        exact .inl hr
      · exact .inr ⟨j, hkeeps r _ hj⟩
    · exact .inr hr
  | branch _ _ hemit _ _ _ _ _ ih =>
    rw [← code_of_emitBody hemit (hb _ (mem_cons_self ..)).symm]
    exact ih (fun e he => hb e (mem_cons_of_mem _ he)) hr
  | cond _ _ hemit _ hcondition _ _ _ _ _ _ _ hfalseArm hrest ihtrue ihfalse ihrest =>
    have hne := (hb _ (mem_cons_self ..)).symm
    have hkeeps := hrest.logged.steps.continues.instructions
    have hkeeps' := hfalseArm.logged.steps.continues.instructions
    have hb' := fun e he => hb e (mem_cons_of_mem _ he)
    simp only [mem_append] at hb'
    rcases ihrest (fun e he => hb' e (.inr he)) hr with hr | hr
    · rcases ihfalse (fun e he => hb' e (.inl (.inr he))) hr with hr | ⟨j, hj⟩
      · rcases ihtrue (fun e he => hb' e (.inl (.inl he))) hr with hr | ⟨j, hj⟩
        · rw [Context.code_openConditional, (grows_of_registerOperand hcondition).code_of_ne hne,
            code_of_emitBody hemit hne] at hr
          exact .inl hr
        · exact .inr ⟨j, hkeeps r _ (hkeeps' r _ hj)⟩
      · exact .inr ⟨j, hkeeps r _ hj⟩
    · exact .inr hr
  | leave _ _ hemit _ hc' =>
    have hne := (hb _ (mem_cons_self ..)).symm
    rw [hc'] at hr
    change r ∈ (Function.insert _ (.append _) _).2.code b at hr
    rw [Function.code_insert_of_ne hne, code_of_emitBody hemit hne] at hr
    exact .inl hr
  | returnValue _ _ hemit _ hreturn =>
    have hne := (hb _ (mem_cons_self ..)).symm
    obtain ⟨d', hgrows, rfl⟩ := grows_of_returnValue hreturn
    change r ∈ (d'.function.insert (.append _) _).2.code b at hr
    rw [Function.code_insert_of_ne hne, hgrows.code_of_ne hne, code_of_emitBody hemit hne] at hr
    exact .inl hr

end Structure

end ShaderIR.Spirv
