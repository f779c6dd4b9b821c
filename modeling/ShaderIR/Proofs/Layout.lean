import ShaderIR.Proofs.Leaves
import ShaderIR.Proofs.Walk

/-!
# How regions lay out the blocks of a stream

The blocks of a finished function hold chains of blocks of the stream, each of which branches to the
next. What follows a chain depends on how control leaves the block that holds it: `Laid` says that a
region carries on from a block of the stream, with jumps where branches leave the region, arms where
a branch goes two ways, and a loop where one starts.
-/

namespace ShaderIR.Spirv

open EStateM List Lower

/-- A finished function beside what the walk over its blocks of the stream left behind. -/
structure Chart where
  /-- The state after the walk. -/
  context : Context
  /-- Where the code of which block of the stream was made, in order. -/
  log : List (Nat × BlockId)
  /-- The function as it was finished after the walk. -/
  function : Function

namespace Chart

/-- The block of the stream with a number. -/
def code? (v : Chart) (source : Nat) : Option SourceBlock := v.context.blocks[source]?

/-- The block of the stream as which control leaves a block. -/
def end? (v : Chart) (b : BlockId) : Option Nat := v.context.ends.lookup b

/-- After a block has run, a register holds what an id stands for. -/
def Holds (v : Chart) (b : BlockId) (id : Id) (r : Register) : Prop :=
  (∃ key ty, v.context.ids.get id = .ok (.tree (.leaf key ty r))) ∨
    ∃ k bits, v.context.ids.get id = .ok (.constant k) ∧ (v.context.constantAt k).value = .flat bits ∧
      r ∈ v.function.code b ∧ v.function.instructions[r]? = some (.loadConst bits)

/-- A block of the stream ends in a branch to another. -/
def Branches (v : Chart) (source target : Nat) : Prop :=
  ∃ code label, v.code? source = some code ∧ code.terminator.op = .opBranch ∧
    code.terminator.operand 0 = .ok label ∧ v.context.ids.block label = .ok target

/-- A block of the stream ends the function or drops the fragment. -/
def Leaves (v : Chart) (source : Nat) : Prop := ∃ code, v.code? source = some code ∧
    (code.terminator.op = .opReturn ∨ code.terminator.op = .opReturnValue ∨ code.terminator.op = .opKill)

/-- A block of the stream ends in a two-way branch on an id. -/
def Forks (v : Chart) (source : Nat) (condition : Id) (onTrue onFalse : Nat) : Prop :=
  ∃ code trueLabel falseLabel, v.code? source = some code ∧
    code.terminator.op = .opBranchConditional ∧ code.terminator.operand 0 = .ok condition ∧
    code.terminator.operand 1 = .ok trueLabel ∧ v.context.ids.block trueLabel = .ok onTrue ∧
    code.terminator.operand 2 = .ok falseLabel ∧ v.context.ids.block falseLabel = .ok onFalse

/-- Control leaves a block as the last block of the stream in it, or as `mark` if there is none. -/
def Marked (v : Chart) (mark : Option Nat) (b : BlockId) : Prop := v.end? b = (sourcesIn v.log b).getLast?.or mark

end Chart

/-- A region carries on from a block of the stream in a scope, where `chain` are the blocks of the
stream that are still to come in its first block. -/
inductive Laid (v : Chart) : Scope → Nat → List Nat → Region → Prop
  /-- What is behind the region follows. -/
  | stop {scope s b} (hstop : scope.stop = some s) (hexit : v.function.exit? b = none) :
      Laid v scope s [] (.last b)
  | jump {scope s b j} (hjump : scope.jump? s = some j) (hexit : v.function.exit? b = some j) :
      Laid v scope s [] (.last b)
  | branch {scope s t chain region} (hbranch : v.Branches s t) (hrest : Laid v scope t chain region) :
      Laid v scope s (s :: chain) region
  | leave {scope s b} (hleave : v.Leaves s) (hexit : v.function.exit? b = some .return) :
      Laid v scope s [s] (.last b)
  | cond {scope s b node condition r onTrue onFalse m trueArm falseArm rest}
      (hfork : v.Forks s condition onTrue onFalse) (hexit : v.function.exit? b = none)
      (hholds : v.Holds b condition r)
      (hmarkTrue : v.Marked (some s) trueArm.head) (hmarkFalse : v.Marked (some s) falseArm.head)
      (hmark : v.Marked none rest.head)
      (htrue : Laid v { scope with stop := some m } onTrue (sourcesIn v.log trueArm.head) trueArm)
      (hfalse : Laid v { scope with stop := some m } onFalse (sourcesIn v.log falseArm.head) falseArm)
      (hrest : Laid v scope m (sourcesIn v.log rest.head) rest) :
      Laid v scope s [s] (.cond b node r trueArm falseArm rest)
  | loop {scope s b node m body rest} (hexit : v.function.exit? b = none)
      (hmarkBody : v.Marked none body.head) (hmark : v.Marked none rest.head)
      (hbody : Laid v { breakTo := some m, continueTo := some s } s (sourcesIn v.log body.head) body)
      (hrest : Laid v scope m (sourcesIn v.log rest.head) rest) :
      Laid v scope s [] (.loop b node body rest)

/-! ### Conditions -/

variable {r : Register}

theorem register_eq_ok {t : Tree} {c c' : Context} :
    Lower.register t c = .ok r c' ↔ t.register? = some r ∧ c' = c := by
  unfold Lower.register
  cases t.register? with
  | none => simp [meaningless_eq_ok]
  | some r' => simp [pure_eq_ok, eq_comm]

/-- A constant whose tree is a single register is loaded into it. -/
theorem Emit.constantTree_register {k : ConstantId} {block : BlockId} {c c' : Context} {t : Tree}
    (hblock : block < c.function.blocks.size) (h : Emit.constantTree k (.append block) c = .ok t c')
    (ht : t.register? = some r) :
    ∃ bits, (c.constantAt k).value = .flat bits ∧
      r ∈ c'.function.code block ∧ c'.function.instructions[r]? = some (.loadConst bits) := by
  have hnode {ty : TypeId} {ts : List Tree} {d d' : Context} {t : Tree}
      (h : Lower.node ty ts d = .ok t d') : t.register? = none := by
    obtain ⟨rfl, -⟩ := node_eq_ok.mp h
    rfl
  unfold constantTree at h
  rw [getBind_eq_ok, constantTreeWithin, look_eq_ok] at h
  obtain ⟨constant, hconstant, h⟩ := h
  obtain ⟨rfl, -⟩ := constant_eq_ok.mp hconstant
  cases hvalue : (c.constantAt k).value with
  | composite children =>
    simp only [hvalue] at h
    obtain ⟨ts, d, -, h⟩ := bind_eq_ok.mp h
    rw [hnode h] at ht
    cases ht
  | flat bits =>
    simp only [hvalue] at h
    obtain ⟨shape, -, h⟩ := look_eq_ok.mp h
    have hleaf : (do Lower.leaf (c.constantAt k).ty (← loadConst bits) : Emit Tree) (.append block) c =
        .ok t c' := by
      cases shape with
      | matrix =>
        obtain ⟨_, d, -, h⟩ := bind_eq_ok.mp h
        obtain ⟨_, d', -, h⟩ := bind_eq_ok.mp h
        rw [hnode h] at ht
        cases ht
      | _ => exact h
    obtain ⟨r', d, hload, hleaf⟩ := bind_eq_ok.mp hleaf
    obtain ⟨rfl, rfl⟩ := insertAt_eq_ok.mp hload
    obtain ⟨rfl, rfl⟩ := leaf_eq_ok.mp hleaf
    cases ht
    refine ⟨bits, rfl, ?_, ?_⟩
    · change _ ∈ (c.function.insert _ _).2.code block
      rw [Function.code_insert_append hblock]
      simp
    · change (c.function.insert _ _).2.instructions[_]? = _
      simp

/-- The register of an operand holds what the operand names, once the block has run. -/
theorem Emit.registerOperand_eq_ok {i : RawInstruction} {index : Nat} {block : BlockId}
    {c c' : Context} (hblock : block < c.function.blocks.size)
    (h : Emit.registerOperand i index (.append block) c = .ok r c') :
    ∃ id, i.operand index = .ok id ∧ ((∃ key ty, c.ids.get id = .ok (.tree (.leaf key ty r))) ∨
        ∃ k bits, c.ids.get id = .ok (.constant k) ∧ (c.constantAt k).value = .flat bits ∧
          r ∈ c'.function.code block ∧ c'.function.instructions[r]? = some (.loadConst bits)) := by
  unfold registerOperand at h
  rw [look_eq_ok] at h
  obtain ⟨id, hid, h⟩ := h
  refine ⟨id, (operand_eq_ok.mp hid).1, ?_⟩
  obtain ⟨t, d, ht, hr⟩ := bind_eq_ok.mp h
  obtain ⟨hregister, rfl⟩ := register_eq_ok.mp hr
  unfold treeOf at ht
  rw [look_eq_ok] at ht
  obtain ⟨v, hv, ht⟩ := ht
  have hget := (lookup_eq_ok.mp hv).1
  cases v with
  | tree t' =>
    obtain ⟨rfl, rfl⟩ := pure_eq_ok.mp ht
    cases t' with
    | leaf key ty r' =>
      cases hregister
      exact .inl ⟨key, ty, hget⟩
    | node => cases hregister
  | constant k =>
    obtain ⟨bits, hbits, hmem, hi⟩ := constantTree_register hblock ht hregister
    exact .inr ⟨k, bits, hget, hbits, hmem, hi⟩
  | _ => exact (throw_eq_ok.mp ht).elim

/-! ### From walks to layouts -/

namespace Structure

/-- What a chart says of some blocks is what the state at the end of a walk over them says. -/
structure Agrees (v : Chart) (own : BlockId → Prop) (c : Context) : Prop where
  blocks : v.context.blocks = c.blocks
  ids : c.ids.Extends v.context.ids
  constants : v.context.module.constants = c.module.constants
  loads : ∀ (r : Register) (bits : List Word), c.function.instructions[r]? = some (.loadConst bits) →
      v.function.instructions[r]? = some (.loadConst bits)
  exit : ∀ b, own b → v.function.exit? b = c.function.exit? b
  code : ∀ b, own b → ∀ r ∈ c.function.code b, r ∈ v.function.code b
  ends : ∀ b, own b → v.end? b = c.ends.lookup b

/-- The blocks that a walk builds on. -/
def Own (block : BlockId) (c c' : Context) (b : BlockId) : Prop :=
  b = block ∨ c.function.blocks.size ≤ b ∧ b < c'.function.blocks.size

variable {v : Chart} {own own' : BlockId → Prop} {c c' d : Context} {block other : BlockId}
  {source : Nat} {before : Option Nat} {scope : Scope} {region : Region} {log : List Emission}

theorem Builds.getElem?_instructions (h : Builds block c c') {i : Instruction}
    (hi : c.function.instructions[r]? = some i) : c'.function.instructions[r]? = some i := by
  obtain ⟨is, his⟩ := h.instructions
  grind

theorem Agrees.prior (h : Agrees v own c') (hb : Builds other c c') (hr : c.function.InRange)
    (hown : ∀ b, own' b → own b ∧ b ≠ other ∧ b < c.function.blocks.size) : Agrees v own' c where
  blocks := h.blocks.trans hb.blocks
  ids := hb.ids.trans h.ids
  constants := h.constants.trans hb.constants
  loads := fun r bits hi => h.loads r bits (hb.getElem?_instructions hi)
  exit := fun b hb' => by
    obtain ⟨ho, hne, hlt⟩ := hown b hb'
    rw [h.exit b ho, hb.exit? hr hne hlt]
  code := fun b hb' r hr' => by
    obtain ⟨ho, hne, hlt⟩ := hown b hb'
    refine h.code b ho r ?_
    rwa [hb.code b hne hlt]
  ends := fun b hb' => by
    obtain ⟨ho, hne, hlt⟩ := hown b hb'
    rw [h.ends b ho, hb.lookup_ends hne hlt]

theorem Agrees.mono (h : Agrees v own c) (hown : ∀ b, own' b → own b) : Agrees v own' c where
  blocks := h.blocks
  ids := h.ids
  constants := h.constants
  loads := h.loads
  exit := fun b hb => h.exit b (hown b hb)
  code := fun b hb => h.code b (hown b hb)
  ends := fun b hb => h.ends b (hown b hb)

theorem ids_block_extends {ids ids' : IdTable} (h : ids.Extends ids') {id : Id} {n : Nat}
    (hid : ids.block id = .ok n) : ids'.block id = .ok n :=
  IdTable.block_eq_ok.mpr (h id _ (IdTable.block_eq_ok.mp hid))

/-- A block that no code has left yet. -/
structure IsOpen (c : Context) (block : BlockId) : Prop where
  lt : block < c.function.blocks.size
  exit : c.function.exit? block = none
  inRange : c.function.InRange
  /-- Control has been recorded to leave blocks that are there. -/
  ends : ∀ b, c.function.blocks.size ≤ b → c.ends.lookup b = none

namespace IsOpen

theorem of_grows (h : IsOpen c block) {spot : Spot} (hg : Grows Stays spot c d) : IsOpen d block where
  lt := by
    rw [hg.size_blocks]
    exact h.lt
  exit := (hg.exit? h.inRange (fun _ hi => hi) block).trans h.exit
  inRange := hg.inRange h.inRange
  ends := fun b hb => by
    rw [hg.size_blocks] at hb
    rw [hg.ends]
    exact h.ends b hb

theorem of_emitBody {code : SourceBlock} (h : IsOpen c block)
    (he : emitBody block source code before c = .ok () d) : IsOpen d block := by
  obtain ⟨d', hg, rfl⟩ := grows_of_emitBody he
  have hplaced : IsOpen (placedAt c source block) block := ⟨h.lt, h.exit, h.inRange, h.ends⟩
  have hd := hplaced.of_grows hg
  refine ⟨hd.lt, hd.exit, hd.inRange, fun b hb => ?_⟩
  have hlt := hd.lt
  change d'.function.blocks.size ≤ b at hb
  change List.lookup b ((block, source) :: d'.ends) = none
  rw [lookup_cons, beq_false_of_ne (by lia)]
  exact hd.ends b hb

theorem after (h : IsOpen c other) (hb : Builds block c c') (hne : other ≠ block)
    (hblock : block < c.function.blocks.size) : IsOpen c' other where
  lt := Nat.lt_of_lt_of_le h.lt hb.size
  exit := (hb.exit? h.inRange hne h.lt).trans h.exit
  inRange := hb.inRange h.inRange
  ends := fun b hle => by
    obtain ⟨new, hnew, hmem⟩ := hb.ends
    have hsize := hb.size
    have hnone : new.lookup b = none := by
      grind
    rw [hnew, lookup_append, hnone, Option.none_or]
    exact h.ends b (by lia)

variable (h : IsOpen c block)
include h

theorem openLoop (e : Event) {b : BlockId} (hle : c.function.blocks.size ≤ b)
    (hlt : b < c.function.blocks.size + 2) : IsOpen (c.reported e).openLoop b where
  lt := by
    rw [Context.size_openLoop]
    exact hlt
  exit := by
    change c.function.addBlock.2.addBlock.2.exit? b = none
    simp only [Function.exit?_addBlock]
    exact Function.exit?_of_size_le hle
  inRange := h.inRange.addBlock.addBlock
  ends := fun b' hb' => by
    rw [Context.size_openLoop] at hb'
    change c.function.blocks.size + 2 ≤ b' at hb'
    exact h.ends b' (by lia)

theorem openConditional (source : Nat) {b : BlockId} (hle : c.function.blocks.size ≤ b)
    (hlt : b < c.function.blocks.size + 3) : IsOpen (c.openConditional source) b where
  lt := by
    rw [Context.size_openConditional]
    exact hlt
  exit := by
    change c.function.addBlock.2.addBlock.2.addBlock.2.exit? b = none
    simp only [Function.exit?_addBlock]
    exact Function.exit?_of_size_le hle
  inRange := h.inRange.addBlock.addBlock.addBlock
  ends := fun b' hb' => by
    rw [Context.size_openConditional] at hb'
    change List.lookup b' ((c.function.blocks.size + 1, source) ::
      (c.function.blocks.size, source) :: c.ends) = none
    rw [lookup_cons, beq_false_of_ne (by lia), lookup_cons, beq_false_of_ne (by lia)]
    exact h.ends b' (by lia)

theorem of_loop {e : Event} {s : Nat}
    (hbody : Walks c.function.blocks.size s before scope (c.reported e).openLoop region d log) :
    IsOpen (c.reported e).openLoop c.function.blocks.size ∧ IsOpen d (c.function.blocks.size + 1) := by
  have hbodyOpen := h.openLoop e (Nat.le_refl c.function.blocks.size) (by lia)
  have hrestOpen := h.openLoop e (Nat.le_succ c.function.blocks.size) (by lia)
  exact ⟨hbodyOpen, hrestOpen.after hbody.builds (by lia) hbodyOpen.lt⟩

/-- The arms of a conditional start in open blocks, and so does what follows the conditional. -/
theorem of_cond {s s' : Nat} {before' : Option Nat} {scope' : Scope}
    {region' : Region} {log' : List Emission} {d' : Context}
    (htrue : Walks c.function.blocks.size s before scope (c.openConditional source) region d log)
    (hfalse : Walks (c.function.blocks.size + 1) s' before' scope' d region' d' log') :
    IsOpen (c.openConditional source) c.function.blocks.size ∧
      IsOpen d (c.function.blocks.size + 1) ∧ IsOpen d' (c.function.blocks.size + 2) := by
  have htrueOpen := h.openConditional source (Nat.le_refl c.function.blocks.size) (by lia)
  have hopen {n : Nat} (hn : 0 < n ∧ n < 3) : IsOpen d (c.function.blocks.size + n) :=
    (h.openConditional source (by lia) (by lia)).after htrue.builds (by lia) htrueOpen.lt
  have hfalseOpen := hopen (n := 1) (by decide)
  exact ⟨htrueOpen, hfalseOpen, (hopen (n := 2) (by decide)).after hfalse.builds (by lia) hfalseOpen.lt⟩

theorem exit?_append (i : Instruction) :
    (c.append block i).function.exit? block = i.exit? := by
  change (c.function.insert _ i).2.exit? block = _
  rw [Function.exit?_insert_append h.inRange h.lt, h.exit, Option.none_or]

end IsOpen

theorem Walks.marked (h : Walks block source before scope c region c' log)
    (hblock : block < c.function.blocks.size) (hv : Agrees v (Own block c c') c')
    (hlog : sourcesIn v.log block = sourcesIn (log.map Emission.entry) block) :
    v.Marked (c.ends.lookup block) region.head := by
  rw [Chart.Marked, h.head_eq, hv.ends block (.inl rfl), h.lookup_ends hblock, hlog]

/-- The region that a walk gives carries on from where the walk started. -/
theorem Walks.laid (h : Walks block source before scope c region c' log) (hopen : IsOpen c block)
    (hv : Agrees v (Own block c c') c')
    (hlog : ∀ b, c.function.blocks.size ≤ b → b < c'.function.blocks.size →
      sourcesIn v.log b = sourcesIn (log.map Emission.entry) b) :
    Laid v scope source (sourcesIn (log.map Emission.entry) block) region := by
  induction h with
  | stop hstop =>
    refine .stop hstop ?_
    rw [hv.exit _ (.inl rfl), hopen.exit]
  | jump hjump =>
    refine .jump hjump ?_
    rw [hv.exit _ (.inl rfl), hopen.exit?_append]
    rfl
  | @loop block _ before _ c code merge continueTarget _ body d log₁ _ c' log₂ _ _ _ _ hbody hrest
      ihbody ihrest =>
    have hstart := Builds.openLoop c.function.blocks.size c (.loop code.label merge continueTarget)
    obtain ⟨hbodyOpen, hrestOpen⟩ := hopen.of_loop hbody
    generalize hc₀ : (c.reported (.loop code.label merge continueTarget)).openLoop = c₀ at *
    have hsize : c₀.function.blocks.size = c.function.blocks.size + 2 := by
      rw [← hc₀, Context.size_openLoop]
      rfl
    have hends : c₀.ends = c.ends := by
      rw [← hc₀]
      rfl
    have hsize₁ := hbody.builds.size
    have hsize₂ := hrest.builds.size
    have hlt := hopen.lt
    -- the blocks of the body are those before the walk goes on behind the loop
    have hlog₁ : ∀ b, c.function.blocks.size ≤ b → b < d.function.blocks.size → b ≠ c.function.blocks.size + 1 →
        sourcesIn v.log b = sourcesIn (log₁.map Emission.entry) b := by
      intro b hle hlt hne
      rw [hlog b hle (by lia), map_append, sourcesIn_append, hrest.sourcesIn_eq_nil hne (.inl hlt), append_nil]
    have hlog₂ : ∀ b, b = c.function.blocks.size + 1 ∨ d.function.blocks.size ≤ b ∧ b < c'.function.blocks.size →
        sourcesIn v.log b = sourcesIn (log₂.map Emission.entry) b := by
      intro b hb
      rw [hlog b (by lia) (by lia), map_append, sourcesIn_append,
        hbody.sourcesIn_eq_nil (by lia) (by lia), nil_append]
    have hv₁ : Agrees v (Own c.function.blocks.size c₀ d) d :=
      hv.prior hrest.builds (hbody.builds.inRange hbodyOpen.inRange) fun b hb => by
        unfold Own at hb ⊢
        lia
    have hv₂ : Agrees v (Own (c.function.blocks.size + 1) d c') c' := hv.mono fun b hb => by
        unfold Own at hb ⊢
        lia
    have hchain : sourcesIn ((log₁ ++ log₂).map Emission.entry) block = [] := by
      rw [map_append, sourcesIn_append, hbody.sourcesIn_eq_nil (by lia) (by lia),
        hrest.sourcesIn_eq_nil (by lia) (by lia), append_nil]
    have hexit : v.function.exit? block = none := by
      rw [hv.exit block (.inl rfl), hrest.builds.exit? hrestOpen.inRange (by lia) (by lia),
        hbody.builds.exit? hbodyOpen.inRange (by lia) (by lia),
        hstart.exit? hopen.inRange (by lia) hlt, hopen.exit]
    have hmarkBody := hbody.marked hbodyOpen.lt hv₁ (hlog₁ _ (by lia) (by lia) (by lia))
    have hmark := hrest.marked hrestOpen.lt hv₂ (hlog₂ _ (.inl rfl))
    rw [hends, hopen.ends _ (Nat.le_refl _)] at hmarkBody
    rw [hbody.builds.lookup_ends (by lia) (by lia), hends, hopen.ends _ (by lia)] at hmark
    have hlaidBody := ihbody hbodyOpen hv₁ fun b hle hlt => hlog₁ b (by lia) hlt (by lia)
    have hlaidRest := ihrest hrestOpen hv₂ fun b hle hlt => hlog₂ b (.inr ⟨hle, hlt⟩)
    rw [← hlog₁ _ (by lia) (by lia) (by lia), ← hbody.head_eq] at hlaidBody
    rw [← hlog₂ _ (.inl rfl), ← hrest.head_eq] at hlaidRest
    rw [hchain]
    exact .loop hexit hmarkBody hmark hlaidBody hlaidRest
  | @branch _ _ _ _ _ code _ label _ _ _ _ hcode _ hemit hop hlabel htarget _ hrest ih =>
    have hb := Builds.emitBody hemit
    have hsize := hb.size
    rw [map_cons, Emission.entry, sourcesIn_cons_self]
    refine .branch ⟨code, label, ?_, hop, hlabel, ?_⟩ (ih (hopen.of_emitBody hemit) ?_ ?_)
    · rw [Chart.code?, hv.blocks, (hb.trans hrest.builds (.inl rfl)).blocks, hcode]
    · exact ids_block_extends (hrest.builds.ids.trans hv.ids) htarget
    · refine hv.mono fun b hb => hb.imp id fun hb => ?_
      lia
    · intro b hle hlt
      have hblock := hopen.lt
      rw [hlog b (by lia) hlt, map_cons, Emission.entry, sourcesIn_cons_of_ne (by lia)]
  | @cond block source before _ c code d d₁ _ trueLabel _ falseLabel _ _ _ d₂ log₁ _ d₃ log₂ _ c'
      log₃ hcode _ hemit hop hcondition htrueLabel honTrue hfalseLabel honFalse _ _ htrueArm
      hfalseArm hrest ihtrue ihfalse ihrest =>
    have hgrows := (grows_of_registerOperand hcondition).stays
    have hemitOpen := hopen.of_emitBody hemit
    have hcondOpen := hemitOpen.of_grows hgrows
    have hstart := Builds.openConditional d₁.function.blocks.size d₁ source
    have hsize : (d₁.openConditional source).function.blocks.size = d₁.function.blocks.size + 3 :=
      Context.size_openConditional d₁ source
    obtain ⟨htrueOpen, hfalseOpen, hrestOpen⟩ := hcondOpen.of_cond htrueArm hfalseArm
    have hendsTrue : (d₁.openConditional source).ends.lookup d₁.function.blocks.size = some source := by
      rw [Context.openConditional, lookup_cons, beq_false_of_ne (by lia), lookup_cons_self]
    have hendsFalse : (d₁.openConditional source).ends.lookup (d₁.function.blocks.size + 1) =
        some source := lookup_cons_self
    have hendsRest : (d₁.openConditional source).ends.lookup (d₁.function.blocks.size + 2) = none := by
      rw [Context.openConditional, lookup_cons, beq_false_of_ne (by lia), lookup_cons, beq_false_of_ne (by lia)]
      exact hcondOpen.ends _ (by lia)
    generalize d₁.openConditional source = c₀ at *
    have hsize₀ := (Builds.emitBody hemit).size
    have hsize₁ := htrueArm.builds.size
    have hsize₂ := hfalseArm.builds.size
    have hsize₃ := hrest.builds.size
    have hsame := hgrows.size_blocks
    have hlt := hopen.lt
    have hsplit : ∀ b, b ≠ block →
        sourcesIn ((⟨source, block, before, code, c, d⟩ :: (log₁ ++ log₂ ++ log₃)).map Emission.entry) b =
        sourcesIn (log₁.map Emission.entry) b ++ sourcesIn (log₂.map Emission.entry) b ++
          sourcesIn (log₃.map Emission.entry) b := by
      intro b hne
      rw [map_cons, Emission.entry, sourcesIn_cons_of_ne hne.symm, map_append,
        map_append, sourcesIn_append, sourcesIn_append]
    -- each block that was made is of one of the arms or behind them
    have hlog₁ : ∀ b, b = d₁.function.blocks.size ∨ c₀.function.blocks.size ≤ b ∧ b < d₂.function.blocks.size →
        sourcesIn v.log b = sourcesIn (log₁.map Emission.entry) b := by
      intro b hb
      rw [hlog b (by lia) (by lia), hsplit b (by lia), hfalseArm.sourcesIn_eq_nil (by lia) (by lia),
        hrest.sourcesIn_eq_nil (by lia) (by lia), append_nil, append_nil]
    have hlog₂ : ∀ b, b = d₁.function.blocks.size + 1 ∨
        d₂.function.blocks.size ≤ b ∧ b < d₃.function.blocks.size →
        sourcesIn v.log b = sourcesIn (log₂.map Emission.entry) b := by
      intro b hb
      rw [hlog b (by lia) (by lia), hsplit b (by lia), htrueArm.sourcesIn_eq_nil (by lia) (by lia),
        hrest.sourcesIn_eq_nil (by lia) (by lia), append_nil, nil_append]
    have hlog₃ : ∀ b, b = d₁.function.blocks.size + 2 ∨
        d₃.function.blocks.size ≤ b ∧ b < c'.function.blocks.size →
        sourcesIn v.log b = sourcesIn (log₃.map Emission.entry) b := by
      intro b hb
      rw [hlog b (by lia) (by lia), hsplit b (by lia), htrueArm.sourcesIn_eq_nil (by lia) (by lia),
        hfalseArm.sourcesIn_eq_nil (by lia) (by lia), nil_append, nil_append]
    have hv₂ : Agrees v (fun b => b = block ∨ c.function.blocks.size ≤ b ∧
        b ≠ d₁.function.blocks.size + 2 ∧ b < d₃.function.blocks.size) d₃ :=
      hv.prior hrest.builds hrestOpen.inRange fun b hb => by
        unfold Own
        lia
    have hv₁ : Agrees v (fun b => b = block ∨ b = d₁.function.blocks.size ∨
        c₀.function.blocks.size ≤ b ∧ b < d₂.function.blocks.size) d₂ :=
      hv₂.prior hfalseArm.builds hfalseOpen.inRange fun b hb => by lia
    have hv₀ : Agrees v (fun b => b = block) c₀ := hv₁.prior htrueArm.builds htrueOpen.inRange fun b hb => by lia
    have hvTrue : Agrees v (Own d₁.function.blocks.size c₀ d₂) d₂ := hv₁.mono fun b hb => .inr hb
    have hvFalse : Agrees v (Own (d₁.function.blocks.size + 1) d₂ d₃) d₃ := hv₂.mono fun b hb => by
        unfold Own at hb
        lia
    have hvRest : Agrees v (Own (d₁.function.blocks.size + 2) d₃ c') c' := hv.mono fun b hb => by
        unfold Own at hb ⊢
        lia
    have hmarkTrue := htrueArm.marked htrueOpen.lt hvTrue (hlog₁ _ (.inl rfl))
    have hmarkFalse := hfalseArm.marked hfalseOpen.lt hvFalse (hlog₂ _ (.inl rfl))
    have hmark := hrest.marked hrestOpen.lt hvRest (hlog₃ _ (.inl rfl))
    rw [hendsTrue] at hmarkTrue
    rw [htrueArm.builds.lookup_ends (by lia) (by lia), hendsFalse] at hmarkFalse
    rw [hfalseArm.builds.lookup_ends (by lia) (by lia),
      htrueArm.builds.lookup_ends (by lia) (by lia), hendsRest] at hmark
    have hlaidTrue := ihtrue htrueOpen hvTrue fun b hle hlt => hlog₁ b (.inr ⟨hle, hlt⟩)
    have hlaidFalse := ihfalse hfalseOpen hvFalse fun b hle hlt => hlog₂ b (.inr ⟨hle, hlt⟩)
    have hlaidRest := ihrest hrestOpen hvRest fun b hle hlt => hlog₃ b (.inr ⟨hle, hlt⟩)
    rw [← hlog₁ _ (.inl rfl), ← htrueArm.head_eq] at hlaidTrue
    rw [← hlog₂ _ (.inl rfl), ← hfalseArm.head_eq] at hlaidFalse
    rw [← hlog₃ _ (.inl rfl), ← hrest.head_eq] at hlaidRest
    have hchain : sourcesIn ((⟨source, block, before, code, c, d⟩ :: (log₁ ++ log₂ ++ log₃)).map
        Emission.entry) block = [source] := by
      rw [map_cons, Emission.entry, sourcesIn_cons_self, map_append, map_append,
        sourcesIn_append, sourcesIn_append, htrueArm.sourcesIn_eq_nil (by lia) (by lia),
        hfalseArm.sourcesIn_eq_nil (by lia) (by lia), hrest.sourcesIn_eq_nil (by lia) (by lia)]
      rfl
    have hexit : v.function.exit? block = none := by
      rw [hv₀.exit block rfl, hstart.exit? hcondOpen.inRange (by lia) hcondOpen.lt, hcondOpen.exit]
    have hblocks : v.context.blocks = c.blocks := by
      rw [hv₀.blocks, hstart.blocks, hgrows.blocks, (Builds.emitBody hemit).blocks]
    have hids : d₁.ids.Extends v.context.ids := hstart.ids.trans hv₀.ids
    obtain ⟨id, hid, hholds⟩ := Emit.registerOperand_eq_ok hemitOpen.lt hcondition
    rw [hchain]
    refine .cond ⟨code, trueLabel, falseLabel, ?_, hop, hid, htrueLabel, ids_block_extends hids honTrue,
      hfalseLabel, ids_block_extends hids honFalse⟩ hexit ?_ hmarkTrue hmarkFalse hmark hlaidTrue
      hlaidFalse hlaidRest
    · rw [Chart.code?, hblocks, hcode]
    · rcases hholds with ⟨key, ty, hget⟩ | ⟨k, bits, hget, hbits, hmem, hi⟩
      · exact .inl ⟨key, ty, hids id _ (hgrows.ids id _ hget)⟩
      · refine .inr ⟨k, bits, hids id _ (hgrows.ids id _ hget), ?_, ?_, ?_⟩
        · rwa [Context.constantAt, hv₀.constants, hstart.constants, hgrows.constants]
        · refine hv₀.code block rfl _ ?_
          rwa [hstart.code block (by lia) hcondOpen.lt]
        · exact hv₀.loads _ _ (hstart.getElem?_instructions hi)
  | @leave block _ _ _ c code _ c' _ hcode _ hemit hop hc' =>
    have hb : Builds block c c' := hc' ▸ (Builds.emitBody hemit).trans (.append ..) (.inl rfl)
    rw [map_singleton, Emission.entry, sourcesIn_cons_self, sourcesIn_nil]
    refine .leave ⟨code, ?_, hop.elim (fun h => .inl h.1) fun h => .inr (.inr h.1)⟩ ?_
    · rw [Chart.code?, hv.blocks, hb.blocks, hcode]
    · rw [hv.exit _ (.inl rfl), hc', (hopen.of_emitBody hemit).exit?_append]
      rcases hop with ⟨-, rfl⟩ | ⟨-, rfl⟩ <;> rfl
  | @returnValue block _ _ _ c code _ c' hcode _ hemit hop hreturn =>
    have hb : Builds block c c' := (Builds.emitBody hemit).trans (.returnValue hreturn) (.inl rfl)
    obtain ⟨d', hgrows, hc'⟩ := grows_of_returnValue hreturn
    rw [map_singleton, Emission.entry, sourcesIn_cons_self, sourcesIn_nil]
    refine .leave ⟨code, ?_, .inr (.inl hop)⟩ ?_
    · rw [Chart.code?, hv.blocks, hb.blocks, hcode]
    · rw [hv.exit _ (.inl rfl), hc', ((hopen.of_emitBody hemit).of_grows hgrows.stays).exit?_append]
      rfl

/-! ### Blocks end in their jumps -/

theorem IsOpen.leavesLast_of_grows (h : IsOpen c block) (hg : Grows Stays (.append block) c d)
    (ht : c.function.LeavesLast) : d.function.LeavesLast := by
  obtain ⟨is, locals, his, hf⟩ := hg.function
  rw [hf]
  exact ht.insertAll_append h.inRange h.lt h.exit his

theorem IsOpen.leavesLast_append (h : IsOpen c block) (i : Instruction) (ht : c.function.LeavesLast) :
    (c.append block i).function.LeavesLast := ht.insert_append h.inRange h.lt h.exit

theorem IsOpen.leavesLast_emitBody {code : SourceBlock} (h : IsOpen c block)
    (he : emitBody block source code before c = .ok () d) (ht : c.function.LeavesLast) :
    d.function.LeavesLast := by
  obtain ⟨d', hg, rfl⟩ := grows_of_emitBody he
  have hplaced : IsOpen (placedAt c source block) block := ⟨h.lt, h.exit, h.inRange, h.ends⟩
  have hd' : d'.function.LeavesLast := hplaced.leavesLast_of_grows hg ht
  exact hd'

theorem Walks.leavesLast (h : Walks block source before scope c region c' log) (hopen : IsOpen c block)
    (ht : c.function.LeavesLast) : c'.function.LeavesLast := by
  induction h with
  | stop => exact ht
  | jump => exact hopen.leavesLast_append _ ht
  | loop _ _ _ _ hbody _ ihbody ihrest =>
    obtain ⟨hbodyOpen, hrestOpen⟩ := hopen.of_loop hbody
    exact ihrest hrestOpen (ihbody hbodyOpen ht.addBlock.addBlock)
  | branch _ _ hemit _ _ _ _ _ ih => exact ih (hopen.of_emitBody hemit) (hopen.leavesLast_emitBody hemit ht)
  | cond _ _ hemit _ hcondition _ _ _ _ _ _ htrueArm hfalseArm _ ihtrue ihfalse ihrest =>
    have hgrows := (grows_of_registerOperand hcondition).stays
    have hemitOpen := hopen.of_emitBody hemit
    have hcond := hemitOpen.leavesLast_of_grows hgrows (hopen.leavesLast_emitBody hemit ht)
    obtain ⟨htrueOpen, hfalseOpen, hrestOpen⟩ := (hemitOpen.of_grows hgrows).of_cond htrueArm hfalseArm
    exact ihrest hrestOpen (ihfalse hfalseOpen (ihtrue htrueOpen hcond.addBlock.addBlock.addBlock))
  | leave _ _ hemit _ hc' =>
    rw [hc']
    exact (hopen.of_emitBody hemit).leavesLast_append _ (hopen.leavesLast_emitBody hemit ht)
  | returnValue _ _ hemit _ hreturn =>
    obtain ⟨d', hgrows, rfl⟩ := grows_of_returnValue hreturn
    have hemitOpen := hopen.of_emitBody hemit
    exact (hemitOpen.of_grows hgrows.stays).leavesLast_append _
      (hemitOpen.leavesLast_of_grows hgrows.stays (hopen.leavesLast_emitBody hemit ht))

end Structure

end ShaderIR.Spirv
