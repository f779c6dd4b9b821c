import Mathlib.Data.List.TakeWhile
import ShaderIR.Proofs.Meanings
import ShaderIR.Proofs.Progress
import ShaderIR.Proofs.Settling

/-!
# The phis of a stream during a walk

An id gets a meaning once, so the code of a block with phis is made once. A phi at the beginning of a
block without code leads that block and waits there, without sources, until the function is arranged;
any other phi stands for what the block before it supplies.
-/

namespace ShaderIR.Spirv

open EStateM List

/-- An instruction that may stand before a phi. -/
def RawInstruction.admitsPhi (i : RawInstruction) : Bool :=
  i.op = .opPhi ∨ i.op = .opNop ∨ i.op = .opLine ∨ i.op = .opNoLine

namespace SourceBlock

/-- Phis stand at the beginning of a block, with nothing but marks of lines between them. -/
def LeadsWithPhis (b : SourceBlock) : Prop := ∀ i ∈ b.code.dropWhile (·.admitsPhi), i.op ≠ .opPhi

instance (b : SourceBlock) : Decidable b.LeadsWithPhis := inferInstanceAs (Decidable (∀ i ∈ _, _))

theorem splitAtMerge_eq_some {is before after : List RawInstruction} {merge : RawInstruction}
    (h : splitAtMerge is = some (before, merge, after)) :
    is = before ++ merge :: after ∧ merge.isMerge := by
  induction is generalizing before with
  | nil => cases h
  | cons i is ih =>
    unfold splitAtMerge at h
    split at h
    · grind
    grind

theorem body_isPrefix (b : SourceBlock) : b.body <+: b.code := by
  unfold body
  split
  · rename_i before merge after hsplit
    rw [(splitAtMerge_eq_some hsplit).1]
    exact prefix_append ..
  · exact prefix_rfl

theorem LeadsWithPhis.body {b : SourceBlock} (h : b.LeadsWithPhis) :
    ∀ i ∈ b.body.dropWhile (·.admitsPhi), i.op ≠ .opPhi := by
  intro i hi
  obtain ⟨rest, hrest⟩ := b.body_isPrefix
  refine h i ?_
  rw [← hrest]
  exact Function.mem_dropWhile_append_left hi

theorem LeadsWithPhis.mem_body {b : SourceBlock} (h : b.LeadsWithPhis) {i : RawInstruction}
    (hi : i ∈ b.code) (hop : i.op = .opPhi) : i ∈ b.body := by
  unfold SourceBlock.body
  split
  · rename_i before merge after hsplit
    obtain ⟨hcode, hmerge⟩ := splitAtMerge_eq_some hsplit
    rw [hcode, mem_append] at hi
    refine hi.resolve_right fun hi => h i ?_ hop
    have hadmits : merge.admitsPhi = false := by
      rw [RawInstruction.isMerge, decide_eq_true_eq] at hmerge
      rcases hmerge with hmerge | hmerge <;> simp [RawInstruction.admitsPhi, hmerge]
    rw [hcode, dropWhile_append]
    split
    · simp_all
    · exact mem_append_right _ hi
  · exact hi

end SourceBlock

namespace PhiStep

variable {spot : Spot} {i : RawInstruction} {before : Option Id} {c c' : Context} {id : Id}

theorem not_knows (h : PhiStep spot i before c c') (hid : i.operand 1 = .ok id) : ¬c.Knows id := by
  obtain ⟨is, c₁, id', t, -, hinserts, hid', hdefine, -⟩ := h.defines
  obtain rfl : id' = id := Except.ok.inj (hid'.symm.trans hid)
  rintro ⟨v, hv⟩
  rw [hinserts.ids] at hdefine
  exact IdTable.get_ne_ok_of_define hdefine v hv

theorem knows (h : PhiStep spot i before c c') (hid : i.operand 1 = .ok id) : c'.Knows id := by
  obtain ⟨is, c₁, id', t, -, -, hid', hdefine, -⟩ := h.defines
  obtain rfl : id' = id := Except.ok.inj (hid'.symm.trans hid)
  exact ⟨_, IdTable.get_of_define hdefine⟩

end PhiStep

namespace Structure

variable {c c' : Context} {id : Id} {e e' : Emission} {i j : RawInstruction} {before after : List RawInstruction}

/-! ### Where a phi is met -/

/-- In the code of a block, a phi is met behind some instructions, in one state and left in
another. -/
structure Meets (e : Emission) (before : List RawInstruction) (i : RawInstruction) (c c' : Context) : Prop where
  ready : ∃ d, Body.instructions (labelBefore e.start e.before) before (.append e.block)
    (placedAt e.start e.source e.block) = .ok () d ∧ c = d.reported (.instruction i.op i.length)
  step : PhiStep (.append e.block) i (labelBefore e.start e.before) c c'
  rest : WalksOn c' e.finish

theorem Meets.start (h : Meets e before i c c') : WalksOn e.start c := by
  obtain ⟨d, hbefore, rfl⟩ := h.ready
  exact ((Relation.ReflTransGen.single (.place e.source e.block)).trans
    (walksOn_of_instructions hbefore)).tail (.report _)

theorem IsMade.exists_meets (h : IsMade e) (hbody : e.code.body = before ++ i :: after)
    (hi : i.op = .opPhi) : ∃ c c', Meets e before i c c' := by
  obtain ⟨d, hd, hfinish⟩ := emitBody_eq_ok.mp h.emit
  rw [hbody, instructions_append_eq_ok] at hd
  obtain ⟨d₀, hbefore, hrest⟩ := hd
  obtain ⟨d₁, hphi, hafter⟩ := instructions_cons_eq_ok.mp hrest
  rw [Body.instruction_phi hi] at hphi
  refine ⟨_, d₁, ⟨d₀, hbefore, rfl⟩, phiStep_of_phi hphi, ?_⟩
  rw [hfinish]
  exact (walksOn_of_instructions hafter).tail (.mark ..)

theorem IsMade.not_knows (h : IsMade e) (hi : i ∈ e.code.body) (hop : i.op = .opPhi)
    (hid : i.operand 1 = .ok id) : ¬e.start.Knows id ∧ e.finish.Knows id := by
  obtain ⟨before, after, hbody⟩ := append_of_mem hi
  obtain ⟨c, c', hmeets⟩ := h.exists_meets hbody hop
  exact ⟨fun hknows => hmeets.step.not_knows hid (hmeets.start.continues.knows hknows),
    hmeets.rest.continues.knows (hmeets.step.knows hid)⟩

theorem IsMade.eq_of_operand (h : IsMade e) (hi : i ∈ e.code.body) (hj : j ∈ e.code.body)
    (hop : i.op = .opPhi) (hop' : j.op = .opPhi) (hid : i.operand 1 = .ok id)
    (hid' : j.operand 1 = .ok id) : i = j := by
  -- whichever comes first leaves its id with a meaning
  have hfirst {before middle after : List RawInstruction} {i j : RawInstruction}
      (hbody : e.code.body = before ++ i :: (middle ++ j :: after)) (hop : i.op = .opPhi)
      (hop' : j.op = .opPhi) (hid : i.operand 1 = .ok id) (hid' : j.operand 1 = .ok id) : False := by
    obtain ⟨d, hd, -⟩ := emitBody_eq_ok.mp h.emit
    rw [hbody, instructions_append_eq_ok] at hd
    obtain ⟨d₀, -, hd⟩ := hd
    obtain ⟨d₁, hi, hd⟩ := instructions_cons_eq_ok.mp hd
    obtain ⟨d₂, hmiddle, hd⟩ := instructions_append_eq_ok.mp hd
    obtain ⟨d₃, hj, -⟩ := instructions_cons_eq_ok.mp hd
    rw [Body.instruction_phi hop] at hi
    rw [Body.instruction_phi hop'] at hj
    refine (phiStep_of_phi hj).not_knows hid' ?_
    exact (walksOn_of_instructions hmiddle).continues.knows ((phiStep_of_phi hi).knows hid)
  by_contra hne
  obtain ⟨before, after, hbody⟩ := append_of_mem hi
  rw [hbody] at hj
  rcases mem_append.mp hj with hj | hj
  · obtain ⟨before', after', rfl⟩ := append_of_mem hj
    grind
  · obtain ⟨before', after', rfl⟩ := append_of_mem ((mem_cons.mp hj).resolve_left (Ne.symm hne))
    exact hfirst hbody hop hop' hid hid'

variable {log : List Emission} {before : Option Nat} {label : Option Id} {source : Nat}
  {region : Region} {block : BlockId} {scope : Scope}

theorem Logged.eq_of_operand (h : Logged c log c') (he : e ∈ log) (he' : e' ∈ log)
    (hi : i ∈ e.code.body) (hj : j ∈ e'.code.body) (hop : i.op = .opPhi) (hop' : j.op = .opPhi)
    (hid : i.operand 1 = .ok id) (hid' : j.operand 1 = .ok id) : e = e' := by
  obtain ⟨hnot, hknows⟩ := (h.made e he).1.not_knows hi hop hid
  obtain ⟨hnot', hknows'⟩ := (h.made e' he').1.not_knows hj hop' hid'
  by_contra hne
  have hpair : WalksOn e.finish e'.start ∨ WalksOn e'.finish e.start := by
    have hboth := pairwise_iff_getElem.mp h.pairwise
    obtain ⟨n, hn, rfl⟩ := getElem_of_mem he
    obtain ⟨n', hn', rfl⟩ := getElem_of_mem he'
    rcases Nat.lt_trichotomy n n' with hlt | rfl | hlt
    · exact .inl (hboth n n' hn hn' hlt)
    · exact (hne rfl).elim
    · exact .inr (hboth n' n hn' hn hlt)
  rcases hpair with hlater | hlater
  · exact hnot' (hlater.continues.knows hknows)
  · exact hnot (hlater.continues.knows hknows')

/-! ### Phis that wait for their sources -/

/-- A phi of the stream stands in a block, without sources. -/
structure Waits (c : Context) (b : BlockId) (i : RawInstruction) (id : Id) (t : Tree) : Prop where
  operand : i.operand 1 = .ok id
  pairs : ∃ pairs, Code.phiPairs i = .ok pairs
  get : c.ids.get id = .ok (.tree t)
  nodup : t.leaves.Nodup
  vacant : ∀ r ∈ t.leaves, ∃ lanes, c.function.instructions[r]? = some (.phi [] lanes)
  holds : ∀ r ∈ t.leaves, ∀ b', r ∈ c.function.code b' ↔ b' = b
  /-- Its tree is one of phis of the type that it names. -/
  typed : ∃ typeId v spot d d', i.operand 0 = .ok typeId ∧ c.ids.typeValue typeId = .ok v ∧
    Code.phiTree v.ty spot d = .ok t d' ∧ d'.module.types.Extends c.module.types

section Waits

variable {b : BlockId} {t : Tree}

theorem Continues.isPhiAt (h : Continues c c') {r : Register} (hr : c.function.isPhiAt r) :
    c'.function.isPhiAt r := by
  obtain ⟨sources, lanes, hi⟩ := Function.isPhiAt_iff.mp hr
  exact Function.isPhiAt_iff.mpr ⟨sources, lanes, h.instructions r _ hi⟩

theorem typeValue_extends {ids ids' : IdTable} (h : ids.Extends ids') {v : TypeValue}
    (hv : ids.typeValue id = .ok v) : ids'.typeValue id = .ok v := by
  unfold IdTable.typeValue at hv ⊢
  cases hget : ids.get id with
  | error e =>
    rw [hget] at hv
    cases hv
  | ok w =>
    rw [hget] at hv
    rw [h id w hget]
    exact hv

theorem Waits.lt (h : Waits c b i id t) {r : Register} (hr : r ∈ t.leaves) :
    r < c.fresh := by
  obtain ⟨lanes, hi⟩ := h.vacant r hr
  exact (Array.getElem?_eq_some_iff.mp hi).1

theorem Waits.continues (h : Waits c b i id t) (hc : Continues c c') : Waits c' b i id t where
  operand := h.operand
  pairs := h.pairs
  get := hc.ids id _ h.get
  nodup := h.nodup
  vacant := fun r hr => by
    obtain ⟨lanes, hi⟩ := h.vacant r hr
    exact ⟨lanes, hc.instructions r _ hi⟩
  holds := fun r hr b' => by
    rw [← h.holds r hr b']
    refine ⟨fun hmem => (hc.newCode b' r hmem).resolve_right (Nat.not_le.mpr (h.lt hr)), ?_⟩
    exact fun hmem => (hc.code b').subset hmem
  typed := by
    obtain ⟨typeId, v, spot, d, d', htypeId, hv, htree, htypes⟩ := h.typed
    exact ⟨typeId, v, spot, d, d', htypeId, typeValue_extends hc.ids hv, htree, htypes.trans hc.types⟩

theorem PhiStep.waits (h : PhiStep (.append b) i none c c') (hr : c.function.InRange)
    (hb : b < c.function.blocks.size) :
    ∃ id t, c'.pendingPhis = (id, t) :: c.pendingPhis ∧ Waits c' b i id t := by
  have hids := (Continues.of_phiStep h).ids
  cases h with
  | @pend _ c₁ _ _ id pairs t hty hid hpairs htree hdefine =>
    obtain ⟨is, his, hplants⟩ := Code.plants_phiTree htree
    obtain ⟨typeId, v, htypeId, hv, rfl⟩ := hty
    have hpending : c₁.pendingPhis = c.pendingPhis := by
      obtain ⟨types, nextKey, -, hc₁⟩ := hplants.inserts
      rw [hc₁]
    refine ⟨id, t, by rw [hpending], hid, ⟨pairs, hpairs⟩, IdTable.get_of_define hdefine, hplants.nodup,
      fun r hmem => ?_, fun r hmem b' => ?_, typeId, v, _, c, c₁, htypeId, typeValue_extends hids hv, htree, .refl _⟩
    · obtain ⟨n, hn, rfl⟩ := getElem_of_mem hmem
      have hn' : n < is.length := by rwa [← hplants.length]
      obtain ⟨lanes, hlanes⟩ := his is[n] (getElem_mem hn')
      refine ⟨lanes, ?_⟩
      change c₁.function.instructions[_]? = _
      rw [hplants.getElem? (getElem?_eq_getElem hn), getElem?_eq_getElem hn', hlanes]
    · change r ∈ c₁.function.code b' ↔ b' = b
      have hnew := hplants.mem hmem
      rw [hplants.inserts.size] at hnew
      rw [hplants.inserts.function, Function.mem_code_insertAll]
      have hold : r ∉ c.function.code b' := fun h => Nat.not_lt.mpr hnew.1 (hr b' r h)
      simp only [hold, hnew.1, hnew.2, Spot.block, false_or, true_and]
      simp_all

/-- Whatever phi the instructions of a block leave without sources is one of them, and the block
continues no other. -/
theorem waits_of_instructions {is : List RawInstruction}
    (h : Body.instructions label is (.append b) c = .ok () c') (hr : c.function.InRange)
    (hb : b < c.function.blocks.size) {p : Id × Tree} (hp : p ∈ c'.pendingPhis) :
    p ∈ c.pendingPhis ∨ label = none ∧ ∃ i ∈ is, i.op = .opPhi ∧ Waits c' b i p.1 p.2 := by
  induction is generalizing c with
  | nil =>
    obtain ⟨-, rfl⟩ := pure_eq_ok.mp h
    exact .inl hp
  | cons j is ih =>
    obtain ⟨d, hj, hrest⟩ := instructions_cons_eq_ok.mp h
    have hstep := (walkStep_of_instruction hj).continues
    rcases ih hrest (hstep.inRange hr) (Nat.lt_of_lt_of_le hb hstep.size) with
      hp | ⟨hlabel, i, hi, hop, hwaits⟩
    · by_cases hop : j.op = .opPhi
      · rw [Body.instruction_phi hop] at hj
        have hphi := phiStep_of_phi hj
        cases label with
        | none =>
          obtain ⟨id, t, hpending, hwaits⟩ := PhiStep.waits hphi hr hb
          rw [hpending] at hp
          rcases mem_cons.mp hp with rfl | hp
          · exact .inr ⟨rfl, j, mem_cons_self .., hop, hwaits.continues (walksOn_of_instructions hrest).continues⟩
          · exact .inl hp
        | some label =>
          cases hphi with
          | take _ _ _ htree =>
            obtain ⟨words, types, nextKey, -, rfl⟩ := Emit.inserts_treeOf htree
            exact .inl hp
      · obtain ⟨b', rfl, hb'⟩ := Body.emits_of_plain (b := ⟨c.reported _, []⟩) hop hj
        rw [hb'.grows.pendingPhis fun _ hphi => Bool.noConfusion hphi.2] at hp
        exact .inl hp
    grind

end Waits

theorem Walks.exists_pending (h : Walks block source before scope c region c' log) {p : Id × Tree}
    (hp : p ∈ c'.pendingPhis) :
    p ∈ c.pendingPhis ∨ ∃ e ∈ log, p ∈ e.finish.pendingPhis ∧ p ∉ e.start.pendingPhis := by
  -- what is in place after code was made was there before, or comes with the code
  have hemitted {e : Emission} {log : List Emission} (hp : p ∈ e.finish.pendingPhis) :
      p ∈ e.start.pendingPhis ∨ ∃ e' ∈ e :: log, p ∈ e'.finish.pendingPhis ∧ p ∉ e'.start.pendingPhis := by
    grind
  have hplain {spot : Spot} {c d : Context} (hg : Grows Plain spot c d) (hp : p ∈ d.pendingPhis) :
      p ∈ c.pendingPhis := by
    rwa [hg.pendingPhis fun _ hphi => Bool.noConfusion hphi.2] at hp
  induction h with
  | stop => exact .inl hp
  | jump => exact .inl hp
  | loop _ _ _ _ _ _ ihbody ihrest =>
    rcases ihrest hp with hp | ⟨e, he, hp⟩
    · rcases ihbody hp with hp | ⟨e, he, hp⟩
      · exact .inl hp
      grind
    grind
  | branch _ _ _ _ _ _ _ _ ih =>
    rcases ih hp with hp | ⟨e, he, hp⟩
    · exact hemitted (e := ⟨_, _, _, _, _, _⟩) hp
    grind
  | cond _ _ _ _ hcondition _ _ _ _ _ _ _ _ _ ihtrue ihfalse ihrest =>
    rcases ihrest hp with hp | ⟨e, he, hp⟩
    · rcases ihfalse hp with hp | ⟨e, he, hp⟩
      · rcases ihtrue hp with hp | ⟨e, he, hp⟩
        · exact hemitted (e := ⟨_, _, _, _, _, _⟩) (hplain (grows_of_registerOperand hcondition) hp)
        · exact .inr ⟨e, by simp [he], hp⟩
      · exact .inr ⟨e, by simp [he], hp⟩
    · exact .inr ⟨e, by simp [he], hp⟩
  | leave _ _ _ _ hc' =>
    rw [hc'] at hp
    exact hemitted (e := ⟨_, _, _, _, _, _⟩) hp
  | returnValue _ _ _ _ hreturn =>
    obtain ⟨d', hgrows, rfl⟩ := grows_of_returnValue hreturn
    exact hemitted (e := ⟨_, _, _, _, _, _⟩) (hplain hgrows hp)

/-- Whatever phi is left without sources after a walk stands where the code of its block was made, which
continues no other. -/
theorem Walks.exists_waits (h : Walks block source before scope c region c' log)
    (hr : c.function.InRange) (hblock : block < c.function.blocks.size)
    (hbefore : ∀ s ∈ before, ∃ code, c.blocks[s]? = some code) {p : Id × Tree}
    (hp : p ∈ c'.pendingPhis) :
    p ∈ c.pendingPhis ∨ ∃ e ∈ log, e.before = none ∧
      ∃ i ∈ e.code.body, i.op = .opPhi ∧ Waits c' e.block i p.1 p.2 := by
  rcases h.exists_pending hp with hp | ⟨e, he, hfinish, hstart⟩
  · exact .inl hp
  · obtain ⟨hmade, hearlier, hlater⟩ := h.logged.made e he
    obtain ⟨d, hd, hd'⟩ := emitBody_eq_ok.mp hmade.emit
    rw [hd'] at hfinish
    have hrange : (placedAt e.start e.source e.block).function.InRange := hearlier.continues.inRange hr
    have hwaits := waits_of_instructions hd hrange (h.block_lt hblock he) hfinish
    obtain ⟨hlabel, i, hi, hop, hwaits⟩ := hwaits.resolve_left hstart
    refine .inr ⟨e, he, h.before_eq_none hbefore he hlabel, i, hi, hop, hwaits.continues ?_⟩
    have hfinish : Continues d e.finish := by
      rw [hd']
      exact (WalkStep.mark e.source e.block).continues
    exact hfinish.trans hlater.continues

/-! ### Phis without sources are apart -/

/-- Every phi belongs to one phi of the stream that has no sources yet. -/
structure Apart (c : Context) : Prop where
  lt : ∀ p ∈ c.pendingPhis, ∀ r ∈ p.2.leaves, r < c.function.instructions.size
  apart : ∀ p ∈ c.pendingPhis, ∀ q ∈ c.pendingPhis, ∀ r ∈ p.2.leaves, r ∈ q.2.leaves → p = q
  all : ∀ r, c.function.isPhiAt r → ∃ p ∈ c.pendingPhis, r ∈ p.2.leaves

theorem Apart.of_instructions (h : Apart c) (is : List Instruction)
    (hinstructions : c'.function.instructions = c.function.instructions ++ is.toArray)
    (his : ∀ i ∈ is, i.isPhi = false) (hpending : c'.pendingPhis = c.pendingPhis) : Apart c' where
  lt := by
    rw [hpending, hinstructions, Array.size_append]
    exact fun p hp r hr => Nat.lt_add_right _ (h.lt p hp r hr)
  apart := by
    rw [hpending]
    exact h.apart
  all := fun r hr => by
    rw [hpending]
    obtain ⟨sources, lanes, hi⟩ := Function.isPhiAt_iff.mp hr
    rw [hinstructions, Array.getElem?_append] at hi
    split at hi
    · exact h.all r (Function.isPhiAt_iff.mpr ⟨sources, lanes, hi⟩)
    · rw [getElem?_toArray] at hi
      cases his _ (mem_of_getElem? hi)

theorem Apart.of_phiStep {spot : Spot} (h : Apart c) (hstep : PhiStep spot i label c c') : Apart c' := by
  cases hstep with
  | @take _ _ _ _ _ _ _ _ _ _ _ htree =>
    obtain ⟨words, types, nextKey, -, rfl⟩ := Emit.inserts_treeOf htree
    refine h.of_instructions (words.map .loadConst) Function.insertAll_instructions ?_ rfl
    simp [Instruction.isPhi]
  | @pend c c₁ _ _ id _ t _ _ _ htree =>
    obtain ⟨is, -, hplants⟩ := Code.plants_phiTree htree
    have hnew {r : Register} (hr : r ∈ t.leaves) : c.function.instructions.size ≤ r := (hplants.mem hr).1
    have hinstructions : c₁.function.instructions = c.function.instructions ++ is.toArray := by
      rw [hplants.inserts.function, Function.insertAll_instructions]
    have hpending : c₁.pendingPhis = c.pendingPhis := by
      obtain ⟨types, nextKey, -, hc₁⟩ := hplants.inserts
      rw [hc₁]
    refine ⟨fun p hp r hr => ?_, fun p hp q hq r hr hr' => ?_, fun r hr => ?_⟩
    · change r < c₁.function.instructions.size
      rcases mem_cons.mp hp with rfl | hp
      · exact (hplants.mem hr).2
      · rw [hpending] at hp
        rw [hinstructions, Array.size_append]
        exact Nat.lt_add_right _ (h.lt p hp r hr)
    · have hold {p : Id × Tree} (hp : p ∈ c₁.pendingPhis) (hr : r ∈ p.2.leaves) :
          r < c.function.instructions.size := by
        rw [hpending] at hp
        exact h.lt p hp r hr
      rcases mem_cons.mp hp with rfl | hp
      · grind
      · rcases mem_cons.mp hq with rfl | hq
        · grind
        · rw [hpending] at hp hq
          exact h.apart p hp q hq r hr hr'
    · change c₁.function.isPhiAt r at hr
      obtain ⟨sources, lanes, hi⟩ := Function.isPhiAt_iff.mp hr
      by_cases hlt : r < c.function.instructions.size
      · rw [hinstructions, Array.getElem?_append_left hlt] at hi
        obtain ⟨p, hp, hr⟩ := h.all r (Function.isPhiAt_iff.mpr ⟨sources, lanes, hi⟩)
        grind
      · refine ⟨(id, t), mem_cons_self .., ?_⟩
        obtain ⟨hlt', -⟩ := Array.getElem?_eq_some_iff.mp hi
        rw [hinstructions, Array.size_append, size_toArray] at hlt'
        rw [hplants.leaves_eq, mem_range'_1]
        exact ⟨Nat.not_lt.mp hlt, hlt'⟩

theorem WalkStep.apart (h : WalkStep c c') (hc : Apart c) : Apart c' := by
  cases h with
  | plain hgrows =>
    obtain ⟨is, his, hinstructions⟩ := hgrows.instructions
    exact hc.of_instructions _ hinstructions (fun i hi => (his i hi).2)
      (hgrows.pendingPhis fun _ hphi => Bool.noConfusion hphi.2)
  | phi hstep => exact hc.of_phiStep hstep
  | append block hi =>
    refine hc.of_instructions [_] ?_ (by simpa using hi) rfl
    change (c.function.insertAll (.append block) [_]).instructions = _
    exact Function.insertAll_instructions
  | _ => exact ⟨hc.lt, hc.apart, hc.all⟩

theorem WalksOn.apart (h : WalksOn c c') (hc : Apart c) : Apart c' := by
  induction h with
  | refl => exact hc
  | tail _ hstep ih => exact hstep.apart ih

/-! ### Phis that lead their blocks -/

/-- A block holds phis only. -/
def HoldsPhis (c : Context) (b : BlockId) : Prop := ∀ r ∈ c.function.code b, c.function.isPhiAt r

/-- In each block, the phis come first. -/
def PhisLead (c : Context) : Prop := ∀ b, c.function.PhisLead b

section PhisLead

variable {b : BlockId} {is : List RawInstruction}

theorem HoldsPhis.phisLead (h : HoldsPhis c b) : c.function.PhisLead b := by
  intro r hr
  rw [dropWhile_eq_nil_iff.mpr h] at hr
  cases hr

section

variable (h : PhisLead c)
include h

theorem PhisLead.of_insertAll (is : List Instruction) (hr : c.function.InRange)
    (his : ∀ i ∈ is, i.isPhi = false)
    (hf : ∃ locals, c'.function = { c.function.insertAll (.append b) is with locals }) :
    PhisLead c' := by
  obtain ⟨locals, hf⟩ := hf
  intro b'
  rw [hf]
  exact (h b').insertAll_append hr his

theorem PhisLead.of_grows (hr : c.function.InRange)
    (hg : Grows Plain (.append b) c c') : PhisLead c' := by
  obtain ⟨is, locals, his, hf⟩ := hg.function
  exact h.of_insertAll _ hr (fun i hi => (his i hi).2) ⟨locals, hf⟩

theorem PhisLead.of_phiStep {label : Id} (hr : c.function.InRange)
    (hstep : PhiStep (.append b) i (some label) c c') : PhisLead c' := by
  cases hstep with
  | take _ _ _ htree =>
    obtain ⟨words, types, nextKey, -, rfl⟩ := Emit.inserts_treeOf htree
    refine h.of_insertAll (words.map .loadConst) hr ?_ ⟨_, rfl⟩
    simp [Instruction.isPhi]

theorem PhisLead.of_instructions (hr : c.function.InRange)
    (his : label = none → ∀ j ∈ is, j.op ≠ .opPhi)
    (hmake : Body.instructions label is (.append b) c = .ok () c') : PhisLead c' := by
  induction is generalizing c with
  | nil =>
    obtain ⟨-, rfl⟩ := pure_eq_ok.mp hmake
    exact h
  | cons j is ih =>
    obtain ⟨d, hj, hrest⟩ := instructions_cons_eq_ok.mp hmake
    have hreported : PhisLead (c.reported (.instruction j.op j.length)) := h
    refine ih ?_ ((walkStep_of_instruction hj).continues.inRange hr)
      (fun hlabel j' hj' => his hlabel j' (mem_cons_of_mem j hj')) hrest
    by_cases hop : j.op = .opPhi
    · rw [Body.instruction_phi hop] at hj
      cases label with
      | none => simp_all
      | some label => exact hreported.of_phiStep hr (phiStep_of_phi hj)
    · obtain ⟨b', rfl, hb'⟩ := Body.emits_of_plain (b := ⟨c.reported _, []⟩) hop hj
      exact hreported.of_grows hr hb'.grows

end

theorem PhiStep.holdsPhis (h : PhiStep (.append b) i none c c') (hc : HoldsPhis c b) : HoldsPhis c' b := by
  have hcontinues := Continues.of_phiStep h
  cases h with
  | @pend _ c₁ _ _ _ _ _ _ _ _ htree =>
    obtain ⟨is, his, hplants⟩ := Code.plants_phiTree htree
    intro r hr
    change r ∈ c₁.function.code b at hr
    rw [hplants.inserts.function, Function.mem_code_insertAll] at hr
    rcases hr with hr | ⟨hr, -⟩
    · exact hcontinues.isPhiAt (hc r hr)
    · change c₁.function.isPhiAt r
      obtain ⟨n, hn, rfl⟩ : ∃ n, n < is.length ∧ r = c.fresh + n :=
        ⟨r - c.fresh, by lia, by lia⟩
      obtain ⟨lanes, hlanes⟩ := his is[n] (getElem_mem hn)
      rw [Function.isPhiAt, hplants.inserts.function, Function.insertAll_instructions,
        Array.getElem?_append_right (Nat.le_add_right ..), Nat.add_sub_cancel_left, getElem?_toArray,
        getElem?_eq_getElem hn, hlanes]
      rfl

theorem Body.instruction_of_admitsPhi (h : i.admitsPhi) (hphi : i.op ≠ .opPhi) :
    Body.instruction label i = pure () := by
  unfold Body.instruction
  rw [RawInstruction.admitsPhi, decide_eq_true_eq, or_iff_right hphi] at h
  rcases h with hop | hop | hop <;> rw [hop]

theorem holdsPhis_of_instructions (his : ∀ j ∈ is, j.admitsPhi)
    (h : Body.instructions none is (.append b) c = .ok () c') (hc : HoldsPhis c b) :
    HoldsPhis c' b := by
  induction is generalizing c with
  | nil =>
    obtain ⟨-, rfl⟩ := pure_eq_ok.mp h
    exact hc
  | cons j is ih =>
    obtain ⟨d, hj, hrest⟩ := instructions_cons_eq_ok.mp h
    refine ih (fun j' hj' => his j' (mem_cons_of_mem j hj')) hrest ?_
    have hadmits := his j (mem_cons_self ..)
    by_cases hphi : j.op = .opPhi
    · rw [Body.instruction_phi hphi] at hj
      exact PhiStep.holdsPhis (phiStep_of_phi hj) hc
    · rw [Body.instruction_of_admitsPhi hadmits hphi] at hj
      obtain ⟨-, rfl⟩ := pure_eq_ok.mp hj
      exact hc

section

variable (h : PhisLead c)
include h

theorem PhisLead.of_emitBody {code : SourceBlock} (hr : c.function.InRange)
    (hcode : code.LeadsWithPhis) (hbefore : labelBefore c before = none → IsFresh c b)
    (hmake : emitBody b source code before c = .ok () c') : PhisLead c' := by
  obtain ⟨d, hd, rfl⟩ := emitBody_eq_ok.mp hmake
  change PhisLead d
  have hplaced : PhisLead (placedAt c source b) := h
  cases hlabel : labelBefore c before with
  | some label =>
    rw [hlabel] at hd
    exact hplaced.of_instructions hr (by simp) hd
  | none =>
    have hempty : HoldsPhis (placedAt c source b) b := by
      intro r hr
      change r ∈ c.function.code b at hr
      rw [(hbefore hlabel).code] at hr
      cases hr
    rw [hlabel, ← takeWhile_append_dropWhile (p := (·.admitsPhi)) (l := code.body),
      instructions_append_eq_ok] at hd
    obtain ⟨d₀, hphis, hrest⟩ := hd
    have hholds := holdsPhis_of_instructions (fun j hj => mem_takeWhile_imp hj) hphis hempty
    have hcontinues := (walksOn_of_instructions hphis).continues
    refine PhisLead.of_instructions (fun b' => ?_) (hcontinues.inRange hr) (fun _ => hcode.body) hrest
    by_cases hb : b' = b
    · rw [hb]
      exact hholds.phisLead
    · -- code in one block leaves the others alone
      obtain ⟨bench, rfl, hbench⟩ := Body.emits_of_instructions (b := ⟨placedAt c source b, []⟩) hphis
      intro r hr'
      have hisPhi {r : Register} (hmem : r ∈ c.function.code b') :
          bench.context.function.isPhiAt r = c.function.isPhiAt r := by
        have hi := Array.getElem?_eq_getElem (hr b' r hmem)
        rw [Function.isPhiAt, Function.isPhiAt, hcontinues.instructions r _ hi, hi]
      have hcode : bench.context.function.code b' = c.function.code b' := hbench.grows.code_of_ne hb
      rw [hcode, Function.dropWhile_congr fun r hmem => hisPhi hmem] at hr'
      rw [hisPhi ((dropWhile_suffix _).subset hr'), h b' r hr']

theorem PhisLead.openLoop (e : Event) : PhisLead (c.reported e).openLoop := by
  intro b r hr
  rw [Context.code_openLoop] at hr
  exact h b r hr

theorem PhisLead.openConditional (source : Nat) : PhisLead (c.openConditional source) := by
  intro b r hr
  rw [Context.code_openConditional] at hr
  exact h b r hr

theorem PhisLead.append {i : Instruction} (hr : c.function.InRange) (block : BlockId)
    (hi : i.isPhi = false) : PhisLead (c.append block i) :=
  fun b => (h b).insert_append hr hi

end

theorem Walks.phisLead (h : Walks block source before scope c region c' log)
    (hcode : ∀ (s : Nat) (code : SourceBlock), c.blocks[s]? = some code → code.LeadsWithPhis)
    (hr : c.function.InRange) (hbefore : labelBefore c before = none → IsFresh c block)
    (hc : PhisLead c) : PhisLead c' := by
  induction h with
  | stop => exact hc
  | jump => exact hc.append hr _ rfl
  | loop _ _ _ _ hbody _ ihbody ihrest =>
    have hd := hbody.logged.steps.continues
    have hopened := hr.addBlock.addBlock
    refine ihrest ?_ (hd.inRange hopened) (fun _ => ?_) (ihbody hcode hopened (fun _ => ?_) (hc.openLoop _))
    · rw [hd.blocks]
      exact hcode
    · exact (IsFresh.openLoop _ _ (by lia) (by lia)).builds hbody.builds (by lia)
    · exact .openLoop _ _ (Nat.le_refl _) (by lia)
  | branch hblock _ hemit _ _ _ _ _ ih =>
    have hd := (walksOn_of_emitBody hemit).continues
    refine ih ?_ (hd.inRange hr) (fun hnone => ?_) (hc.of_emitBody hr (hcode _ _ hblock) hbefore hemit)
    · rw [hd.blocks]
      exact hcode
    · rw [labelBefore, hd.blocks, Option.bind_some, hblock] at hnone
      cases hnone
  | cond hblock _ hemit _ hcondition _ _ _ _ _ _ htrueArm hfalseArm _ ihtrue ihfalse ihrest =>
    have hd := (walksOn_of_emitBody hemit).continues
    have hgrows := grows_of_registerOperand hcondition
    have hd₁ := hd.trans (.of_grows hgrows)
    have hd₂ := htrueArm.logged.steps.continues
    have hd₃ := hfalseArm.logged.steps.continues
    have hopened := (hd₁.inRange hr).addBlock.addBlock.addBlock
    have hlead := ((hc.of_emitBody hr (hcode _ _ hblock) hbefore hemit).of_grows (hd.inRange hr)
      hgrows).openConditional
    rw [← hd₁.blocks] at hcode
    have hlead₂ := ihtrue hcode hopened (fun _ => .openConditional _ _ (Nat.le_refl _) (by lia)) (hlead _)
    have hlead₃ := ihfalse (by rwa [hd₂.blocks]) (hd₂.inRange hopened)
      (fun _ => (IsFresh.openConditional _ _ (by lia) (by lia)).builds htrueArm.builds (by lia)) hlead₂
    refine ihrest (by rwa [hd₃.blocks, hd₂.blocks]) (hd₃.inRange (hd₂.inRange hopened)) (fun _ => ?_) hlead₃
    exact ((IsFresh.openConditional _ _ (by lia) (by lia)).builds htrueArm.builds (by lia)).builds
      hfalseArm.builds (by lia)
  | leave hblock _ hemit hop hc' =>
    have hd := (walksOn_of_emitBody hemit).continues
    rw [hc']
    refine (hc.of_emitBody hr (hcode _ _ hblock) hbefore hemit).append (hd.inRange hr) _ ?_
    rcases hop with ⟨-, rfl⟩ | ⟨-, rfl⟩ <;> rfl
  | returnValue hblock _ hemit _ hreturn =>
    have hd := (walksOn_of_emitBody hemit).continues
    obtain ⟨d', hgrows, rfl⟩ := grows_of_returnValue hreturn
    refine ((hc.of_emitBody hr (hcode _ _ hblock) hbefore hemit).of_grows (hd.inRange hr) hgrows).append
      ((Continues.of_grows hgrows).inRange (hd.inRange hr)) _ rfl

end PhisLead

end Structure

end ShaderIR.Spirv
