import ShaderIR.Proofs.Paths
import ShaderIR.Proofs.Phis
import ShaderIR.Proofs.TwinReadings

/-!
# What of a block is handled

A block of the stream runs from its label to the first instruction that ends a block. When its code is
made, the instructions before its merge instruction are handled in order, or all if it has none. What
stands between the merge instruction and the end of the block is dropped.
-/

namespace ShaderIR.Spirv

open EStateM List

/-- A block stands in a stream: a label, its code, and the first instruction that ends a block. -/
structure SourceBlock.StandsIn (b : SourceBlock) (is : List RawInstruction) : Prop where
  found : ∃ before label after, is = before ++ label :: (b.code ++ b.terminator :: after) ∧
    label.op = .opLabel ∧ label.operand 0 = .ok b.label
  ends : b.terminator.isTerminator = true
  inside : ∀ i ∈ b.code, i.isTerminator = false

/-- What stands behind the merge instruction of a block. -/
def SourceBlock.dropped (b : SourceBlock) : List RawInstruction :=
  match splitAtMerge b.code with
  | some (_, _, after) => after
  | none => []

/-! ### Finding blocks -/

variable {is : List RawInstruction} {c c' : Context} {b : SourceBlock}

theorem SourceBlock.StandsIn.append (h : b.StandsIn is) (more : List RawInstruction) :
    b.StandsIn (is ++ more) := by
  obtain ⟨before, label, after, rfl, hlabel⟩ := h.found
  exact ⟨⟨before, label, after ++ more, by simp, hlabel⟩, h.ends, h.inside⟩

theorem Declares.blocks (h : Declares c c') : c'.blocks = c.blocks := by
  induction h with
  | refl => rfl
  | tail _ hstep ih => cases hstep <;> exact ih

namespace Scan

/-- What a scan has found in the instructions that it went past. -/
structure Has (is : List RawInstruction) (s : ScanState) (c : Context) : Prop where
  blocks : ∀ b ∈ c.blocks, b.StandsIn is
  opened : ∀ label code, s = .inBlock label code → (∀ i ∈ code, i.isTerminator = false) ∧
    ∃ before i, is = before ++ i :: code.reverse ∧ i.op = .opLabel ∧ i.operand 0 = .ok label

variable {i : RawInstruction} {s t : ScanState}

theorem Has.takes (h : Has is s c) (ht : Takes i c s t c') : Has (is ++ [i]) t c' := by
  have hblocks : ∀ b ∈ c.blocks, b.StandsIn (is ++ [i]) := fun b hb => (h.blocks b hb).append [i]
  cases ht with
  | function | functionEnd => exact ⟨hblocks, nofun⟩
  | label hop hlabel =>
    refine ⟨hblocks, ?_⟩
    simp_all
  | code hend =>
    refine ⟨hblocks, ?_⟩
    rintro _ _ ⟨⟩
    obtain ⟨hcode, before, j, rfl, hj⟩ := h.opened _ _ rfl
    grind
  | close hend =>
    refine ⟨fun b hb => ?_, nofun⟩
    rcases Array.mem_push.mp hb with hb | rfl
    · exact hblocks b hb
    · obtain ⟨hcode, before, j, rfl, hj⟩ := h.opened _ _ rfl
      exact ⟨⟨before, j, [], by simp, hj⟩, hend, fun i hi => hcode i (mem_reverse.mp hi)⟩

theorem Has.steps {fault : Option Error} {stop : Nat} {rest : List RawInstruction} (h : Has is s c)
    (hsteps : steps fault stop s rest c = .ok () c') : ∀ b ∈ c'.blocks, b.StandsIn (is ++ rest) := by
  induction rest generalizing is s c with
  | nil =>
    unfold Scan.steps at hsteps
    split at hsteps
    · exact (throw_eq_ok.mp hsteps).elim
    · obtain ⟨-, rfl⟩ := pure_eq_ok.mp hsteps
      rw [append_nil]
      exact h.blocks
    · exact (throw_eq_ok.mp hsteps).elim
  | cons i rest ih =>
    obtain ⟨t, d, hstep, hrest⟩ := bind_eq_ok.mp hsteps
    rw [append_cons]
    exact ih (h.takes (takes_of_step hstep)) hrest

end Scan

theorem standsIn_of_outline? {options : Options} {words : List Word} (h : outline? options words = some c)
    (hb : b ∈ c.blocks) : b.StandsIn (Tiling.ofStream words headerLength words.length).instructions := by
  unfold outline? at h
  split at h
  · cases h
  · split at h
    · cases h
    · cases h
      obtain ⟨before, rest, c₁, hsplit, -, hdeclares, hscan⟩ := readOutline_eq_ok ‹_›
      have hstart : Scan.Has before .outside c₁ := by
        refine ⟨fun b hb => ?_, nofun⟩
        rw [hdeclares.blocks] at hb
        cases hb
        contradiction
      rw [hsplit]
      exact hstart.steps hscan b hb

/-! ### Handling blocks -/

theorem splitAtMerge_eq_none (h : splitAtMerge is = none) : ∀ i ∈ is, i.isMerge = false := by
  induction is with
  | nil => exact nofun
  | cons i is ih =>
    unfold splitAtMerge at h
    grind

theorem after_splitAtMerge {before after : List RawInstruction} {merge : RawInstruction}
    (h : splitAtMerge is = some (before, merge, after)) : ∀ i ∈ after, i.isMerge = false := by
  induction is generalizing before with
  | nil => cases h
  | cons i is ih =>
    unfold splitAtMerge at h
    split at h
    · cases h
      exact ih ‹_›
    · split at h
      · cases h
        exact splitAtMerge_eq_none ‹_›
      · cases h

theorem Body.isMerge_eq_false {before : Option Id} {spot : Spot}
    (h : Body.instructions before is spot c = .ok () c') : ∀ i ∈ is, i.isMerge = false := by
  induction is generalizing c with
  | nil => exact nofun
  | cons i is ih =>
    obtain ⟨d, hi, hrest⟩ := Structure.instructions_cons_eq_ok.mp h
    refine forall_mem_cons.mpr ⟨Bool.eq_false_iff.mpr fun hmerge => ?_, ih hrest⟩
    have hfails : Body.instruction before i = throw (.unsupportedOpcode i.op) := by
      rw [RawInstruction.isMerge, decide_eq_true_eq] at hmerge
      rcases hmerge with hop | hop <;> rw [instruction, hop] <;> rfl
    rw [hfails] at hi
    exact throw_eq_ok.mp hi

theorem SourceBlock.filter_code (h : ∀ i ∈ b.body, i.isMerge = false) :
    (b.code.filter (·.isMerge)).length ≤ 1 ∧ b.code.filter (!·.isMerge) = b.body ++ b.dropped := by
  have hnone {l : List RawInstruction} (hl : ∀ i ∈ l, i.isMerge = false) :
      l.filter (·.isMerge) = [] ∧ l.filter (!·.isMerge) = l :=
    ⟨filter_eq_nil_iff.mpr (by simpa using hl), filter_eq_self.mpr (by simpa using hl)⟩
  unfold body at h ⊢
  unfold dropped
  split at h
  · next before merge after hsplit =>
    obtain ⟨hcode, hmerge⟩ := splitAtMerge_eq_some hsplit
    obtain ⟨hbefore, hbody⟩ := hnone h
    obtain ⟨hafter, hdropped⟩ := hnone (after_splitAtMerge hsplit)
    grind
  grind

/-- Each time the code of a block is made, what stands in the stream between its label and the instruction
that ends it, other than its one merge instruction, is handled in order up to the merge instruction; what
stands behind the merge instruction is dropped. -/
theorem code_before_merge_handled {options : Options} {words : List Word} {m : Module} {index : Nat}
    {f : Function} (hread : (readModule options words).result = .ok m) (hf : m.functions[index]? = some f) :
    ∃ (t : Tour) (log : List Emission), tour? options words index = some t ∧ log.map Emission.entry = t.log ∧ ∀ e ∈ log,
      e.code.StandsIn (Tiling.ofStream words headerLength words.length).instructions ∧
      (∃ d, Body.instructions (Structure.labelBefore e.start e.before) e.code.body (.append e.block)
        (Structure.placedAt e.start e.source e.block) = .ok () d) ∧
      (e.code.code.filter (·.isMerge)).length ≤ 1 ∧
      e.code.code.filter (!·.isMerge) = e.code.body ++ e.code.dropped := by
  obtain ⟨t, -, htour, -⟩ := exists_tour hread hf
  obtain ⟨c, houtline, hof⟩ := exists_outline htour
  obtain ⟨log, hwalks⟩ := (sound_of_tour? htour).walks
  refine ⟨t, log, htour, (t.log_eq hwalks).symm, fun e he => ?_⟩
  obtain ⟨hmade, hsteps, -⟩ := hwalks.logged.made e he
  obtain ⟨d, hbody, -⟩ := Structure.emitBody_eq_ok.mp hmade.emit
  refine ⟨standsIn_of_outline? houtline ?_, ⟨d, hbody⟩, SourceBlock.filter_code (Body.isMerge_eq_false hbody)⟩
  have hcode := hmade.code
  rw [hsteps.continues.blocks, hof.carries.blocks] at hcode
  exact Array.mem_of_getElem? hcode

/-- A function that stores 7 into a variable and heads a selection, with the store on either side of the
merge instruction. -/
def storeAndMerge (behind : Bool) : List Word :=
  [0x07230203, 99, 0, 13, 0, 0x00020013, 1, 0x00020014, 2, 0x00040015, 3, 32, 0, 0x00030021, 4, 1,
   0x00040020, 5, 6, 3, 0x0004003b, 5, 6, 6, 0x00030029, 2, 7, 0x0004002b, 3, 8, 7,
   0x00050036, 1, 9, 0, 4, 0x000200f8, 10] ++
  (if behind then [0x000300f7, 12, 0, 0x0003003e, 6, 8] else [0x0003003e, 6, 8, 0x000300f7, 12, 0]) ++
  [0x000400fa, 7, 11, 12, 0x000200f8, 11, 0x000200f9, 12, 0x000200f8, 12, 0x000100fd, 0x00010038]

/-- A store behind the merge instruction is read over: the variable keeps its zero. -/
theorem store_behind_merge_dropped :
    (runFirst (storeAndMerge true) {}).map (fun r => (r.1, r.2.read 0 [])) = some (none, .zero) ∧
      (runFirst (storeAndMerge false) {}).map (fun r => (r.1, r.2.read 0 [])) = some (none, ⟨7, 0, 0, 0⟩) := by
  decide +kernel

theorem code_before_merge_handled_storeAndMerge :
    ∃ m f, (readModule {} (storeAndMerge true)).result = .ok m ∧ m.functions[0]? = some f ∧
      ∃ (t : Tour) (log : List Emission), tour? {} (storeAndMerge true) 0 = some t ∧ log.map Emission.entry = t.log ∧ ∀ e ∈ log,
        e.code.StandsIn (Tiling.ofStream (storeAndMerge true) headerLength
          (storeAndMerge true).length).instructions ∧
        (∃ d, Body.instructions (Structure.labelBefore e.start e.before) e.code.body (.append e.block)
          (Structure.placedAt e.start e.source e.block) = .ok () d) ∧
        (e.code.code.filter (·.isMerge)).length ≤ 1 ∧
        e.code.code.filter (!·.isMerge) = e.code.body ++ e.code.dropped := by
  have hfunction : hasFunction {} (storeAndMerge true) 0 := by decide +kernel
  obtain ⟨m, f, hread, hf⟩ := exists_of_hasFunction hfunction
  exact ⟨m, f, hread, hf, code_before_merge_handled hread hf⟩

end ShaderIR.Spirv
