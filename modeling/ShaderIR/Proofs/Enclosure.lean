import ShaderIR.Proofs.Reading

/-!
# Branches inside a function

If branches and merge annotations lead to blocks of the same function, the walk of a function makes the
code of its own blocks only. Every block belongs to one function, so no other function has code of
it.
-/

namespace ShaderIR.Spirv

open EStateM List

namespace SourceBlock

/-- The labels that the branch at the end of a block names. -/
def branchLabels (b : SourceBlock) : List Id :=
  match b.terminator.op with
  | .opBranch => (b.terminator.operand 0).toOption.toList
  | .opBranchConditional =>
    (b.terminator.operand 1).toOption.toList ++ (b.terminator.operand 2).toOption.toList
  | _ => []

/-- The label of the block where the construct that a block heads comes together. -/
def mergeLabel? (b : SourceBlock) : Option Id :=
  match b.merge with
  | .none => none
  | .selection merge => some merge
  | .loop merge _ => some merge

theorem mergeLabel?_of_loop? {b : SourceBlock} {scope : Scope} {source : Nat} {merge continueTarget : Id}
    (h : b.loop? scope source = some (merge, continueTarget)) : b.mergeLabel? = some merge := by
  unfold loop? at h
  unfold mergeLabel?
  grind

end SourceBlock

namespace Context

/-- The blocks that the branch at the end of a block leads to. -/
def branchTargets (c : Context) (b : SourceBlock) : List Nat :=
  b.branchLabels.filterMap fun label => (c.ids.block label).toOption

/-- The block where the construct that a block heads comes together. -/
def mergeTarget? (c : Context) (b : SourceBlock) : Option Nat :=
  b.mergeLabel?.bind fun label => (c.ids.block label).toOption

/-- A block of the stream ends in a branch to another. -/
def Branches (c : Context) (a b : Nat) : Prop := ∃ code ∈ c.blocks[a]?, b ∈ c.branchTargets code

/-- The branches of a function lead to blocks of it. -/
def BranchesInside (c : Context) (f : SourceFunction) : Prop :=
  ∀ s ∈ f.blocks, ∀ code ∈ c.blocks[s]?, ∀ target ∈ c.branchTargets code, target ∈ f.blocks

/-- The constructs of a function come together in blocks of it. -/
def MergesInside (c : Context) (f : SourceFunction) : Prop :=
  ∀ s ∈ f.blocks, ∀ code ∈ c.blocks[s]?, ∀ target ∈ c.mergeTarget? code, target ∈ f.blocks

instance (c : Context) (f : SourceFunction) : Decidable (c.BranchesInside f) :=
  inferInstanceAs (Decidable (∀ s ∈ f.blocks, _))

instance (c : Context) (f : SourceFunction) : Decidable (c.MergesInside f) :=
  inferInstanceAs (Decidable (∀ s ∈ f.blocks, _))

/-- Control stays in a function. -/
structure Encloses (c : Context) (f : SourceFunction) : Prop where
  branches : c.BranchesInside f
  merges : c.MergesInside f

end Context

theorem toOption_eq_some {ε α : Type} {x : Except ε α} {a : α} : x.toOption = some a ↔ x = .ok a := by
  cases x <;> simp [Except.toOption]

variable {c c' : Context} {f : SourceFunction}

theorem Context.mem_branchTargets {code : SourceBlock} {target : Nat} :
    target ∈ c.branchTargets code ↔ ∃ label ∈ code.branchLabels, c.ids.block label = .ok target := by
  simp [branchTargets, toOption_eq_some]

theorem Context.mergeTarget?_eq_some {code : SourceBlock} {target : Nat} : c.mergeTarget? code = some target ↔
      ∃ label, code.mergeLabel? = some label ∧ c.ids.block label = .ok target := by
  simp [mergeTarget?, toOption_eq_some, Option.bind_eq_some_iff]

theorem Carries.encloses (h : Carries c c') (hc : c.Encloses f) : c'.Encloses f where
  branches := by
    intro s hs code hcode target htarget
    rw [h.blocks] at hcode
    obtain ⟨label, hlabel, htarget⟩ := Context.mem_branchTargets.mp htarget
    exact hc.branches s hs code hcode target
      (Context.mem_branchTargets.mpr ⟨label, hlabel, h.block_eq_ok.mp htarget⟩)
  merges := by
    intro s hs code hcode target htarget
    rw [h.blocks] at hcode
    obtain ⟨label, hlabel, htarget⟩ := Context.mergeTarget?_eq_some.mp htarget
    exact hc.merges s hs code hcode target
      (Context.mergeTarget?_eq_some.mpr ⟨label, hlabel, h.block_eq_ok.mp htarget⟩)

/-! ### Walks stay inside -/

/-- A walk from a block of a function makes the code of its blocks only. -/
theorem Structure.Walks.source_mem {block : BlockId} {source : Nat} {before : Option Nat} {scope : Scope}
    {region : Region} {log : List Emission} (h : Walks block source before scope c region c' log)
    {d : Context} (hd : d.Encloses f) (hblocks : c.blocks = d.blocks) (hids : c'.ids.Extends d.ids)
    (hs : source ∈ f.blocks) : ∀ e ∈ log, e.source ∈ f.blocks := by
  have hbranch {s : Nat} {code : SourceBlock} (hs : s ∈ f.blocks) (hcode : d.blocks[s]? = some code)
      {label : Id} (hlabel : label ∈ code.branchLabels) {ids : IdTable} (hids : ids.Extends d.ids)
      {target : Nat} (htarget : ids.block label = .ok target) : target ∈ f.blocks :=
    hd.branches s hs code hcode target
      (Context.mem_branchTargets.mpr ⟨label, hlabel, ids_block_extends hids htarget⟩)
  have hmerge {s : Nat} {code : SourceBlock} (hs : s ∈ f.blocks) (hcode : d.blocks[s]? = some code)
      {label : Id} (hlabel : code.mergeLabel? = some label) {ids : IdTable} (hids : ids.Extends d.ids)
      {target : Nat} (htarget : ids.block label = .ok target) : target ∈ f.blocks :=
    hd.merges s hs code hcode target
      (Context.mergeTarget?_eq_some.mpr ⟨label, hlabel, ids_block_extends hids htarget⟩)
  induction h with
  | stop => simp
  | jump => simp
  | @loop _ _ _ _ c _ _ _ _ _ e _ _ _ _ hcode _ hloop hm hbody hrest ihbody ihrest =>
    have hrestIds := hrest.builds.ids.trans hids
    have hcIds : c.ids.Extends d.ids := hbody.builds.ids.trans hrestIds
    rw [hblocks] at hcode
    have htarget := hmerge hs hcode (SourceBlock.mergeLabel?_of_loop? hloop) hcIds hm
    have h₁ := ihbody hblocks hrestIds hs
    have h₂ := ihrest (hbody.builds.blocks.trans hblocks) hids htarget
    exact fun e he => (mem_append.mp he).elim (h₁ e) (h₂ e)
  | @branch _ _ _ _ _ code e label _ _ _ _ hcode _ hemit hop hlabel htarget _ hrest ih =>
    have hbuilds := Builds.emitBody hemit
    rw [hblocks] at hcode
    have hmem : label ∈ code.branchLabels := by simp [SourceBlock.branchLabels, hop, hlabel, Except.toOption]
    have h := ih (hbuilds.blocks.trans hblocks) hids (hbranch hs hcode hmem (hrest.builds.ids.trans hids) htarget)
    simp_all
  | @cond _ _ _ _ _ _ e e₁ _ _ onTrue _ onFalse m _ e₂ _ _ e₃ _ _ _ _ hcode _ hemit hop hcondition
      htrueLabel honTrue hfalseLabel honFalse hjoins _ htrueArm hfalseArm hrest ihtrue ihfalse
      ihrest =>
    have hgrows := grows_of_registerOperand hcondition
    have hids₃ := hrest.builds.ids.trans hids
    have hids₂ := hfalseArm.builds.ids.trans hids₃
    have hids₁ : e₁.ids.Extends d.ids := htrueArm.builds.ids.trans hids₂
    have hblocks₁ : e₁.blocks = d.blocks := hgrows.blocks.trans ((Builds.emitBody hemit).blocks.trans hblocks)
    have hblocks₂ : e₂.blocks = d.blocks := htrueArm.builds.blocks.trans hblocks₁
    have hblocks₃ : e₃.blocks = d.blocks := hfalseArm.builds.blocks.trans hblocks₂
    rw [hblocks] at hcode
    have htrue : onTrue ∈ f.blocks := hbranch hs hcode
      (by simp [SourceBlock.branchLabels, hop, htrueLabel, Except.toOption]) hids₁ honTrue
    have hfalse : onFalse ∈ f.blocks := hbranch hs hcode
      (by simp [SourceBlock.branchLabels, hop, hfalseLabel, Except.toOption]) hids₁ honFalse
    have hm : m ∈ f.blocks := by
      cases hjoins with
      | merge hlabel hm => exact hmerge hs hcode (by simp [SourceBlock.mergeLabel?, hlabel]) hids₁ hm
      | trueJumps => exact hfalse
      | falseJumps => exact htrue
    have h₁ := ihtrue hblocks₁ hids₂ htrue
    grind
  | leave => exact fun e he => mem_singleton.mp he ▸ hs
  | returnValue => exact fun e he => mem_singleton.mp he ▸ hs

/-! ### Functions stay apart -/

theorem Tour.Taken.source_mem {t : Tour} {index : Nat} (h : t.Taken index c) (hc : c.Encloses t.source)
    {log : List Emission} (hlog : Structure.Walks 0 t.entry none {} t.start t.body t.finish log) :
    ∀ e ∈ log, e.source ∈ t.source.blocks := by
  have hcarries := h.carries
  refine hlog.source_mem ((hcarries.1.trans hcarries.2).encloses hc) hcarries.2.blocks.symm (.refl _) ?_
  exact mem_of_head? h.entry

variable {e : Nat × BlockId}

theorem placed_of_readFunction {index : Nat} {source : SourceFunction}
    (h : readFunction index source c = .ok () c') (hc : c.Encloses source) (he : e ∈ c'.placed) :
    e ∈ c.placed ∨ e.1 ∈ source.blocks := by
  obtain ⟨t, d, -, rfl, htaken, hresolves, rfl⟩ := readFunction_eq_ok h
  obtain ⟨log, hwalks⟩ := htaken.walks
  change e ∈ d.placed at he
  rw [hresolves.settles.placed] at he
  change e ∈ t.finish.placed at he
  rw [hwalks.placed, htaken.begins.placed, mem_append, mem_reverse, mem_map] at he
  rcases he with ⟨emission, hemission, rfl⟩ | he
  · exact .inr (htaken.source_mem hc hwalks emission hemission)
  · exact .inl he

theorem placed_of_forM {l : List (SourceFunction × Nat)}
    (h : (l.forM fun (source, index) => readFunction index source) c = .ok () c')
    (hc : ∀ p ∈ l, c.Encloses p.1) (he : e ∈ c'.placed) :
    e ∈ c.placed ∨ ∃ p ∈ l, e.1 ∈ p.1.blocks := by
  induction l generalizing c with
  | nil =>
    obtain ⟨-, rfl⟩ := pure_eq_ok.mp h
    exact .inl he
  | cons p l ih =>
    obtain ⟨_, d, hp, hrest⟩ := bind_eq_ok.mp h
    have hcarries := carries_of_readFunction hp
    rcases ih hrest fun q hq => hcarries.encloses (hc q (mem_cons_of_mem p hq)) with he | ⟨q, hq, he⟩
    · rcases placed_of_readFunction hp (hc p (mem_cons_self ..)) he with he | he
      · exact .inl he
      · exact .inr ⟨p, mem_cons_self .., he⟩
    · exact .inr ⟨q, mem_cons_of_mem p hq, he⟩

theorem Tour.Of.source_not_mem {t : Tour} {index : Nat} (h : t.Of c index)
    (hc : ∀ f ∈ c.functions, c.Encloses f) (he : e ∈ t.start.placed) : e.1 ∉ t.source.blocks := by
  intro hmem
  obtain ⟨d, hforM, hbegins⟩ := h.before
  rw [hbegins.placed] at he
  have hfunctions {p : SourceFunction × Nat} (hp : p ∈ (c.functions.toList.take index).zipIdx) :
      p.2 < index ∧ c.functions[p.2]? = some p.1 := by
    grind
  rcases placed_of_forM hforM (fun p hp => hc p.1 (Array.mem_of_getElem? (hfunctions hp).2)) he with
    he | ⟨p, hp, he⟩
  · rw [h.outlined.placed] at he
    cases he
  · obtain ⟨hlt, hget⟩ := hfunctions hp
    exact Nat.ne_of_lt hlt (h.numbered.apart _ _ _ _ hget h.source e.1 he hmem)

end ShaderIR.Spirv
