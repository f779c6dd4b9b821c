import ShaderIR.Proofs.Leaves
import ShaderIR.Proofs.Settling
import ShaderIR.Spirv.PhiSources

/-!
# What filling in a phi does

The value of a phi at the end of a block is the value listed for the block of the stream as which
control leaves the block. Where none is listed, it is a phi of its own, whose sources are the values
at the ends of the predecessors. The relations `Finds` and `Fills` have one rule for each case.
-/

namespace ShaderIR.Spirv

open EStateM List Lower

/-- The value that a phi lists for the block of the stream as which control leaves a block. -/
def Context.listed? (c : Context) (pairs : List (Id × Id)) (block : BlockId) : Option Id := do
  let source ← c.ends.lookup block
  let code ← c.blocks[source]?
  Code.listedValue? pairs code.label

theorem Context.listed?_eq_some {c : Context} {pairs : List (Id × Id)} {block : BlockId} {value : Id} :
    c.listed? pairs block = some value ↔ ∃ source code, c.ends.lookup block = some source ∧
      c.blocks[source]? = some code ∧ Code.listedValue? pairs code.label = some value := by
  simp [listed?, Option.bind_eq_some_iff]

/-- The state after the registers of a tree became the sources for a block of the phis of another. -/
def Context.withSources (c : Context) (phi : Tree) (pred : BlockId) (source : Tree) : Context :=
  c.withFunction ((phi.leaves.zip source.leaves).foldl
    (fun f (phi, value) => PhiSources.addSource pred f phi value) c.function)

namespace PhiSources

variable {c c' : Context} {pairs : List (Id × Id)} {ty : TypeId} {block : BlockId}

theorem listedAt?_eq_ok {value : Option Id} :
    listedAt? pairs block c = .ok value c' ↔ value = c.listed? pairs block ∧ c' = c := by
  unfold listedAt?
  rw [bind_eq_ok]
  constructor
  · rintro ⟨d, d', hget, hpure⟩
    obtain ⟨rfl, rfl⟩ := get_eq_ok.mp hget
    obtain ⟨rfl, rfl⟩ := pure_eq_ok.mp hpure
    exact ⟨rfl, rfl⟩
  · rintro ⟨rfl, rfl⟩
    exact ⟨_, _, rfl, rfl⟩

theorem predecessors_eq_ok {ps : List BlockId} : predecessors block c = .ok ps c' ↔
      block < c.function.blocks.size ∧ ps = c.function.preds block ∧ c' = c := by
  unfold predecessors
  rw [bind_eq_ok]
  constructor
  · rintro ⟨d, d', hget, hrest⟩
    obtain ⟨rfl, rfl⟩ := get_eq_ok.mp hget
    cases hb : d'.function.blocks[block]? with
    | none =>
      rw [hb] at hrest
      exact (throw_eq_ok.mp hrest).elim
    | some b =>
      rw [hb] at hrest
      obtain ⟨rfl, rfl⟩ := pure_eq_ok.mp hrest
      refine ⟨(Array.getElem?_eq_some_iff.mp hb).1, ?_, rfl⟩
      rw [Function.preds, hb]
      rfl
  · rintro ⟨hlt, rfl, rfl⟩
    refine ⟨_, _, rfl, ?_⟩
    rw [Function.preds, Array.getElem?_eq_getElem hlt]
    rfl

theorem addSources_eq_ok {phi source : Tree} {pred : BlockId} {u : Unit} :
    addSources phi pred source c = .ok u c' ↔ c' = c.withSources phi pred source :=
  modify_eq_ok

mutual

/-- How the value of a phi at the end of a block is found: from which state to which, and with which
phis made on the way. -/
inductive Finds (pairs : List (Id × Id)) (ty : TypeId) : BlockId → Made → Context → Tree → Made → Context → Prop
  /-- A value is listed for the block. -/
  | listed {block made c value t c'} (hlisted : c.listed? pairs block = some value)
      (htree : Emit.treeOf value (.beforeJump block) c = .ok t c') :
      Finds pairs ty block made c t made c'
  /-- A phi was made for the block before. -/
  | known {block made c t} (hlisted : c.listed? pairs block = none)
      (hknown : made.lookup block = some t) : Finds pairs ty block made c t made c
  /-- A phi is made for the block. -/
  | make {block made c t d made' c'} (hlisted : c.listed? pairs block = none)
      (hknown : made.lookup block = none) (hphi : Code.phiTree ty (.front block) c = .ok t d)
      (hpreds : d.function.preds block ≠ [])
      (hfills : Fills pairs ty t (d.function.preds block) ((block, t) :: made) d made' c') :
      Finds pairs ty block made c t made' c'

/-- How the sources of a phi are filled in for some blocks. -/
inductive Fills (pairs : List (Id × Id)) (ty : TypeId) :
    Tree → List BlockId → Made → Context → Made → Context → Prop
  | nil {phi made c} : Fills pairs ty phi [] made c made c
  | cons {phi pred preds made c t made₁ d made' c'}
      (hfinds : Finds pairs ty pred made c t made₁ d)
      (hrest : Fills pairs ty phi preds made₁ (d.withSources phi pred t) made' c') :
      Fills pairs ty phi (pred :: preds) made c made' c'

end

/-- To show something of all values that are found and of all sources that are filled in, show that
each rule keeps it. -/
theorem finds_and_fills {P : BlockId → Made → Context → Tree → Made → Context → Prop}
    {Q : Tree → List BlockId → Made → Context → Made → Context → Prop}
    (listed : ∀ {block made c value t c'}, c.listed? pairs block = some value →
      Emit.treeOf value (.beforeJump block) c = .ok t c' → P block made c t made c')
    (known : ∀ {block made c t}, c.listed? pairs block = none → made.lookup block = some t →
      P block made c t made c)
    (make : ∀ {block made c t d made' c'}, c.listed? pairs block = none →
      made.lookup block = none → Code.phiTree ty (.front block) c = .ok t d →
      d.function.preds block ≠ [] →
      Fills pairs ty t (d.function.preds block) ((block, t) :: made) d made' c' →
      Q t (d.function.preds block) ((block, t) :: made) d made' c' → P block made c t made' c')
    (nil : ∀ {phi made c}, Q phi [] made c made c)
    (cons : ∀ {phi pred preds made c t made₁ d made' c'}, Finds pairs ty pred made c t made₁ d →
      Fills pairs ty phi preds made₁ (d.withSources phi pred t) made' c' →
      P pred made c t made₁ d → Q phi preds made₁ (d.withSources phi pred t) made' c' →
      Q phi (pred :: preds) made c made' c') :
    (∀ {block made c t made' c'}, Finds pairs ty block made c t made' c' → P block made c t made' c') ∧
      ∀ {phi preds made c made' c'}, Fills pairs ty phi preds made c made' c' → Q phi preds made c made' c' :=
  ⟨fun h => @Finds.rec pairs ty (fun b m c t m' c' _ => P b m c t m' c')
      (fun p ps m c m' c' _ => Q p ps m c m' c') listed known make nil cons _ _ _ _ _ _ h,
    fun h => @Fills.rec pairs ty (fun b m c t m' c' _ => P b m c t m' c')
      (fun p ps m c m' c' _ => Q p ps m c m' c') listed known make nil cons _ _ _ _ _ _ h⟩

theorem fills_of_fill {find : BlockId → Made → Lower (Tree × Made)}
    (hfind : ∀ {block made c t made' c'}, find block made c = .ok (t, made') c' →
      Finds pairs ty block made c t made' c')
    {phi : Tree} {preds : List BlockId} {made made' : Made}
    (h : fill find phi preds made c = .ok made' c') : Fills pairs ty phi preds made c made' c' := by
  unfold fill at h
  induction preds generalizing made c with
  | nil =>
    obtain ⟨rfl, rfl⟩ := pure_eq_ok.mp h
    exact .nil
  | cons pred preds ih =>
    rw [foldlM_cons, bind_eq_ok] at h
    obtain ⟨made₁, d, hstep, hrest⟩ := h
    obtain ⟨⟨t, made₂⟩, d₁, ht, hadd⟩ := bind_eq_ok.mp hstep
    obtain ⟨_, d₂, hadd, hpure⟩ := bind_eq_ok.mp hadd
    obtain rfl := addSources_eq_ok.mp hadd
    obtain ⟨rfl, rfl⟩ := pure_eq_ok.mp hpure
    exact .cons (hfind ht) (ih hrest)

theorem finds_of_valueAt {depth : Nat} {made made' : Made} {t : Tree}
    (h : valueAt pairs ty depth block made c = .ok (t, made') c') :
    Finds pairs ty block made c t made' c' := by
  induction depth generalizing block made c t made' c' with
  | zero => exact (throw_eq_ok.mp h).elim
  | succ depth ih =>
    unfold valueAt at h
    rw [bind_eq_ok] at h
    obtain ⟨listed, c₁, hlisted, h⟩ := h
    obtain ⟨rfl, rfl⟩ := listedAt?_eq_ok.mp hlisted
    cases hvalue : c₁.listed? pairs block with
    | some value =>
      simp only [hvalue] at h
      obtain ⟨t', d, ht, hpure⟩ := bind_eq_ok.mp h
      obtain ⟨hpair, rfl⟩ := pure_eq_ok.mp hpure
      cases hpair
      exact .listed hvalue ht
    | none =>
      simp only [hvalue] at h
      cases hknown : made.lookup block with
      | some known =>
        simp only [hknown] at h
        obtain ⟨hpair, rfl⟩ := pure_eq_ok.mp h
        cases hpair
        exact .known hvalue hknown
      | none =>
        simp only [hknown] at h
        rw [bind_eq_ok] at h
        obtain ⟨phi, d, hphi, h⟩ := h
        rw [bind_eq_ok] at h
        obtain ⟨preds, d₁, hpreds, h⟩ := h
        obtain ⟨-, rfl, rfl⟩ := predecessors_eq_ok.mp hpreds
        cases hps : d₁.function.preds block with
        | nil =>
          simp only [hps, isEmpty_nil, if_true] at h
          obtain ⟨_, _, hthrow, -⟩ := bind_eq_ok.mp h
          exact (throw_eq_ok.mp hthrow).elim
        | cons p ps =>
          simp only [hps, isEmpty_cons] at h
          obtain ⟨made₁, d₂, hfill, hpure⟩ := bind_eq_ok.mp h
          obtain ⟨hpair, rfl⟩ := pure_eq_ok.mp hpure
          cases hpair
          rw [← hps] at hfill
          exact .make hvalue hknown hphi (by simp [hps]) (fills_of_fill ih hfill)

/-! ### What stays -/

/-- What filling in phis keeps of a state. -/
structure Settles (c c' : Context) : Prop where
  blocks : c'.blocks = c.blocks
  functions : c'.functions = c.functions
  ends : c'.ends = c.ends
  placed : c'.placed = c.placed
  ids : c'.ids = c.ids
  types : c.module.types.Extends c'.module.types
  constants : c'.module.constants = c.module.constants
  moduleFunctions : c'.module.functions = c.module.functions
  function : c.function.Settles c'.function

namespace Settles

protected theorem refl (c : Context) : Settles c c := ⟨rfl, rfl, rfl, rfl, rfl, .refl _, rfl, rfl, .refl _⟩

protected theorem trans {c'' : Context} (h : Settles c c') (h' : Settles c' c'') : Settles c c'' where
  blocks := h'.blocks.trans h.blocks
  functions := h'.functions.trans h.functions
  ends := h'.ends.trans h.ends
  placed := h'.placed.trans h.placed
  ids := h'.ids.trans h.ids
  types := h.types.trans h'.types
  constants := h'.constants.trans h.constants
  moduleFunctions := h'.moduleFunctions.trans h.moduleFunctions
  function := h.function.trans h'.function

theorem of_inserts {spot : Spot} {is : List Instruction} (h : Inserts spot is c c')
    (hs : c.function.Settles (c.function.insertAll spot is)) : Settles c c' := by
  obtain ⟨types, nextKey, hext, rfl⟩ := h
  exact { Settles.refl c with types := hext, function := hs }

end Settles

theorem settles_addSource (pred : BlockId) (f : Function) (phi value : Register) :
    f.Settles (addSource pred f phi value) := by
  unfold addSource
  split
  · exact Function.settles_replace ‹_›
  · exact .refl f

theorem settles_withSources (c : Context) (phi : Tree) (pred : BlockId) (source : Tree) :
    Settles c (c.withSources phi pred source) := by
  refine { Settles.refl c with function := ?_ }
  change c.function.Settles ((phi.leaves.zip source.leaves).foldl _ c.function)
  generalize c.function = f
  induction phi.leaves.zip source.leaves generalizing f with
  | nil => exact .refl f
  | cons p ps ih => exact (settles_addSource pred f p.1 p.2).trans (ih _)

theorem settles_of_finds_and_fills :
    (∀ {block made c t made' c'}, Finds pairs ty block made c t made' c' → Settles c c') ∧
      ∀ {phi preds made c made' c'}, Fills pairs ty phi preds made c made' c' → Settles c c' := by
  refine finds_and_fills ?listed ?known ?make ?nil ?cons
  case listed =>
    intro block made c value t c' _ htree
    obtain ⟨words, hinserts⟩ := Emit.inserts_treeOf htree
    refine .of_inserts hinserts (Function.settles_insertAll_beforeJump fun i hi => ?_)
    obtain ⟨bits, -, rfl⟩ := mem_map.mp hi
    exact ⟨rfl, rfl⟩
  case known => exact fun _ _ => .refl _
  case make =>
    intro block made c t d made' c' _ _ hphi _ _ hfills
    obtain ⟨is, his, hplants⟩ := Code.plants_phiTree hphi
    refine (Settles.of_inserts hplants.inserts ?_).trans hfills
    refine Function.settles_insertAll_front fun i hi => ?_
    obtain ⟨lanes, rfl⟩ := his i hi
    rfl
  case nil => exact .refl _
  case cons => exact fun _ _ hfinds hrest => (hfinds.trans (settles_withSources ..)).trans hrest

/-- How the sources of one phi are filled in. -/
inductive Resolves (source : Nat) (i : RawInstruction) : Context → Context → Prop
  /-- The phi takes the value of the block it continues, or was never reached. -/
  | skip {c id} (hid : i.operand 1 = .ok id) (hpending : c.pendingPhis.lookup id = none) :
      Resolves source i c c
  | fill {c id tree ty pairs block c₁ made c'} (hid : i.operand 1 = .ok id)
      (hpending : c.pendingPhis.lookup id = some tree)
      (hty : ∃ id v, i.operand 0 = .ok id ∧ c.ids.typeValue id = .ok v ∧ ty = v.ty)
      (hpairs : Code.phiPairs i = .ok pairs)
      (hplaced : c.placed.lookup source = some block)
      (hc₁ : c₁ = Context.reported { c with pendingPhis := c.pendingPhis.filter (·.1 ≠ id) } (.phi id))
      (hfills : Fills pairs ty tree (c.function.preds block) [] c₁ made c') : Resolves source i c c'

theorem resolves_of_resolve {source : Nat} {i : RawInstruction} (h : resolve source i c = .ok () c') :
    Resolves source i c c' := by
  unfold resolve at h
  rw [bind_eq_ok] at h
  obtain ⟨id, c₁, hoperand, h⟩ := h
  obtain ⟨hid, rfl⟩ := operand_eq_ok.mp hoperand
  replace h := getBind_eq_ok.mp h
  cases hpending : c₁.pendingPhis.lookup id with
  | none =>
    simp only [hpending] at h
    obtain ⟨-, rfl⟩ := pure_eq_ok.mp h
    exact .skip hid hpending
  | some tree =>
    simp only [hpending] at h
    rw [bind_eq_ok] at h
    obtain ⟨_, c₄, hmodify, h⟩ := h
    rw [modify_eq_ok] at hmodify
    rw [bind_eq_ok] at h
    obtain ⟨ty, c₅, htype, h⟩ := h
    obtain ⟨hty, rfl⟩ := typeOperand_eq_ok.mp htype
    rw [bind_eq_ok] at h
    obtain ⟨pairs, c₆, hexcept, h⟩ := h
    obtain ⟨hpairs, rfl⟩ := ofExcept_eq_ok.mp hexcept
    replace h := getBind_eq_ok.mp h
    cases hplaced : c₆.placed.lookup source with
    | none =>
      simp only [hplaced] at h
      exact (throw_eq_ok.mp h).elim
    | some block =>
      simp only [hplaced] at h
      rw [bind_eq_ok] at h
      obtain ⟨_, c₉, hreport, h⟩ := h
      obtain rfl := report_eq_ok.mp hreport
      replace h := getBind_eq_ok.mp h
      rw [bind_eq_ok] at h
      obtain ⟨preds, c₁₂, hpreds, h⟩ := h
      obtain ⟨-, rfl, rfl⟩ := predecessors_eq_ok.mp hpreds
      rw [bind_eq_ok] at h
      obtain ⟨made, c₁₃, hfill, h⟩ := h
      obtain ⟨-, rfl⟩ := pure_eq_ok.mp h
      subst hmodify
      exact .fill hid hpending hty hpairs hplaced rfl (fills_of_fill finds_of_valueAt hfill)

/-- The phis of a function of the stream, each with its block. -/
def phisOf (c : Context) (f : SourceFunction) : List (Nat × RawInstruction) := f.blocks.flatMap fun source =>
    match c.blocks[source]? with
    | none => []
    | some code => (code.code.filter (·.op = .opPhi)).map (source, ·)

theorem mem_phisOf {c : Context} {f : SourceFunction} {x : Nat × RawInstruction} :
    x ∈ phisOf c f ↔ x.1 ∈ f.blocks ∧ ∃ code, c.blocks[x.1]? = some code ∧ x.2 ∈ code.code ∧ x.2.op = .opPhi := by
  unfold phisOf
  rw [mem_flatMap]
  constructor
  · rintro ⟨source, hsource, hx⟩
    split at hx
    · cases hx
    · rename_i code hcode
      obtain ⟨i, hi, rfl⟩ := mem_map.mp hx
      rw [mem_filter, decide_eq_true_eq] at hi
      exact ⟨hsource, code, hcode, hi⟩
  · rintro ⟨hsource, code, hcode, hi⟩
    refine ⟨x.1, hsource, ?_⟩
    rw [hcode]
    exact mem_map.mpr ⟨x.2, mem_filter.mpr ⟨hi.1, by simpa using hi.2⟩, rfl⟩

/-- How the sources of phis are filled in one after another. -/
inductive ResolvesAll : List (Nat × RawInstruction) → Context → Context → Prop
  | nil {c : Context} : ResolvesAll [] c c
  | cons {source i phis} {c d c' : Context} (hphi : Resolves source i c d) (hrest : ResolvesAll phis d c') :
      ResolvesAll ((source, i) :: phis) c c'

theorem Resolves.settles {source : Nat} {i : RawInstruction} (h : Resolves source i c c') : Settles c c' := by
  cases h with
  | skip => exact .refl c
  | fill _ _ _ _ _ hc₁ hfills =>
    have hs := settles_of_finds_and_fills.2 hfills
    subst hc₁
    exact { hs with }

namespace ResolvesAll

variable {phis phis' : List (Nat × RawInstruction)} {d : Context}

theorem settles (h : ResolvesAll phis c c') : Settles c c' := by
  induction h with
  | nil => exact .refl _
  | cons hphi _ ih => exact hphi.settles.trans ih

theorem append (h : ResolvesAll phis c d) (h' : ResolvesAll phis' d c') : ResolvesAll (phis ++ phis') c c' := by
  induction h with
  | nil => exact h'
  | cons hphi _ ih => exact .cons hphi (ih h')

end ResolvesAll

theorem resolvesAll_of_forM {source : Nat} {is : List RawInstruction}
    (h : is.forM (resolve source) c = .ok () c') : ResolvesAll (is.map (source, ·)) c c' := by
  induction is generalizing c with
  | nil =>
    obtain ⟨-, rfl⟩ := pure_eq_ok.mp h
    exact .nil
  | cons i is ih =>
    obtain ⟨_, d, hi, hrest⟩ := bind_eq_ok.mp h
    exact .cons (resolves_of_resolve hi) (ih hrest)

theorem resolvesAll_of_resolveAll {f : SourceFunction} (h : resolveAll f c = .ok () c') :
    ResolvesAll (phisOf c f) c c' := by
  unfold resolveAll at h
  unfold phisOf
  generalize f.blocks = sources at h
  generalize hblocks : c.blocks = blocks
  induction sources generalizing c with
  | nil =>
    obtain ⟨-, rfl⟩ := pure_eq_ok.mp h
    exact .nil
  | cons source sources ih =>
    obtain ⟨_, d, hhead, hrest⟩ := bind_eq_ok.mp h
    rw [flatMap_cons]
    obtain ⟨c₁, c₂, hget, hsource⟩ := bind_eq_ok.mp hhead
    obtain ⟨rfl, rfl⟩ := get_eq_ok.mp hget
    rw [hblocks] at hsource
    have hphis : ResolvesAll (match blocks[source]? with
        | none => []
        | some code => (code.code.filter (·.op = .opPhi)).map (source, ·)) c₂ d := by
      cases hcode : blocks[source]? with
      | none =>
        simp only [hcode] at hsource
        obtain ⟨-, rfl⟩ := pure_eq_ok.mp hsource
        exact .nil
      | some code =>
        simp only [hcode] at hsource
        exact resolvesAll_of_forM hsource
    exact hphis.append (ih hrest (hphis.settles.blocks.trans hblocks))

end PhiSources

end ShaderIR.Spirv
