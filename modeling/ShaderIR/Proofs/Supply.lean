import ShaderIR.Proofs.Resolution

/-!
# Where the sources of a phi come from

Once a phi is filled in, every predecessor of its block supplies a source: the value that is listed
for the predecessor, or a phi that was made there, which is filled in itself. So the phis that were
made for one phi of the stream are closed under going back.
-/

namespace ShaderIR.Spirv.PhiSources

open List

variable {c c' : Context} {pairs : List (Id × Id)} {made made' : Made} {block pred : BlockId} {phi t : Tree}

/-! ### What filling in one phi leaves alone -/

/-- Instructions keep their numbers, and only those of some registers change. -/
structure Keeps (leaves : List Register) (c c' : Context) : Prop where
  pendingPhis : c'.pendingPhis = c.pendingPhis
  size : c.function.instructions.size ≤ c'.function.instructions.size
  instructions : ∀ r < c.function.instructions.size, r ∉ leaves →
    c'.function.instructions[r]? = c.function.instructions[r]?

namespace Keeps

variable {leaves : List Register} {c'' : Context}

protected theorem refl (leaves : List Register) (c : Context) : Keeps leaves c c :=
  ⟨rfl, Nat.le_refl _, fun _ _ _ => rfl⟩

protected theorem trans (h : Keeps leaves c c') (h' : Keeps leaves c' c'') : Keeps leaves c c'' where
  pendingPhis := h'.pendingPhis.trans h.pendingPhis
  size := Nat.le_trans h.size h'.size
  instructions := fun r hr hleaf => by
    rw [h'.instructions r (Nat.lt_of_lt_of_le hr h.size) hleaf, h.instructions r hr hleaf]

theorem of_inserts {spot : Spot} {is : List Instruction} (h : Inserts spot is c c') : Keeps leaves c c' := by
  obtain ⟨types, nextKey, -, rfl⟩ := h
  refine ⟨rfl, by simp, fun r hr _ => ?_⟩
  simp only [Function.insertAll_instructions]
  exact Array.getElem?_append_left hr

theorem mono (h : Keeps [] c c') : Keeps leaves c c' :=
  ⟨h.pendingPhis, h.size, fun r hr _ => h.instructions r hr (not_mem_nil)⟩

end Keeps

/-- A source is added to the phi of a register and to nothing else. -/
theorem addSource_instructions (pred : BlockId) (f : Function) (r value : Register) :
    (addSource pred f r value).instructions.size = f.instructions.size ∧
      (∀ r', r' ≠ r → (addSource pred f r value).instructions[r']? = f.instructions[r']?) ∧
      ∀ sources lanes, f.instructions[r]? = some (.phi sources lanes) →
        (addSource pred f r value).instructions[r]? = some (.phi (sources ++ [⟨pred, value⟩]) lanes) := by
  unfold addSource
  split
  · rename_i sources lanes hr
    refine ⟨by simp [Function.replace], fun r' hne => ?_, fun sources' lanes' hr' => ?_⟩
    · exact Array.getElem?_setIfInBounds_ne hne.symm
    · obtain ⟨hlt, -⟩ := Array.getElem?_eq_some_iff.mp hr
      rw [hr] at hr'
      cases hr'
      exact Array.getElem?_setIfInBounds_self_of_lt hlt
  simp_all

/-- Sources are added to the phis of some registers, each its own, and to nothing else. -/
theorem foldl_addSource (pred : BlockId) (ps : List (Register × Register)) (f : Function) :
    (ps.foldl (fun f p => addSource pred f p.1 p.2) f).instructions.size = f.instructions.size ∧
      (∀ r ∉ ps.map (·.1), (ps.foldl (fun f p => addSource pred f p.1 p.2) f).instructions[r]? =
        f.instructions[r]?) ∧
      ((ps.map (·.1)).Nodup → ∀ r value, (r, value) ∈ ps → ∀ sources lanes,
        f.instructions[r]? = some (.phi sources lanes) →
          (ps.foldl (fun f p => addSource pred f p.1 p.2) f).instructions[r]? =
            some (.phi (sources ++ [⟨pred, value⟩]) lanes)) := by
  induction ps generalizing f with
  | nil => simp_all
  | cons p ps ih =>
    obtain ⟨hsize, hother, hself⟩ := addSource_instructions pred f p.1 p.2
    obtain ⟨hsize', hother', hself'⟩ := ih (addSource pred f p.1 p.2)
    refine ⟨hsize'.trans hsize, fun r hr => ?_, fun hnodup r value hmem sources lanes hr => ?_⟩
    · simp_all
    · rw [map_cons, nodup_cons] at hnodup
      rcases mem_cons.mp hmem with rfl | hmem
      · simp_all
      · have hne : r ≠ p.1 := by
          grind
        grind

/-- Whatever sources a phi gains are for the block. -/
theorem exists_more_foldl_addSource (pred : BlockId) (ps : List (Register × Register)) (f : Function)
    {r : Register} {sources : List PhiSource} {lanes : Nat}
    (hr : f.instructions[r]? = some (.phi sources lanes)) :
    ∃ more, (ps.foldl (fun f p => addSource pred f p.1 p.2) f).instructions[r]? =
      some (.phi (sources ++ more) lanes) ∧ ∀ s ∈ more, s.pred = pred := by
  induction ps generalizing f sources with
  | nil => exact ⟨[], by simpa using hr, by simp⟩
  | cons p ps ih =>
    obtain ⟨-, hother, hself⟩ := addSource_instructions pred f p.1 p.2
    by_cases hne : r = p.1
    · subst hne
      obtain ⟨more, hmore, hpred⟩ := ih _ (hself sources lanes hr)
      simp_all
    · exact ih _ ((hother r hne).trans hr)

theorem map_fst_zip_sublist {α β : Type} (l : List α) (l' : List β) : ((l.zip l').map (·.1)).Sublist l := by
  induction l generalizing l' with
  | nil => simp
  | cons a l ih =>
    cases l' with
    | nil => simp
    | cons b l' => exact (ih l').cons_cons a

theorem keeps_withSources (c : Context) (phi : Tree) (pred : BlockId) (source : Tree) :
    Keeps phi.leaves c (c.withSources phi pred source) := by
  obtain ⟨hsize, hother, -⟩ := foldl_addSource pred (phi.leaves.zip source.leaves) c.function
  refine ⟨rfl, Nat.le_of_eq hsize.symm, fun r _ hr => hother r fun hmem => hr ?_⟩
  obtain ⟨p, hp, rfl⟩ := mem_map.mp hmem
  exact (of_mem_zip hp).1

theorem keeps_of_finds_and_fills {ty : TypeId} :
    (∀ {block made c t made' c'}, Finds pairs ty block made c t made' c' → Keeps [] c c') ∧
      ∀ {phi preds made c made' c'}, Fills pairs ty phi preds made c made' c' → Keeps phi.leaves c c' := by
  refine finds_and_fills ?listed ?known ?make ?nil ?cons
  case listed =>
    intro block made c value t c' _ htree
    obtain ⟨words, hinserts⟩ := Emit.inserts_treeOf htree
    exact .of_inserts hinserts
  case known => exact fun _ _ => .refl _ _
  case make =>
    intro block made c t d made' c' _ _ hphi _ _ hfills
    obtain ⟨is, -, hplants⟩ := Code.plants_phiTree hphi
    have hnew : Keeps [] c d := .of_inserts hplants.inserts
    refine ⟨hfills.pendingPhis.trans hnew.pendingPhis, Nat.le_trans hnew.size hfills.size, fun r hr h => ?_⟩
    have hr' : r ∉ t.leaves := fun hmem => Nat.not_lt.mpr (hplants.mem hmem).1 hr
    rw [hfills.instructions r (Nat.lt_of_lt_of_le hr hnew.size) hr', hnew.instructions r hr h]
  case nil => exact .refl _ _
  case cons =>
    intro phi pred preds made c t made₁ d made' c' _ _ hfinds hrest
    exact (hfinds.mono.trans (keeps_withSources ..)).trans hrest

/-! ### Sources -/

/-- What is needed of a state in which phis are filled in, if `types` were there before. -/
structure Ready (types : Types) (c : Context) : Prop where
  inRange : c.function.InRange
  tidy : c.function.Tidy
  grounded : c.Grounded
  types : types.Extends c.module.types
  nodup : ∀ b, (c.function.preds b).Nodup
  preds : ∀ b, ∀ p ∈ c.function.preds b, p < c.function.blocks.size

/-- The leaves of a tree are the sources of a phi for a block: they hold the listed value once the
block has run, unless it returns, or are phis that were made there. -/
inductive Supplies (c : Context) (pairs : List (Id × Id)) (made : Made) (b : BlockId) (t : Tree) : Prop
  | listed {value : Id} (hlisted : c.listed? pairs b = some value)
      (hheld : c.function.exit? b ≠ some .return → Held c (c.function.upToExit (c.function.code b)) value t)
  | made (hlisted : c.listed? pairs b = none) (hmade : (b, t) ∈ made)

/-- Coming from a block, the leaves of a phi take those of another tree. -/
def Wired (c : Context) (phi : Tree) (pred : BlockId) (t : Tree) : Prop :=
  ∀ (n : Nat) (r r' : Register), phi.leaves[n]? = some r → t.leaves[n]? = some r' →
    c.function.phiSource? (some pred) r = some ⟨pred, r'⟩

/-- A phi has sources for some blocks. -/
def Sourced (c : Context) (pairs : List (Id × Id)) (made : Made) (phi : Tree) (preds : List BlockId) : Prop :=
  ∀ p ∈ preds, ∃ t, Supplies c pairs made p t ∧ Wired c phi p t

/-- A phi leads its block and has sources for all blocks that lead there. -/
structure Filled (c : Context) (pairs : List (Id × Id)) (made : Made) (b : BlockId) (phi : Tree) : Prop where
  phis : ∀ r ∈ phi.leaves, r ∈ c.function.phis (c.function.code b)
  sourced : Sourced c pairs made phi (c.function.preds b)

theorem Settles.listed? (h : Settles c c') (pairs : List (Id × Id)) (b : BlockId) :
    c'.listed? pairs b = c.listed? pairs b := by
  rw [Context.listed?, Context.listed?, h.ends, h.blocks]

variable {preds : List BlockId} {types : Types}

section Mono

variable {types : Types} (hr : Ready types c) (hs : Settles c c')
include hr hs

theorem Ready.settles : Ready types c' where
  inRange := hs.function.inRange hr.inRange
  tidy := hs.function.tidy hr.inRange hr.tidy
  grounded := hr.grounded.of_extends (fun _ _ h => by rwa [hs.ids] at h) hs.constants hs.types
  types := hr.types.trans hs.types
  nodup := fun b => by
    rw [hs.function.preds]
    exact hr.nodup b
  preds := fun b p hp => by
    rw [hs.function.preds] at hp
    rw [hs.function.size]
    exact hr.preds b p hp

theorem held_settles {id : Id} (h : Held c (c.function.upToExit (c.function.code block)) id t) :
    Held c' (c'.function.upToExit (c'.function.code block)) id t :=
  h.mono hr.grounded (by rw [hs.ids]) hs.constants hs.types
    (fun _ _ hi => hs.function.getElem?_instructions hi rfl) (hs.function.upToExit hr.inRange block)

variable (hmade : made ⊆ made')
include hmade

theorem Supplies.settles (h : Supplies c pairs made block t) :
    Supplies c' pairs made' block t := by
  cases h with
  | listed hlisted hheld =>
    refine .listed ((hs.listed? pairs block).trans hlisted) fun hexit => held_settles hr hs (hheld ?_)
    rwa [hs.function.exit hr.inRange] at hexit
  | made hlisted hmem => exact .made ((hs.listed? pairs block).trans hlisted) (hmade hmem)

theorem Sourced.settles (h : Sourced c pairs made phi preds) :
    Sourced c' pairs made' phi preds := by
  intro p hp
  obtain ⟨t, hsupplies, hwired⟩ := h p hp
  exact ⟨t, hsupplies.settles hr hs hmade, fun n r r' hn hn' =>
    hs.function.phiSource?_eq (hwired n r r' hn hn')⟩

theorem Filled.settles (h : Filled c pairs made block phi) :
    Filled c' pairs made' block phi where
  phis := fun r hmem => hs.function.phis hr.inRange block r (h.phis r hmem)
  sourced := by
    rw [hs.function.preds]
    exact h.sourced.settles hr hs hmade

end Mono

/-! ### Filling in -/

/-- The leaves of a phi have no sources yet for some blocks. -/
def Vacant (c : Context) (phi : Tree) (preds : List BlockId) : Prop :=
  ∀ r ∈ phi.leaves, ∃ sources lanes, c.function.instructions[r]? = some (.phi sources lanes) ∧
    ∀ s ∈ sources, s.pred ∉ preds

theorem Vacant.keeps (h : Vacant c phi preds) (hk : Keeps [] c c') : Vacant c' phi preds := by
  intro r hr
  obtain ⟨sources, lanes, hi, hpreds⟩ := h r hr
  obtain ⟨hlt, -⟩ := Array.getElem?_eq_some_iff.mp hi
  exact ⟨sources, lanes, (hk.instructions r hlt not_mem_nil).trans hi, hpreds⟩

/-- What the instruction of a leaf is after a source was added. -/
theorem getElem?_withSources {source : Tree} {n : Nat} {r r' : Register} {sources : List PhiSource}
    {lanes : Nat} (hphi : phi.leaves.Nodup) (hn : phi.leaves[n]? = some r)
    (hn' : source.leaves[n]? = some r')
    (hi : c.function.instructions[r]? = some (.phi sources lanes)) :
    (c.withSources phi pred source).function.instructions[r]? = some (.phi (sources ++ [⟨pred, r'⟩]) lanes) := by
  obtain ⟨-, -, hself⟩ := foldl_addSource pred (phi.leaves.zip source.leaves) c.function
  refine hself ?_ r r' ?_ sources lanes hi
  · exact hphi.sublist (map_fst_zip_sublist ..)
  · exact mem_of_getElem? (getElem?_zip_eq_some.mpr ⟨hn, hn'⟩)

theorem wired_withSources (hphi : phi.leaves.Nodup) (h : Vacant c phi (pred :: preds)) :
    Wired (c.withSources phi pred t) phi pred t := by
  intro n r r' hn hn'
  obtain ⟨sources, lanes, hi, hpreds⟩ := h r (mem_of_getElem? hn)
  have hnone : sources.find? (fun s => some s.pred == some pred) = none := by
    simp_all
  rw [Function.phiSource?, getElem?_withSources hphi hn hn' hi]
  grind

theorem vacant_withSources (hpreds : (pred :: preds).Nodup) (h : Vacant c phi (pred :: preds)) :
    Vacant (c.withSources phi pred t) phi preds := by
  intro r hr
  obtain ⟨sources, lanes, hi, hnew⟩ := h r hr
  obtain ⟨more, hmore, hpred⟩ := exists_more_foldl_addSource pred (phi.leaves.zip t.leaves) c.function hi
  refine ⟨_, lanes, hmore, fun s hs hmem => ?_⟩
  rcases mem_append.mp hs with hs | hs
  · exact hnew s hs (mem_cons_of_mem _ hmem)
  simp_all

theorem held_of_treeOf {value : Id} (hr : Ready types c) (hblock : block < c.function.blocks.size)
    (h : Emit.treeOf value (.beforeJump block) c = .ok t c')
    (hexit : c'.function.exit? block ≠ some .return) :
    Held c' (c'.function.upToExit (c'.function.code block)) value t := by
  refine Emit.held_of_treeOf hr.grounded h fun r words hle hload => ?_
  obtain ⟨words, hi⟩ := Emit.inserts_treeOf h
  obtain ⟨hlt, -⟩ := Array.getElem?_eq_some_iff.mp hload
  have hloads : ∀ i ∈ words.map Instruction.loadConst, i.exit? = none ∧ i.isPhi = false := by
    simp [Instruction.exit?, Instruction.isPhi]
  rw [hi.size] at hlt
  rw [hi.function, Function.exit?_insertAll hr.inRange fun i hi => (hloads i hi).1] at hexit
  rw [hi.function]
  exact Function.mem_upToExit_insertAll_beforeJump hr.inRange hr.tidy hblock hloads hexit hle hlt

/-- A phi that is made for a block leads it and has no sources. -/
theorem vacant_of_phiTree {ty : TypeId} (hr : Ready types c)
    (hblock : block < c.function.blocks.size) (h : Code.phiTree ty (.front block) c = .ok t c')
    (preds : List BlockId) :
    t.leaves.Nodup ∧ Vacant c' t preds ∧ Settles c c' ∧
      ∀ r ∈ t.leaves, r ∈ c'.function.phis (c'.function.code block) := by
  obtain ⟨is, his, hplants⟩ := Code.plants_phiTree h
  have hphis : ∀ i ∈ is, i.isPhi := by
    intro i hi
    obtain ⟨lanes, rfl⟩ := his i hi
    rfl
  refine ⟨hplants.nodup, fun r hmem => ?_,
    .of_inserts hplants.inserts (Function.settles_insertAll_front hphis), fun r hmem => ?_⟩
  · obtain ⟨n, hn, rfl⟩ := getElem_of_mem hmem
    have hn' : n < is.length := by rwa [← hplants.length]
    obtain ⟨lanes, hlanes⟩ := his is[n] (getElem_mem hn')
    refine ⟨[], lanes, ?_, by simp⟩
    rw [hplants.getElem? (getElem?_eq_getElem hn), getElem?_eq_getElem hn', hlanes]
  · have hmem := hplants.mem hmem
    rw [hplants.inserts.size] at hmem
    rw [hplants.inserts.function]
    exact Function.mem_phis_insertAll_front hr.inRange hblock hphis hmem.1 hmem.2

/-- The phis that were made between two states are all filled in, and have as many leaves. -/
def AllFilled (c : Context) (pairs : List (Id × Id)) (n : Nat) (made made' : Made) : Prop := made ⊆ made' ∧
    ∀ e ∈ made', e ∈ made ∨ Filled c pairs made' e.1 e.2 ∧ e.2.leaves.length = n

theorem AllFilled.trans {n : Nat} {made'' : Made} (hr : Ready types c) (hs : Settles c c')
    (h : AllFilled c pairs n made made') (h' : AllFilled c' pairs n made' made'') :
    AllFilled c' pairs n made made'' := by
  refine ⟨fun _ he => h'.1 (h.1 he), fun e he => ?_⟩
  rcases h'.2 e he with he | he
  · rcases h.2 e he with he | ⟨hfilled, hn⟩
    · exact .inl he
    · exact .inr ⟨hfilled.settles hr hs h'.1, hn⟩
  · exact .inr he

/-- Whatever is found at the end of a block supplies a source for it, and a phi that is filled in has
sources for all blocks it was filled in for. All phis that are made on the way are filled in. -/
theorem supplies_and_sourced {ty : TypeId} {n : Nat}
    (hcount : ∀ {spot c t c'}, types.Extends c.module.types → Code.phiTree ty spot c = .ok t c' →
      t.leaves.length = n) :
    (∀ {block made c t made' c'}, Finds pairs ty block made c t made' c' → Ready types c →
        block < c.function.blocks.size →
        Supplies c' pairs made' block t ∧ AllFilled c' pairs n made made') ∧
      ∀ {phi preds made c made' c'}, Fills pairs ty phi preds made c made' c' → Ready types c →
        (∀ p ∈ preds, p < c.function.blocks.size) → preds.Nodup → phi.leaves.Nodup →
        Vacant c phi preds →
        Sourced c' pairs made' phi preds ∧ AllFilled c' pairs n made made' := by
  refine finds_and_fills ?listed ?known ?make ?nil ?cons
  case listed =>
    intro block made c value t c' hlisted htree hr hblock
    have hs : Settles c c' := settles_of_finds_and_fills.1 (@Finds.listed pairs ty _ made _ _ _ _ hlisted htree)
    exact ⟨.listed ((hs.listed? pairs block).trans hlisted) (held_of_treeOf hr hblock htree),
      List.Subset.refl made, fun e he => .inl he⟩
  case known =>
    intro block made c t hlisted hknown hr hblock
    obtain ⟨before, after, hmade, -⟩ := lookup_eq_some_iff.mp hknown
    exact ⟨.made hlisted (by simp [hmade]), List.Subset.refl made, fun e he => .inl he⟩
  case make =>
    intro block made c t d made' c' hlisted hknown hphi hpreds hfills ih hr hblock
    obtain ⟨hnodup, hvacant, hs, hfront⟩ := vacant_of_phiTree hr hblock hphi (d.function.preds block)
    have hd := hr.settles hs
    have hs' := settles_of_finds_and_fills.2 hfills
    obtain ⟨hsourced, hsubset, hfilled⟩ := ih hd (hd.preds block) (hd.nodup block) hnodup hvacant
    have hself : Filled c' pairs made' block t := by
      refine ⟨fun r hmem => hs'.function.phis hd.inRange block r (hfront r hmem), ?_⟩
      rwa [hs'.function.preds]
    refine ⟨.made ?_ (hsubset (mem_cons_self ..)), fun e he => hsubset (mem_cons_of_mem _ he), fun e he => ?_⟩
    · exact ((hs.trans hs').listed? pairs block).trans hlisted
    · rcases hfilled e he with he | he
      · rcases mem_cons.mp he with rfl | he
        · exact .inr ⟨hself, hcount hr.types hphi⟩
        · exact .inl he
      · exact .inr he
  case nil =>
    intro phi made c _ _ _ _ _
    exact ⟨fun p hp => (not_mem_nil hp).elim, List.Subset.refl made, fun e he => .inl he⟩
  case cons =>
    intro phi pred preds made c t made₁ d made' c' hfinds hrest ihfinds ihrest hr hpreds hnodup hleaves hvacant
    have hs₁ := settles_of_finds_and_fills.1 hfinds
    have hs₂ := settles_withSources d phi pred t
    have hs₃ := settles_of_finds_and_fills.2 hrest
    obtain ⟨hsupplies, hall⟩ := ihfinds hr (hpreds pred (mem_cons_self ..))
    have hvacant' := hvacant.keeps (keeps_of_finds_and_fills.1 hfinds)
    have hd := hr.settles hs₁
    have hd' := hd.settles hs₂
    obtain ⟨hsourced, hall'⟩ := ihrest hd' (fun p hp => by
        rw [hs₂.function.size, hs₁.function.size]
        exact hpreds p (mem_cons_of_mem _ hp))
      (nodup_cons.mp hnodup).2 hleaves (vacant_withSources hnodup hvacant')
    refine ⟨fun p hp => ?_, hall.trans hd (hs₂.trans hs₃) hall'⟩
    rcases mem_cons.mp hp with rfl | hp
    · refine ⟨t, hsupplies.settles hd (hs₂.trans hs₃) hall'.1, fun n r r' hn hn' => ?_⟩
      exact hs₃.function.phiSource?_eq (wired_withSources hleaves hvacant' n r r' hn hn')
    · exact hsourced p hp

end ShaderIR.Spirv.PhiSources
