import ShaderIR.Proofs.Phis
import ShaderIR.Proofs.Supply

/-!
# Sources match predecessors

When the sources of a phi of the stream are filled in, at most one tree of phis is made for each block
on the way, and every phi that is filled in gets one source for each predecessor of its block, in
order. This needs values with as many leaves as the phi has.
-/

namespace ShaderIR.Spirv

open List

/-- How many leaves the tree of an id has. -/
def Context.leafCount? (c : Context) (id : Id) : Option Nat :=
  match c.ids.get id with
  | .ok (.tree t) => some t.leaves.length
  | .ok (.constant k) => some (c.leafWords k).length
  | _ => none

/-- How many leaves the trees of the values of a phi have. -/
def Context.valueCounts (c : Context) (i : RawInstruction) : List Nat :=
  match Code.phiPairs i with
  | .ok pairs => pairs.filterMap fun pair => c.leafCount? pair.1
  | .error _ => []

/-- The values of a phi have as many leaves as the phi. -/
def Context.PhiFits (c : Context) (i : RawInstruction) : Prop :=
  ∀ m ∈ (i.operand 1).toOption.bind c.leafCount?, ∀ n ∈ c.valueCounts i, n = m

instance (c : Context) (i : RawInstruction) : Decidable (c.PhiFits i) := inferInstanceAs (Decidable (∀ m ∈ _, _))

theorem Context.PhiFits.eq {c : Context} {i : RawInstruction} (h : c.PhiFits i) {id : Id}
    {pairs : List (Id × Id)} {pair : Id × Id} {n m : Nat} (hid : i.operand 1 = .ok id)
    (hpairs : Code.phiPairs i = .ok pairs) (hpair : pair ∈ pairs) (hn : c.leafCount? pair.1 = some n)
    (hm : c.leafCount? id = some m) : n = m := by
  refine h m ?_ n ?_
  · rw [hid]
    exact hm
  · simp only [valueCounts, hpairs]
    exact mem_filterMap.mpr ⟨pair, hpair, hn⟩

theorem Context.Grounded.leafCount?_eq {c d : Context} (h : c.Grounded) (hids : d.ids = c.ids)
    (hconstants : d.module.constants = c.module.constants)
    (htypes : c.module.types.Extends d.module.types) (id : Id) : d.leafCount? id = c.leafCount? id := by
  unfold Context.leafCount?
  rw [hids]
  split
  · rfl
  · rename_i k hk
    rw [h.leafWords_eq hconstants htypes (h.ids id k hk)]
  · rfl

theorem Emit.leafCount?_of_treeOf {spot : Spot} {c c' : Context} {id : Id} {t : Tree} (hg : c.Grounded)
    (h : treeOf id spot c = .ok t c') : c.leafCount? id = some t.leaves.length := by
  rcases treeOf_eq_ok h with ⟨hget, -⟩ | ⟨k, words, hget, hplants, hwords⟩
  · simp [Context.leafCount?, hget]
  · simp [Context.leafCount?, hget, hplants.length, hwords hg]

namespace PhiSources

variable {c c' d : Context} {pairs : List (Id × Id)} {made made' made'' : Made} {block pred : BlockId}
  {phi t : Tree} {ty : TypeId}

/-! ### One tree for each block -/

/-- A tree of phis of a type that was made at the front of a block. -/
def IsPhiTree (ty : TypeId) (b : BlockId) (t : Tree) : Prop := ∃ d d', Code.phiTree ty (.front b) d = .ok t d'

/-- Between two states, trees of phis were made for some blocks, one for each, and no other phi was put
into a block. -/
structure MakesOnce (ty : TypeId) (made : Made) (c : Context) (made' : Made) (c' : Context) : Prop where
  subset : made ⊆ made'
  nodup : (made.map (·.1)).Nodup → (made'.map (·.1)).Nodup
  trees : ∀ e ∈ made', e ∈ made ∨ IsPhiTree ty e.1 e.2
  old : ∀ b, ∀ r ∈ c'.function.code b, r < c.function.instructions.size → r ∈ c.function.code b
  new : ∀ b, ∀ r ∈ c'.function.code b, c.function.instructions.size ≤ r → c'.function.isPhiAt r →
    ∃ t, (b, t) ∈ made' ∧ r ∈ t.leaves

theorem Settles.isPhiAt_eq (h : Settles c c') {r : Register} (hr : r < c.fresh) :
    c'.function.isPhiAt r = c.function.isPhiAt r := by
  have hi := Array.getElem?_eq_getElem hr
  obtain ⟨i', hi', hgains⟩ := h.function.instructions r _ hi
  rw [Function.isPhiAt, Function.isPhiAt, hi, hi', Option.any_some, Option.any_some, hgains.isPhi_eq]

theorem code_addSource (pred : BlockId) (f : Function) (r value : Register) (b : BlockId) :
    (addSource pred f r value).code b = f.code b := by
  unfold addSource
  split <;> rfl

namespace MakesOnce

protected theorem refl (ty : TypeId) (made : Made) (c : Context) (hr : c.function.InRange) :
    MakesOnce ty made c made c where
  subset := List.Subset.refl made
  nodup := id
  trees := fun _ he => .inl he
  old := fun _ _ hr _ => hr
  new := fun b r hmem hle _ => absurd (hr b r hmem) (Nat.not_lt.mpr hle)

protected theorem trans (h : MakesOnce ty made c made' d) (h' : MakesOnce ty made' d made'' c')
    (hsize : c.function.instructions.size ≤ d.function.instructions.size) (hs : Settles d c') :
    MakesOnce ty made c made'' c' where
  subset := fun _ he => h'.subset (h.subset he)
  nodup := fun hnodup => h'.nodup (h.nodup hnodup)
  trees := fun e he => (h'.trees e he).elim (h.trees e) .inr
  old := fun b r hmem hlt => h.old b r (h'.old b r hmem (Nat.lt_of_lt_of_le hlt hsize)) hlt
  new := fun b r hmem hle hphi => by
    by_cases hlt : r < d.function.instructions.size
    · rw [hs.isPhiAt_eq hlt] at hphi
      obtain ⟨t, ht, hr⟩ := h.new b r (h'.old b r hmem hlt) hle hphi
      exact ⟨t, h'.subset ht, hr⟩
    · exact h'.new b r hmem (Nat.not_lt.mp hlt) hphi

theorem of_loads {spot : Spot} {words : List (List Word)}
    (h : Inserts spot (words.map .loadConst) c c') : MakesOnce ty made c made c' where
  subset := List.Subset.refl made
  nodup := id
  trees := fun _ he => .inl he
  old := fun b r hmem hlt => by
    rw [h.function, Function.mem_code_insertAll] at hmem
    grind
  new := fun b r hmem hle hphi => by
    rw [h.function, Function.mem_code_insertAll] at hmem
    obtain ⟨sources, lanes, hi⟩ := Function.isPhiAt_iff.mp hphi
    rw [h.function, Function.insertAll_instructions, Array.getElem?_append_right hle,
      getElem?_toArray, getElem?_map] at hi
    simp_all

theorem of_phiTree (hr : c.function.InRange) (hknown : made.lookup block = none)
    (h : Code.phiTree ty (.front block) c = .ok t c') :
    MakesOnce ty made c ((block, t) :: made) c' := by
  obtain ⟨is, -, hplants⟩ := Code.plants_phiTree h
  refine ⟨fun _ he => mem_cons_of_mem _ he, fun hnodup => ?_, fun e he => ?_, fun b r hmem hlt => ?_,
    fun b r hmem hle _ => ?_⟩
  · grind
  · rcases mem_cons.mp he with rfl | he
    · exact .inr ⟨c, c', h⟩
    · exact .inl he
  · rw [hplants.inserts.function, Function.mem_code_insertAll] at hmem
    grind
  · rw [hplants.inserts.function, Function.mem_code_insertAll] at hmem
    rcases hmem with hmem | ⟨hnew, rfl, -⟩
    · exact absurd (hr b r hmem) (Nat.not_lt.mpr hle)
    · refine ⟨t, mem_cons_self .., ?_⟩
      rw [hplants.leaves_eq, mem_range'_1]
      exact hnew

theorem withSources (hr : c.function.InRange) (phi : Tree) (pred : BlockId) (source : Tree) :
    MakesOnce ty made c made (c.withSources phi pred source) := by
  have hcode (b : BlockId) : (c.withSources phi pred source).function.code b = c.function.code b := by
    change ((phi.leaves.zip source.leaves).foldl _ c.function).code b = _
    generalize c.function = f
    induction phi.leaves.zip source.leaves generalizing f with
    | nil => rfl
    | cons p ps ih => exact (ih _).trans (code_addSource ..)
  refine ⟨List.Subset.refl made, id, fun _ he => .inl he, fun b r hmem _ => ?_, fun b r hmem hle _ => ?_⟩
  · rwa [hcode] at hmem
  · rw [hcode] at hmem
    exact absurd (hr b r hmem) (Nat.not_lt.mpr hle)

end MakesOnce

theorem makesOnce_of_finds_and_fills :
    (∀ {block made c t made' c'}, Finds pairs ty block made c t made' c' → c.function.InRange →
        MakesOnce ty made c made' c') ∧
      ∀ {phi preds made c made' c'}, Fills pairs ty phi preds made c made' c' → c.function.InRange →
        MakesOnce ty made c made' c' := by
  refine finds_and_fills ?listed ?known ?make ?nil ?cons
  case listed =>
    intro block made c value t c' _ htree _
    obtain ⟨words, hinserts⟩ := Emit.inserts_treeOf htree
    exact .of_loads hinserts
  case known => exact fun _ _ hr => .refl _ _ _ hr
  case make =>
    intro block made c t d made' c' _ hknown hphi _ hfills ih hr
    obtain ⟨is, -, hplants⟩ := Code.plants_phiTree hphi
    have hd : d.function.InRange := by
      rw [hplants.inserts.function]
      exact hr.insertAll
    refine (MakesOnce.of_phiTree hr hknown hphi).trans (ih hd) ?_ (settles_of_finds_and_fills.2 hfills)
    rw [hplants.inserts.size]
    exact Nat.le_add_right ..
  case nil => exact fun hr => .refl _ _ _ hr
  case cons =>
    intro phi pred preds made c t made₁ d made' c' hfinds hrest ihfinds ihrest hr
    have hs := settles_of_finds_and_fills.1 hfinds
    have hs' := settles_withSources d phi pred t
    have hs'' := settles_of_finds_and_fills.2 hrest
    have hd := hs.function.inRange hr
    have hk := keeps_withSources d phi pred t
    exact (ihfinds hr).trans ((MakesOnce.withSources hd phi pred t).trans
      (ihrest (hs'.function.inRange hd)) hk.size hs'')
      (keeps_of_finds_and_fills.1 hfinds).size (hs'.trans hs'')

/-! ### A source for each predecessor -/

/-- The sources of a phi are for some blocks, in order. -/
def SourcesFor (c : Context) (r : Register) (preds : List BlockId) : Prop :=
  ∃ sources lanes, c.function.instructions[r]? = some (.phi sources lanes) ∧ sources.map (·.pred) = preds

namespace SourcesFor

variable {r : Register} {preds : List BlockId} (h : SourcesFor c r preds)
include h

theorem lt : r < c.fresh := by
  obtain ⟨sources, lanes, hi, -⟩ := h
  exact (Array.getElem?_eq_some_iff.mp hi).1

theorem keeps {leaves : List Register} (hk : Keeps leaves c c')
    (hr : r ∉ leaves) : SourcesFor c' r preds := by
  have hlt := h.lt
  obtain ⟨sources, lanes, hi, hpreds⟩ := h
  exact ⟨sources, lanes, (hk.instructions r hlt hr).trans hi, hpreds⟩

theorem withSources (hnodup : phi.leaves.Nodup) (hr : r ∈ phi.leaves)
    (hlength : t.leaves.length = phi.leaves.length) :
    SourcesFor (c.withSources phi pred t) r (preds ++ [pred]) := by
  obtain ⟨sources, lanes, hi, rfl⟩ := h
  obtain ⟨n, hn, rfl⟩ := getElem_of_mem hr
  have hn' : n < t.leaves.length := by rwa [hlength]
  refine ⟨_, lanes, getElem?_withSources hnodup (getElem?_eq_getElem hn) (getElem?_eq_getElem hn') hi, ?_⟩
  rw [map_append, map_singleton]

end SourcesFor

/-- The trees that were made between two states have as many leaves, each of which has a source for
every predecessor of its block. -/
structure Matches (c₀ : Context) (n : Nat) (made : Made) (c : Context) (made' : Made) (c' : Context) : Prop where
  length : ∀ e ∈ made', e.2.leaves.length = n
  sources : ∀ e ∈ made', e ∈ made ∨ ∀ r ∈ e.2.leaves,
    c.function.instructions.size ≤ r ∧ SourcesFor c' r (c₀.function.preds e.1)

/-- If all values have as many leaves as a phi, every phi that is filled in gets a source for each
block it is filled in for, in order. -/
theorem matches_of_finds_and_fills {c₀ : Context} {n : Nat}
    (hlisted : ∀ {block c value t c'}, Settles c₀ c → c.listed? pairs block = some value →
      Emit.treeOf value (.beforeJump block) c = .ok t c' → t.leaves.length = n)
    (hphi : ∀ {spot c t c'}, Settles c₀ c → Code.phiTree ty spot c = .ok t c' → t.leaves.length = n) :
    (∀ {block made c t made' c'}, Finds pairs ty block made c t made' c' → Settles c₀ c →
        (∀ e ∈ made, e.2.leaves.length = n) →
        t.leaves.length = n ∧ Matches c₀ n made c made' c') ∧
      ∀ {phi preds made c made' c'}, Fills pairs ty phi preds made c made' c' → Settles c₀ c →
        (∀ e ∈ made, e.2.leaves.length = n) → phi.leaves.length = n → phi.leaves.Nodup →
        ∀ done, (∀ r ∈ phi.leaves, SourcesFor c r done) →
        (∀ r ∈ phi.leaves, SourcesFor c' r (done ++ preds)) ∧ Matches c₀ n made c made' c' := by
  refine finds_and_fills ?listed ?known ?make ?nil ?cons
  case listed =>
    intro block made c value t c' hvalue htree hs hmade
    exact ⟨hlisted hs hvalue htree, hmade, fun e he => .inl he⟩
  case known =>
    intro block made c t _ hknown _ hmade
    obtain ⟨before, after, hmem, -⟩ := lookup_eq_some_iff.mp hknown
    exact ⟨hmade (block, t) (by simp [hmem]), hmade, fun e he => .inl he⟩
  case make =>
    intro block made c t d made' c' _ _ htree _ hfills ih hs hmade
    have hlength := hphi hs htree
    obtain ⟨is, his, hplants⟩ := Code.plants_phiTree htree
    have hd : Settles c d := .of_inserts hplants.inserts <| Function.settles_insertAll_front fun i hi => by
      obtain ⟨lanes, rfl⟩ := his i hi
      rfl
    have hvacant : ∀ r ∈ t.leaves, SourcesFor d r [] := by
      intro r hr
      obtain ⟨m, hm, rfl⟩ := getElem_of_mem hr
      have hm' : m < is.length := by rwa [← hplants.length]
      obtain ⟨lanes, hlanes⟩ := his is[m] (getElem_mem hm')
      refine ⟨[], lanes, ?_, rfl⟩
      rw [hplants.getElem? (getElem?_eq_getElem hm), getElem?_eq_getElem hm', hlanes]
    obtain ⟨hsources, hmatches⟩ := ih (hs.trans hd) (by simpa [hlength] using hmade) hlength
      hplants.nodup [] hvacant
    refine ⟨hlength, hmatches.length, fun e he => ?_⟩
    rcases hmatches.sources e he with he | hnew
    · rcases mem_cons.mp he with rfl | he
      · refine .inr fun r hr => ⟨(hplants.mem hr).1, ?_⟩
        have := hsources r hr
        rwa [nil_append, (hs.trans hd).function.preds] at this
      · exact .inl he
    · refine .inr fun r hr => ⟨Nat.le_trans ?_ (hnew r hr).1, (hnew r hr).2⟩
      rw [hplants.inserts.size]
      exact Nat.le_add_right ..
  case nil =>
    intro phi made c _ hmade _ _ done hdone
    exact ⟨by simpa using hdone, hmade, fun e he => .inl he⟩
  case cons =>
    intro phi pred preds made c t made₁ d made' c' hfinds hrest ihfinds ihrest hs hmade hlength hnodup done hdone
    have hd := settles_of_finds_and_fills.1 hfinds
    have hkeeps := keeps_of_finds_and_fills.1 hfinds
    have hkeeps' := (keeps_withSources d phi pred t).trans (keeps_of_finds_and_fills.2 hrest)
    obtain ⟨hlength', hmatches⟩ := ihfinds hs hmade
    obtain ⟨hsources, hmatches'⟩ := ihrest ((hs.trans hd).trans (settles_withSources d phi pred t))
      hmatches.length hlength hnodup (done ++ [pred]) fun r hr =>
        ((hdone r hr).keeps hkeeps not_mem_nil).withSources hnodup hr (hlength'.trans hlength.symm)
    refine ⟨by simpa using hsources, hmatches'.length, fun e he => ?_⟩
    rcases hmatches'.sources e he with he | hnew
    · -- what was made on the way to the first source is apart from the phi that is filled in
      refine (hmatches.sources e he).imp_right fun hnew r hr => ⟨(hnew r hr).1, ?_⟩
      refine (hnew r hr).2.keeps hkeeps' fun hmem => ?_
      exact Nat.not_lt.mpr (hnew r hr).1 (hdone r hmem).lt
    · refine .inr fun r hr => ⟨?_, (hnew r hr).2⟩
      exact Nat.le_trans (Nat.le_trans hkeeps.size (keeps_withSources d phi pred t).size) (hnew r hr).1

/-! ### All phis of a function -/

/-- What is needed of a state in which some phis are filled in. -/
structure Awaits (c : Context) (phis : List (Nat × RawInstruction)) : Prop where
  grounded : c.Grounded
  inRange : c.function.InRange
  apart : Structure.Apart c
  get : ∀ p ∈ c.pendingPhis, c.ids.get p.1 = .ok (.tree p.2)
  vacant : ∀ p ∈ c.pendingPhis, ∀ r ∈ p.2.leaves, SourcesFor c r []
  /-- Whichever phi has the id of one without sources stands in its block. -/
  waits : ∀ p ∈ c.pendingPhis, ∀ x ∈ phis, x.2.operand 1 = .ok p.1 → ∀ block,
    c.placed.lookup x.1 = some block → Structure.Waits c block x.2 p.1 p.2
  fits : ∀ x ∈ phis, c.PhiFits x.2

/-- What is needed of a state in which the phis of a function are filled in. -/
structure Prepared (c : Context) (phis : List (Nat × RawInstruction)) : Prop extends Awaits c phis where
  /-- Every phi without sources is one of those to be filled in. -/
  listed : ∀ p ∈ c.pendingPhis, ∃ x ∈ phis, x.2.operand 1 = .ok p.1

/-- How far the phis of a function are filled in: each has a source for every predecessor of its block,
or none at all. -/
structure Advances (c₀ c : Context) : Prop where
  settles : Settles c₀ c
  pending : c.pendingPhis ⊆ c₀.pendingPhis
  size : c₀.function.instructions.size ≤ c.function.instructions.size
  old : ∀ b, ∀ r ∈ c.function.code b, r < c₀.function.instructions.size → r ∈ c₀.function.code b
  vacant : ∀ p ∈ c.pendingPhis, ∀ r ∈ p.2.leaves, SourcesFor c r []
  phis : ∀ b, ∀ r ∈ c.function.code b, c.function.isPhiAt r →
    SourcesFor c r (c₀.function.preds b) ∨ ∃ p ∈ c.pendingPhis, r ∈ p.2.leaves

theorem exists_mem_of_listedValue? {label value : Id} (h : Code.listedValue? pairs label = some value) :
    ∃ pair ∈ pairs, pair.1 = value := by
  obtain ⟨pair, hpair, hvalue⟩ := Option.map_eq_some_iff.mp h
  exact ⟨pair, mem_of_find?_eq_some hpair, hvalue⟩

theorem exists_mem_of_listed? {value : Id} (h : c.listed? pairs block = some value) :
    ∃ pair ∈ pairs, pair.1 = value := by
  obtain ⟨source, -, h₁⟩ := Option.bind_eq_some_iff.mp h
  obtain ⟨code, -, h₂⟩ := Option.bind_eq_some_iff.mp h₁
  exact exists_mem_of_listedValue? h₂

section Advances

variable {c₀ : Context} {phis : List (Nat × RawInstruction)} {source : Nat} {i : RawInstruction}

/-- The phi whose turn it is gets its sources. -/
theorem Awaits.matches (h : Awaits c₀ phis) (hx : (source, i) ∈ phis) (hs : Settles c₀ c) {id : Id}
    {tree : Tree} (hwaits : Structure.Waits c₀ block i id tree) (hid : i.operand 1 = .ok id)
    (hty : ∃ id v, i.operand 0 = .ok id ∧ c.ids.typeValue id = .ok v ∧ ty = v.ty)
    (hpairs : Code.phiPairs i = .ok pairs) (hvacant : ∀ r ∈ tree.leaves, SourcesFor c r [])
    (hfills : Fills pairs ty tree (c.function.preds block) [] c made c') :
    (∀ r ∈ tree.leaves, SourcesFor c' r (c₀.function.preds block)) ∧
      Matches c₀ tree.leaves.length [] c made c' := by
  have hcount : c₀.leafCount? id = some tree.leaves.length := by
    simp [Context.leafCount?, hwaits.get]
  have hlisted {block : BlockId} {c : Context} {value : Id} {t : Tree} {c' : Context}
      (hs : Settles c₀ c) (hvalue : c.listed? pairs block = some value)
      (htree : Emit.treeOf value (.beforeJump block) c = .ok t c') :
      t.leaves.length = tree.leaves.length := by
    obtain ⟨pair, hpair, rfl⟩ := exists_mem_of_listed? hvalue
    have hg : c.Grounded := h.grounded.of_extends (fun _ _ hk => by rwa [hs.ids] at hk) hs.constants hs.types
    have hleaves := Emit.leafCount?_of_treeOf hg htree
    rw [h.grounded.leafCount?_eq hs.ids hs.constants hs.types] at hleaves
    exact (h.fits _ hx).eq hid hpairs hpair hleaves hcount
  have hphi {spot : Spot} {d : Context} {t : Tree} {d' : Context} (hd : Settles c₀ d)
      (htree : Code.phiTree ty spot d = .ok t d') : t.leaves.length = tree.leaves.length := by
    obtain ⟨typeId, v, spot', e, e', htypeId, hv, htree', htypes⟩ := hwaits.typed
    obtain ⟨typeId', v', htypeId', hv', rfl⟩ := hty
    rw [htypeId] at htypeId'
    cases htypeId'
    rw [hs.ids, hv] at hv'
    cases hv'
    exact (Code.length_leaves_phiTree htree' htree (htypes.trans hd.types)).symm
  obtain ⟨hsources, hmatches⟩ := (matches_of_finds_and_fills hlisted hphi).2 hfills hs (by simp) rfl
    hwaits.nodup [] hvacant
  refine ⟨fun r hr => ?_, hmatches⟩
  have := hsources r hr
  rwa [nil_append, hs.function.preds] at this

theorem Advances.resolves (ha : Advances c₀ c) (h : Awaits c₀ phis) (hx : (source, i) ∈ phis)
    (hr : Resolves source i c c') : Advances c₀ c' := by
  cases hr with
  | skip => exact ha
  | @fill id tree _ _ block c₁ made _ hid hpending hty hpairs hplaced hc₁ hfills =>
    have hmem : (id, tree) ∈ c.pendingPhis := by
      obtain ⟨before, after, hsplit, -⟩ := lookup_eq_some_iff.mp hpending
      simp [hsplit]
    rw [ha.settles.placed] at hplaced
    have hwaits := h.waits _ (ha.pending hmem) _ hx hid block hplaced
    have hs₁ : Settles c₀ c₁ := ha.settles.trans (by rw [hc₁]; exact { Settles.refl c with })
    have hpending₁ : c'.pendingPhis = c.pendingPhis.filter (·.1 ≠ id) := by
      rw [(keeps_of_finds_and_fills.2 hfills).pendingPhis, hc₁]
      rfl
    have hkeeps : Keeps tree.leaves c₁ c' := keeps_of_finds_and_fills.2 hfills
    have honce := makesOnce_of_finds_and_fills.2 hfills (hs₁.function.inRange h.inRange)
    obtain ⟨hsources, hmatches⟩ : (∀ r ∈ tree.leaves, SourcesFor c' r (c₀.function.preds block)) ∧
        Matches c₀ tree.leaves.length [] c₁ made c' := by
      subst hc₁
      exact h.matches hx hs₁ hwaits hid hty hpairs (ha.vacant _ hmem) hfills
    have hs' := settles_of_finds_and_fills.2 hfills
    have hfunction : c₁.function = c.function := by
      rw [hc₁]
      rfl
    have hkept {r : Register} {preds : List BlockId} (hr : SourcesFor c r preds) (hnot : r ∉ tree.leaves) :
        SourcesFor c' r preds := by
      rw [SourcesFor, ← hfunction] at hr
      exact SourcesFor.keeps hr hkeeps hnot
    -- a leaf of the phi stands in its block only
    have hleaf {b : BlockId} {r : Register} (hr : r ∈ tree.leaves) (hb : r ∈ c.function.code b) :
        SourcesFor c' r (c₀.function.preds b) := by
      obtain rfl := (hwaits.holds r hr b).mp (ha.old b r hb (hwaits.lt hr))
      exact hsources r hr
    refine ⟨hs₁.trans hs', ?_, ?_, fun b r hr hlt => ?_, fun p hp r hr => ?_, fun b r hr hphi => ?_⟩
    · rw [hpending₁]
      exact fun p hp => ha.pending (mem_filter.mp hp).1
    · refine Nat.le_trans ha.size ?_
      rw [← hfunction]
      exact hkeeps.size
    · refine ha.old b r ?_ hlt
      rw [← hfunction]
      refine honce.old b r hr ?_
      rw [hfunction]
      exact Nat.lt_of_lt_of_le hlt ha.size
    · rw [hpending₁, mem_filter, decide_eq_true_eq] at hp
      refine hkept (ha.vacant p hp.1 r hr) fun hleaves => hp.2 ?_
      rw [h.apart.apart p (ha.pending hp.1) _ (ha.pending hmem) r hr hleaves]
    · by_cases hlt : r < c₁.fresh
      · rw [hs'.isPhiAt_eq hlt, hfunction] at hphi
        have hb := honce.old b r hr hlt
        rw [hfunction] at hb
        by_cases hleaves : r ∈ tree.leaves
        · exact .inl (hleaf hleaves hb)
        · rcases ha.phis b r hb hphi with hr | ⟨p, hp, hr⟩
          · exact .inl (hkept hr hleaves)
          · refine .inr ⟨p, ?_, hr⟩
            rw [hpending₁, mem_filter, decide_eq_true_eq]
            refine ⟨hp, fun hid' => hleaves ?_⟩
            have hget := h.get p (ha.pending hp)
            rw [hid', hwaits.get] at hget
            cases hget
            exact hr
      · obtain ⟨t, ht, hr⟩ := honce.new b r hr (Nat.not_lt.mp hlt) hphi
        exact .inl ((hmatches.sources _ ht).resolve_left not_mem_nil r hr).2

theorem Advances.resolvesAll {phis' : List (Nat × RawInstruction)} (ha : Advances c₀ c)
    (h : Awaits c₀ phis) (hsubset : phis' ⊆ phis) (hr : ResolvesAll phis' c c') : Advances c₀ c' := by
  induction hr with
  | nil => exact ha
  | cons hphi _ ih =>
    exact ih (ha.resolves h (hsubset (mem_cons_self ..)) hphi) fun x hx => hsubset (mem_cons_of_mem _ hx)

theorem Resolves.pendingPhis (h : Resolves source i c c') :
    c'.pendingPhis ⊆ c.pendingPhis ∧ ∀ p ∈ c'.pendingPhis, i.operand 1 ≠ .ok p.1 := by
  cases h with
  | @skip id hid hpending =>
    grind
  | @fill id _ _ _ _ _ _ _ hid _ _ _ _ hc₁ hfills =>
    have hpending₁ : c'.pendingPhis = c.pendingPhis.filter (·.1 ≠ id) := by
      rw [(keeps_of_finds_and_fills.2 hfills).pendingPhis, hc₁]
      rfl
    grind

theorem ResolvesAll.pendingPhis (h : ResolvesAll phis c c') : c'.pendingPhis ⊆ c.pendingPhis ∧
      ∀ x ∈ phis, ∀ p ∈ c'.pendingPhis, x.2.operand 1 ≠ .ok p.1 := by
  induction h with
  | nil => exact ⟨List.Subset.refl _, by simp⟩
  | cons hphi _ ih =>
    refine ⟨fun p hp => hphi.pendingPhis.1 (ih.1 hp), fun x hx p hp => ?_⟩
    rcases mem_cons.mp hx with rfl | hx
    · exact hphi.pendingPhis.2 p (ih.1 hp)
    · exact ih.2 x hx p hp

theorem Awaits.advances (h : Awaits c phis) : Advances c c :=
  ⟨.refl c, List.Subset.refl _, Nat.le_refl _, fun _ _ hr _ => hr, h.vacant,
    fun _ r _ hphi => .inr (h.apart.all r hphi)⟩

theorem Prepared.sourcesFor (h : Prepared c phis) (hr : ResolvesAll phis c c') {b : BlockId}
    {r : Register} (hb : r ∈ c'.function.code b) (hphi : c'.function.isPhiAt r) :
    SourcesFor c' r (c'.function.preds b) := by
  have hend := h.advances.resolvesAll h.toAwaits (List.Subset.refl _) hr
  rw [hend.settles.function.preds]
  refine (hend.phis b r hb hphi).resolve_right ?_
  rintro ⟨p, hp, -⟩
  obtain ⟨x, hx, hid⟩ := h.listed p (hend.pending hp)
  exact hr.pendingPhis.2 x hx p hp hid

end Advances

/-- The trees that were made for a phi of the stream: one for each block, of the type that it names. -/
structure MadeFor (ids : IdTable) (i : RawInstruction) (made : Made) : Prop where
  nodup : (made.map (·.1)).Nodup
  trees : ∀ e ∈ made, ∃ typeId v, i.operand 0 = .ok typeId ∧ ids.typeValue typeId = .ok v ∧ IsPhiTree v.ty e.1 e.2

theorem Resolves.exists_made {source : Nat} {i : RawInstruction} (h : Resolves source i c c')
    (hr : c.function.InRange) :
    ∃ made, MadeFor c.ids i made ∧
      (∀ b, ∀ r ∈ c'.function.code b, r < c.fresh → r ∈ c.function.code b) ∧
      ∀ b, ∀ r ∈ c'.function.code b, c.fresh ≤ r → c'.function.isPhiAt r →
        ∃ t, (b, t) ∈ made ∧ r ∈ t.leaves := by
  cases h with
  | skip =>
    refine ⟨[], ⟨.nil, by simp⟩, fun _ _ hmem _ => hmem, fun b r hmem hle => ?_⟩
    exact absurd (hr b r hmem) (Nat.not_lt.mpr hle)
  | @fill _ _ _ _ _ _ made _ _ _ hty _ _ hc₁ hfills =>
    subst hc₁
    have honce := makesOnce_of_finds_and_fills.2 hfills hr
    refine ⟨made, ⟨honce.nodup .nil, fun e he => ?_⟩, honce.old, honce.new⟩
    obtain ⟨typeId, v, htypeId, hv, rfl⟩ := hty
    exact ⟨typeId, v, htypeId, hv, (honce.trees e he).resolve_left not_mem_nil⟩

/-- Whatever phis are added to blocks belong to trees that were made for phis of the stream. -/
theorem ResolvesAll.exists_made {phis : List (Nat × RawInstruction)} (h : ResolvesAll phis c c')
    (hr : c.function.InRange) :
    ∃ mades, List.Forall₂ (fun x made => MadeFor c.ids x.2 made) phis mades ∧
      (∀ b, ∀ r ∈ c'.function.code b, r < c.fresh → r ∈ c.function.code b) ∧
      ∀ b, ∀ r ∈ c'.function.code b, c.fresh ≤ r → c'.function.isPhiAt r →
        ∃ made ∈ mades, ∃ t, (b, t) ∈ made ∧ r ∈ t.leaves := by
  induction h with
  | nil =>
    refine ⟨[], .nil, fun _ _ hmem _ => hmem, fun b r hmem hle => ?_⟩
    exact absurd (hr b r hmem) (Nat.not_lt.mpr hle)
  | @cons _ _ _ _ d _ hphi hrest ih =>
    have hs := hphi.settles
    have hs' := hrest.settles
    obtain ⟨made, hmade, hold, hnew⟩ := hphi.exists_made hr
    obtain ⟨mades, hmades, hold', hnew'⟩ := ih (hs.function.inRange hr)
    have hsize := Function.size_le_of_gains hs.function.instructions
    rw [hs.ids] at hmades
    refine ⟨made :: mades, .cons hmade hmades,
      fun b r hmem hlt => hold b r (hold' b r hmem (Nat.lt_of_lt_of_le hlt hsize)) hlt,
      fun b r hmem hle hphi => ?_⟩
    by_cases hlt : r < d.fresh
    · rw [hs'.isPhiAt_eq hlt] at hphi
      simp_all
    simp_all

end PhiSources

end ShaderIR.Spirv
