import ShaderIR.Proofs.Enclosure
import ShaderIR.Proofs.Matching
import ShaderIR.Proofs.Validity

/-!
# Phis agree with predecessors

In a function that was read from a stream, the sources of every phi are for the predecessors of its
block, in their order. For each phi of the stream, at most one tree of phis was added to a block. If
phis lead the blocks of the stream, they lead the blocks of the function.
-/

namespace ShaderIR

open List

/-- The blocks that the sources of a phi are for. -/
def Function.phiPreds? (f : Function) (r : Register) : Option (List BlockId) :=
  match f.instructions[r]? with
  | some (.phi sources _) => some (sources.map (·.pred))
  | _ => none

theorem Function.phiPreds?_eq_some {f : Function} {r : Register} {preds : List BlockId} :
    f.phiPreds? r = some preds ↔
      ∃ sources lanes, f.instructions[r]? = some (.phi sources lanes) ∧ sources.map (·.pred) = preds := by
  unfold phiPreds?
  grind

/-- The sources of every phi are for the predecessors of its block, in order and without repetition. -/
def Function.PhisMatch (f : Function) : Prop :=
  ∀ b < f.blocks.size, ∀ r ∈ f.code b, ∀ preds ∈ f.phiPreds? r, preds = f.preds b ∧ preds.Nodup

instance (f : Function) : Decidable f.PhisMatch := inferInstanceAs (Decidable (∀ b < _, _))

/-- Whether a problem is one of phis. -/
def Problem.isPhi : Problem → Bool
  | .phiNotLeading .. | .phiSourceMismatch .. => true
  | .dangling .. | .jumpNotLast .. | .jumpOutsideLoop .. | .missingEntryFunction _ => false

namespace Spirv

open PhiSources (phisOf Settles ResolvesAll Prepared SourcesFor MadeFor)

/-- Whether an instruction is carried out: it stands before the merge instruction of its block. -/
def Context.carriesOut (c : Context) (x : Nat × RawInstruction) : Bool := (c.blocks[x.1]?).any (x.2 ∈ ·.body)

/-- A phi that is not carried out has the id of no other phi. -/
def Context.PhisDistinct (c : Context) (f : SourceFunction) : Prop :=
  ∀ x ∈ phisOf c f, ∀ y ∈ phisOf c f, x.2.operand 1 = y.2.operand 1 → c.carriesOut x ∨ x = y

instance (c : Context) (f : SourceFunction) : Decidable (c.PhisDistinct f) :=
  inferInstanceAs (Decidable (∀ x ∈ phisOf c f, _))

/-- In a tour, the values of phis have as many leaves as the phis. -/
def Tour.PhisFit (t : Tour) : Prop := ∀ x ∈ phisOf t.finish t.source, t.finish.PhiFits x.2

instance (t : Tour) : Decidable t.PhisFit := inferInstanceAs (Decidable (∀ x ∈ _, _))

/-- Every phi of a function is one of the stream, or was made for one: for each phi of the stream and
each block, at most one tree. -/
def Tour.MadeOnce (t : Tour) (f : Function) : Prop :=
  ∃ mades, List.Forall₂ (fun x made => MadeFor t.finish.ids x.2 made) (phisOf t.finish t.source) mades ∧
    ∀ b, ∀ r ∈ f.code b, f.isPhiAt r → (∃ p ∈ t.finish.pendingPhis, r ∈ p.2.leaves) ∨
      ∃ made ∈ mades, ∃ tree, (b, tree) ∈ made ∧ r ∈ tree.leaves

variable {t : Tour} {c d : Context} {index : Nat}

/-! ### The state in which phis are filled in -/

theorem Tour.waits_arranged {b : BlockId} {i : RawInstruction} {id : Id} {tree : Tree}
    (h : Structure.Waits t.finish b i id tree) : Structure.Waits t.arranged b i id tree where
  operand := h.operand
  pairs := h.pairs
  get := h.get
  nodup := h.nodup
  vacant := h.vacant
  holds := fun r hr b' => by
    rw [t.code_arranged]
    exact h.holds r hr b'
  typed := h.typed

variable {log : List Emission}

theorem Tour.Sound.exists_waits (h : t.Sound)
    (hlog : Structure.Walks 0 t.entry none {} t.start t.body t.finish log) {p : Id × Tree}
    (hp : p ∈ t.finish.pendingPhis) :
    ∃ e ∈ log, e.before = none ∧
      ∃ i ∈ e.code.body, i.op = .opPhi ∧ Structure.Waits t.finish e.block i p.1 p.2 := by
  refine (hlog.exists_waits h.isOpen.inRange h.isOpen.lt nofun hp).resolve_left ?_
  rw [h.pendingPhis]
  exact not_mem_nil

theorem Tour.Sound.apart (h : t.Sound) : Structure.Apart t.arranged := by
  obtain ⟨log, hlog⟩ := h.walks
  have hstart : Structure.Apart t.start := by
    refine ⟨?_, ?_, fun r hr => ?_⟩
    · simp [h.pendingPhis]
    · simp [h.pendingPhis]
    · simp [Function.isPhiAt, h.blank.instructions] at hr
  have hfinish := hlog.logged.steps.apart hstart
  exact ⟨hfinish.lt, hfinish.apart, hfinish.all⟩

/-- Whichever phi has the id of one that has no sources yet stands in its block. -/
theorem Tour.Of.waits (hof : t.Of c index) (h : t.Sound) (hc : ∀ f ∈ c.functions, c.Encloses f)
    (hdistinct : t.finish.PhisDistinct t.source)
    (hlog : Structure.Walks 0 t.entry none {} t.start t.body t.finish log)
    (hinside : ∀ e ∈ log, e.source ∈ t.source.blocks) {p : Id × Tree}
    (hp : p ∈ t.finish.pendingPhis) {x : Nat × RawInstruction} (hx : x ∈ phisOf t.finish t.source)
    (hid : x.2.operand 1 = .ok p.1) {block : BlockId}
    (hplaced : t.finish.placed.lookup x.1 = some block) :
    Structure.Waits t.finish block x.2 p.1 p.2 := by
  have hblocks {e : Emission} (he : e ∈ log) : t.finish.blocks[e.source]? = some e.code := by
    obtain ⟨hmade, hbefore, -⟩ := hlog.logged.made e he
    rw [hlog.builds.blocks, ← hbefore.continues.blocks]
    exact hmade.code
  obtain ⟨e, he, -, j, hj, hop, hwaits⟩ := h.exists_waits hlog hp
  have hy : (e.source, j) ∈ phisOf t.finish t.source :=
    PhiSources.mem_phisOf.mpr ⟨hinside e he, e.code, hblocks he, e.code.body_isPrefix.subset hj, hop⟩
  obtain ⟨hsource, code, hcode, -, hop'⟩ := PhiSources.mem_phisOf.mp hx
  have hbody : x.2 ∈ code.body := by
    rcases hdistinct x hx _ hy (hid.trans hwaits.operand.symm) with hcarried | rfl
    · simpa [Context.carriesOut, hcode] using hcarried
    simp_all
  -- the code of the block was made in this tour, and once
  obtain ⟨before, after, hsplit, -⟩ := lookup_eq_some_iff.mp hplaced
  have hmem : (x.1, block) ∈ t.finish.placed := by simp [hsplit]
  rw [hlog.placed, mem_append, mem_reverse, mem_map] at hmem
  rcases hmem with ⟨e', he', hentry⟩ | hmem
  · obtain ⟨hsource', rfl⟩ := Prod.mk.inj hentry
    have hcode' : e'.code = code := by
      grind
    rw [← hcode'] at hbody
    obtain rfl := hlog.logged.eq_of_operand he' he hbody hj hop' hop hid hwaits.operand
    rwa [(hlog.logged.made _ he).1.eq_of_operand hbody hj hop' hop hid hwaits.operand]
  · exact absurd hsource (hof.source_not_mem hc hmem)

/-- After the walk of a function whose values have as many leaves as their phis, phis can be filled in if
they stand where the code of their blocks was placed. -/
theorem Tour.Of.awaits (hof : t.Of c index) (h : t.Sound)
    (hlog : Structure.Walks 0 t.entry none {} t.start t.body t.finish log) (hfits : t.PhisFit)
    (hwaits : ∀ p ∈ t.finish.pendingPhis, ∀ x ∈ phisOf t.finish t.source, x.2.operand 1 = .ok p.1 →
      ∀ block, t.finish.placed.lookup x.1 = some block → Structure.Waits t.finish block x.2 p.1 p.2) :
    PhiSources.Awaits t.arranged (phisOf t.finish t.source) := by
  have hg := (hof.carries.trans h.carries).grounded hof.grounded
  refine ⟨⟨hg.ids, hg.children, hg.shaped⟩, h.inRange, h.apart, fun p hp => ?_, fun p hp r hr => ?_,
    fun p hp x hx hid block hplaced => waits_arranged (hwaits p hp x hx hid block hplaced), fun x hx => ?_⟩
  · obtain ⟨e, he, -, i, hi, hop, hwaits⟩ := h.exists_waits hlog hp
    exact hwaits.get
  · obtain ⟨e, he, -, i, hi, hop, hwaits⟩ := h.exists_waits hlog hp
    obtain ⟨lanes, hlanes⟩ := hwaits.vacant r hr
    exact ⟨[], lanes, hlanes, rfl⟩
  · have hcount : t.arranged.leafCount? = t.finish.leafCount? :=
      funext (hg.leafCount?_eq (d := t.arranged) rfl rfl (.refl _))
    unfold Context.PhiFits Context.valueCounts
    rw [hcount]
    exact hfits x hx

theorem Tour.Of.prepared (hof : t.Of c index) (h : t.Sound) (hc : ∀ f ∈ c.functions, c.Encloses f)
    (hdistinct : t.finish.PhisDistinct t.source) (hfits : t.PhisFit) :
    Prepared t.arranged (phisOf t.finish t.source) := by
  obtain ⟨log, hlog⟩ := h.walks
  have hcarries := h.carries
  have hinside : ∀ e ∈ log, e.source ∈ t.source.blocks :=
    hlog.source_mem ((hof.carries.trans hcarries).encloses (hc _ (Array.mem_of_getElem? hof.source)))
      hcarries.blocks.symm (.refl _) (mem_of_head? h.entry)
  refine ⟨hof.awaits h hlog hfits fun p hp x hx hid block hplaced =>
    hof.waits h hc hdistinct hlog hinside hp hx hid hplaced, fun p hp => ?_⟩
  obtain ⟨e, he, -, i, hi, hop, hwaits⟩ := h.exists_waits hlog hp
  obtain ⟨hmade, hbefore, -⟩ := hlog.logged.made e he
  refine ⟨(e.source, i), PhiSources.mem_phisOf.mpr ⟨hinside e he, e.code, ?_,
    e.code.body_isPrefix.subset hi, hop⟩, hwaits.operand⟩
  rw [hlog.builds.blocks, ← hbefore.continues.blocks]
  exact hmade.code

/-! ### The finished function -/

theorem PhiSources.Prepared.phisMatch {phis : List (Nat × RawInstruction)}
    (h : Prepared t.arranged phis) (hr : ResolvesAll phis t.arranged d) : d.function.PhisMatch := by
  intro b _ r hb preds hpreds
  obtain ⟨sources, lanes, hi, rfl⟩ := Function.phiPreds?_eq_some.mp hpreds
  obtain ⟨sources', lanes', hi', hsources⟩ := h.sourcesFor hr hb (Function.isPhiAt_iff.mpr ⟨sources, lanes, hi⟩)
  rw [hi] at hi'
  cases hi'
  refine ⟨hsources, ?_⟩
  rw [hsources, hr.settles.function.preds]
  exact Function.nodup_preds_withFlow

theorem Tour.Sound.madeOnce (h : t.Sound)
    (hr : ResolvesAll (phisOf t.finish t.source) t.arranged d) : t.MadeOnce d.function := by
  obtain ⟨mades, hmades, hold, hnew⟩ := hr.exists_made h.inRange
  refine ⟨mades, hmades, fun b r hb hphi => ?_⟩
  by_cases hlt : r < t.arranged.function.instructions.size
  · rw [hr.settles.isPhiAt_eq hlt] at hphi
    exact .inl (h.apart.all r hphi)
  · exact .inr (hnew b r hb (Nat.not_lt.mp hlt) hphi)

theorem Tour.Sound.phisLead (h : t.Sound) (hs : Settles t.arranged d)
    (hlead : ∀ code ∈ t.start.blocks, code.LeadsWithPhis) (b : BlockId) : d.function.PhisLead b := by
  obtain ⟨log, hlog⟩ := h.walks
  have hcode (b : BlockId) : t.start.function.code b = [] := by
    cases b <;> simp [Function.code, h.blank.blocks]
  have hfinish : Structure.PhisLead t.finish := by
    refine hlog.phisLead (fun s code hs => hlead code (Array.mem_of_getElem? hs)) h.isOpen.inRange
      (fun _ => ⟨h.isOpen.lt, hcode 0⟩) fun b r hr => ?_
    simp [hcode] at hr
  refine hs.function.phisLead h.inRange b fun r hr => ?_
  rw [t.code_arranged] at hr
  exact hfinish b r hr

theorem isPhi_eq_false {f : Function} (hmatch : f.PhisMatch) (hlead : ∀ b, f.PhisLead b) {name : String}
    {p : Problem} (hp : p ∈ f.regionProblems name false f.body) : p.isPhi = false := by
  obtain ⟨b, -, inside, hp, -⟩ := Function.mem_regionProblems hp
  rw [Function.blockProblems_eq] at hp
  rcases Function.mem_orderProblems hp with hjump | hphi
  · cases hjump <;> rfl
  · cases hphi with
    | @notLeading before r _ hcode hr hled =>
      obtain ⟨r', hr', hnot, -⟩ := hled.resolve_left (by simp)
      have hne : before.dropWhile f.isPhiAt ≠ [] := by
        intro hnil
        simp_all
      have hmem : r ∈ (f.code b).dropWhile f.isPhiAt := by
        rw [hcode, dropWhile_append, if_neg (by simpa using hne)]
        simp
      cases (hlead b r hmem).symm.trans hr
    | sourceMismatch hr hi hsources =>
      refine (hsources ?_).elim
      have hlt : b < f.blocks.size := by
        by_contra hge
        rw [Function.code_of_size_le (Nat.not_lt.mp hge)] at hr
        cases hr
      have hpreds := hmatch b hlt _ hr _ (Function.phiPreds?_eq_some.mpr ⟨_, _, hi, rfl⟩)
      rw [← hpreds.1, length_map]

/-! ### Modules -/

theorem Context.phisDistinct_of_leadsWithPhis {f : SourceFunction}
    (h : ∀ code ∈ c.blocks, code.LeadsWithPhis) : c.PhisDistinct f := by
  intro x hx y _ _
  obtain ⟨-, code, hcode, hi, hop⟩ := PhiSources.mem_phisOf.mp hx
  left
  simp [carriesOut, hcode, (h code (Array.mem_of_getElem? hcode)).mem_body hi hop]

theorem Carries.phisDistinct (h : Carries c d) {f : SourceFunction} (hc : c.PhisDistinct f) :
    d.PhisDistinct f := by
  unfold Context.PhisDistinct phisOf Context.carriesOut
  rw [h.blocks]
  exact hc

/-- If control stays in its function and values have as many leaves as their phis, then the phis of a
module agree with the predecessors of their blocks: where no phi behind a merge instruction has the id
of another, the sources of each are for the predecessors, in order; for each phi of the stream, at most
one tree is added to a block; and where phis lead the blocks of the stream, no problem of phis is
found. -/
theorem phis_agree_with_predecessors {options : Options} {words : List Word} {m : Module} {c : Context}
    (hread : (readModule options words).result = .ok m) (houtline : outline? options words = some c)
    (hbranches : ∀ f ∈ c.functions, c.BranchesInside f) (hmerges : ∀ f ∈ c.functions, c.MergesInside f)
    (hfits : ∀ index t, tour? options words index = some t → t.PhisFit) :
    ((∀ f ∈ c.functions, c.PhisDistinct f) → ∀ f ∈ m.functions, f.PhisMatch) ∧
      (∀ index f, m.functions[index]? = some f → ∃ t, tour? options words index = some t ∧ t.MadeOnce f) ∧
      ((∀ code ∈ c.blocks, code.LeadsWithPhis) → ∀ p ∈ m.problems, p.isPhi = false) := by
  have htour {index : Nat} {f : Function} (hf : m.functions[index]? = some f) :
      ∃ t d, tour? options words index = some t ∧ t.Sound ∧ t.Of c index ∧
        ResolvesAll (phisOf t.finish t.source) t.arranged d ∧ d.function = f := by
    obtain ⟨t, d, htour, hresolves, hd⟩ := exists_tour hread hf
    obtain ⟨c', houtline', hof⟩ := exists_outline htour
    obtain rfl : c' = c := Option.some_inj.mp (houtline'.symm.trans houtline)
    exact ⟨t, d, htour, sound_of_tour? htour, hof, hresolves, hd⟩
  have hmatch (hdistinct : ∀ f ∈ c.functions, c.PhisDistinct f) (f : Function) (hf : f ∈ m.functions) :
      f.PhisMatch := by
    obtain ⟨index, hlt, hget⟩ := Array.getElem_of_mem hf
    obtain ⟨t, d, ht, hsound, hof, hresolves, rfl⟩ := htour (Array.getElem?_eq_some_iff.mpr ⟨hlt, hget⟩)
    have hsource := Array.mem_of_getElem? hof.source
    have hcarries := hof.carries.trans hsound.carries
    exact (hof.prepared hsound (fun f hf => ⟨hbranches f hf, hmerges f hf⟩)
      (hcarries.phisDistinct (hdistinct _ hsource)) (hfits index t ht)).phisMatch hresolves
  refine ⟨hmatch, fun index f hf => ?_, fun hlead p hp => ?_⟩
  · obtain ⟨t, d, ht, hsound, -, hresolves, rfl⟩ := htour hf
    exact ⟨t, ht, hsound.madeOnce hresolves⟩
  · rcases Module.mem_problems hp with ⟨what, index, size, rfl⟩ | ⟨e, -, -, rfl⟩ | ⟨f, hf, name, hp⟩
    · rfl
    · rfl
    · refine isPhi_eq_false (hmatch (fun _ _ => Context.phisDistinct_of_leadsWithPhis hlead) f hf) ?_ hp
      obtain ⟨index, hlt, hget⟩ := Array.getElem_of_mem hf
      obtain ⟨t, d, -, hsound, hof, hresolves, rfl⟩ := htour (Array.getElem?_eq_some_iff.mpr ⟨hlt, hget⟩)
      refine hsound.phisLead hresolves.settles ?_
      rw [hof.carries.blocks]
      exact hlead

/-- A loop whose header and continue target hold phis. The continue target is reached from two arms of a
selection, and one of them may leave the loop. -/
def phisInLoop : List Word := [0x07230203, 99, 0, 17, 0,
   0x00020013, 1, 0x00020014, 2, 0x00040015, 3, 32, 1, 0x00030021, 4, 1, 0x00030029, 2, 5,
   0x0004002b, 3, 6, 1, 0x0004002b, 3, 7, 2,
   0x00050036, 1, 8, 0, 4,
   0x000200f8, 9, 0x000200f9, 10,
   0x000200f8, 10, 0x000700f5, 3, 15, 6, 9, 16, 13, 0x000400f6, 14, 13, 0, 0x000200f9, 11,
   0x000200f8, 11, 0x000300f7, 13, 0, 0x000400fa, 5, 12, 13,
   0x000200f8, 12, 0x000400fa, 5, 14, 13,
   0x000200f8, 13, 0x000700f5, 3, 16, 7, 11, 15, 12, 0x000200f9, 10,
   0x000200f8, 14, 0x000100fd, 0x00010038]

theorem phis_agree_with_predecessors_phisInLoop :
    ∃ m c f, (readModule {} phisInLoop).result = .ok m ∧ outline? {} phisInLoop = some c ∧
      (∀ f ∈ c.functions, c.PhisDistinct f) ∧ (∀ code ∈ c.blocks, code.LeadsWithPhis) ∧
      m.functions[0]? = some f ∧ f.PhisMatch ∧
      (∃ t, tour? {} phisInLoop 0 = some t ∧ t.MadeOnce f) ∧ ∀ p ∈ m.problems, p.isPhi = false := by
  have h : hasFunction {} phisInLoop 0 := by decide +kernel
  obtain ⟨m, f, hread, hf⟩ := exists_of_hasFunction h
  obtain ⟨c, houtline⟩ := exists_outline_of_readModule hread
  have hc : ∀ c ∈ outline? {} phisInLoop, (∀ f ∈ c.functions, c.BranchesInside f) ∧
      (∀ f ∈ c.functions, c.MergesInside f) ∧ (∀ f ∈ c.functions, c.PhisDistinct f) ∧
      (∀ code ∈ c.blocks, code.LeadsWithPhis) ∧
      ∀ index < c.functions.size, ∀ t ∈ tour? {} phisInLoop index, t.PhisFit := by decide +kernel
  obtain ⟨hbranches, hmerges, hdistinct, hlead, hfits⟩ := hc c houtline
  obtain ⟨hmatch, hmade, hproblems⟩ := phis_agree_with_predecessors hread houtline hbranches hmerges
    fun _ _ ht => hfits _ (index_lt_of_tour? houtline ht) _ ht
  grind

/-- A phi behind a merge instruction, which has the id of a phi of another block. -/
def hiddenPhi : List Word := [0x07230203, 99, 0, 13, 0,
   0x00020013, 1, 0x00020014, 2, 0x00040015, 3, 32, 1, 0x00030021, 4, 1, 0x00030029, 2, 5,
   0x0004002b, 3, 6, 1, 0x0004002b, 3, 7, 2,
   0x00050036, 1, 8, 0, 4,
   0x000200f8, 9, 0x000300f7, 11, 0, 0x000500f5, 3, 12, 6, 10, 0x000400fa, 5, 10, 11,
   0x000200f8, 10, 0x000200f9, 11,
   0x000200f8, 11, 0x000700f5, 3, 12, 6, 10, 7, 9, 0x000100fd, 0x00010038]

/-- A selection that comes together in a block of the next function, and one arm of which ends the
invocation. -/
def strayMerge : List Word := [0x07230203, 99, 0, 15, 0,
   0x00020013, 1, 0x00020014, 2, 0x00040015, 3, 32, 1, 0x00030021, 4, 1, 0x00030029, 2, 5,
   0x0004002b, 3, 6, 1,
   0x00050036, 1, 7, 0, 4,
   0x000200f8, 8, 0x000300f7, 13, 0, 0x000400fa, 5, 9, 10,
   0x000200f8, 9, 0x000100fc, 0x000200f8, 10, 0x000100fd, 0x00010038,
   0x00050036, 1, 11, 0, 4,
   0x000200f8, 12, 0x000100fd,
   0x000200f8, 13, 0x000500f5, 3, 14, 6, 9, 0x000100fd, 0x00010038]

/-- Both conditions are needed: sources go astray where a phi behind a merge instruction has the id of
another, and where a selection comes together outside of its function. -/
theorem phis_disagree : (∃ m c, (readModule {} hiddenPhi).result = .ok m ∧ outline? {} hiddenPhi = some c ∧
      (∀ f ∈ c.functions, c.BranchesInside f) ∧ (∀ f ∈ c.functions, c.MergesInside f) ∧
      (∀ index t, tour? {} hiddenPhi index = some t → t.PhisFit) ∧ ∃ f ∈ m.functions, ¬f.PhisMatch) ∧
    ∃ m c, (readModule {} strayMerge).result = .ok m ∧ outline? {} strayMerge = some c ∧
      (∀ f ∈ c.functions, c.BranchesInside f) ∧
      (∀ index t, tour? {} strayMerge index = some t → t.PhisFit) ∧
      (∀ code ∈ c.blocks, code.LeadsWithPhis) ∧ (∃ f ∈ m.functions, ¬f.PhisMatch) ∧
      ∃ p ∈ m.problems, p.isPhi := by
  constructor
  · have h : hasFunction {} hiddenPhi 0 := by decide +kernel
    obtain ⟨m, -, hread, -⟩ := exists_of_hasFunction h
    obtain ⟨c, houtline⟩ := exists_outline_of_readModule hread
    have hm : ∀ m ∈ (readModule {} hiddenPhi).result.toOption, ∃ f ∈ m.functions, ¬f.PhisMatch := by
      decide +kernel
    have hc : ∀ c ∈ outline? {} hiddenPhi, (∀ f ∈ c.functions, c.BranchesInside f) ∧
        (∀ f ∈ c.functions, c.MergesInside f) ∧
        ∀ index < c.functions.size, ∀ t ∈ tour? {} hiddenPhi index, t.PhisFit := by decide +kernel
    obtain ⟨hbranches, hmerges, hfits⟩ := hc c houtline
    exact ⟨m, c, hread, houtline, hbranches, hmerges,
      fun _ _ ht => hfits _ (index_lt_of_tour? houtline ht) _ ht, hm m (toOption_eq_some.mpr hread)⟩
  · have h : hasFunction {} strayMerge 0 := by decide +kernel
    obtain ⟨m, -, hread, -⟩ := exists_of_hasFunction h
    obtain ⟨c, houtline⟩ := exists_outline_of_readModule hread
    have hm : ∀ m ∈ (readModule {} strayMerge).result.toOption,
        (∃ f ∈ m.functions, ¬f.PhisMatch) ∧ ∃ p ∈ m.problems, p.isPhi := by decide +kernel
    have hc : ∀ c ∈ outline? {} strayMerge, (∀ f ∈ c.functions, c.BranchesInside f) ∧
        (∀ code ∈ c.blocks, code.LeadsWithPhis) ∧
        ∀ index < c.functions.size, ∀ t ∈ tour? {} strayMerge index, t.PhisFit := by decide +kernel
    obtain ⟨hbranches, hlead, hfits⟩ := hc c houtline
    exact ⟨m, c, hread, houtline, hbranches,
      fun _ _ ht => hfits _ (index_lt_of_tour? houtline ht) _ ht, hlead, hm m (toOption_eq_some.mpr hread)⟩

end Spirv

end ShaderIR
