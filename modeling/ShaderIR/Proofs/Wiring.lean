import ShaderIR.Proofs.Listing

/-!
# What each phi is wired to

After the walk of a function, every phi of its own blocks that waits for sources gets them: the trees of
phis that are made for it are closed under going back from a block to those that lead to it, and where
the going ends, a tree holds the listed value once its block has run. Selections may come together in
blocks of other functions; the phis of such blocks wait for ever, but no branch leads there.
-/

namespace ShaderIR.Spirv

open EStateM List

open PhiSources (phisOf Settles ResolvesAll Resolves Fills Made Awaits Advances SourcesFor Filled Supplies
  Wired Ready)

/-! ### Blocks of the stream whose code is in place -/

/-- The phis of all blocks whose code is in place have meanings. -/
def Context.KnowsPlaced (c : Context) : Prop :=
  ∀ e ∈ c.placed, ∀ code, c.blocks[e.1]? = some code → ∀ i ∈ code.body, i.op = .opPhi →
    ∀ id, i.operand 1 = .ok id → c.Knows id

variable {c c' : Context} {t : Tour} {index : Nat}

theorem Structure.Walks.knowsPlaced {block : BlockId} {source : Nat} {before : Option Nat} {scope : Scope}
    {region : Region} {log : List Emission} (h : Walks block source before scope c region c' log)
    (hc : c.KnowsPlaced) : c'.KnowsPlaced := by
  intro e he code hcode i hi hop id hid
  rw [h.placed, mem_append, mem_reverse, mem_map] at he
  rw [h.carries.blocks] at hcode
  rcases he with ⟨e, he, rfl⟩ | he
  · obtain ⟨hmade, hearlier, hlater⟩ := h.logged.made e he
    obtain rfl : e.code = code := by
      have := hmade.code
      rw [hearlier.continues.blocks] at this
      exact Option.some_inj.mp (this.symm.trans hcode)
    exact hlater.continues.knows (hmade.not_knows hi hop hid).2
  · exact h.carries.knows (hc e he code hcode i hi hop id hid)

theorem knowsPlaced_of_readFunction {source : SourceFunction}
    (h : readFunction index source c = .ok () c') (hc : c.KnowsPlaced) : c'.KnowsPlaced := by
  obtain ⟨t, d, -, -, htaken, hresolves, rfl⟩ := readFunction_eq_ok h
  obtain ⟨log, hwalks⟩ := htaken.walks
  have hs := hresolves.settles
  have hstart : t.start.KnowsPlaced := by
    intro e he code hcode i hi hop id hid
    rw [htaken.begins.placed] at he
    rw [htaken.begins.blocks] at hcode
    exact htaken.carries.1.knows (hc e he code hcode i hi hop id hid)
  intro e he code hcode i hi hop id hid
  change e ∈ d.placed at he
  rw [hs.placed] at he
  change d.blocks[e.1]? = some code at hcode
  rw [hs.blocks] at hcode
  obtain ⟨v, hv⟩ := hwalks.knowsPlaced hstart e he code hcode i hi hop id hid
  refine ⟨v, ?_⟩
  change d.ids.get id = .ok v
  rw [hs.ids]
  exact hv

theorem Tour.Of.knowsPlaced (h : t.Of c index) : t.start.KnowsPlaced := by
  obtain ⟨d, hforM, hbegins⟩ := h.before
  have hc : c.KnowsPlaced := by
    intro e he
    rw [h.outlined.placed] at he
    cases he
  intro e he code hcode i hi hop id hid
  rw [hbegins.placed] at he
  rw [hbegins.blocks] at hcode
  have hd := forM_keeps (fun _ _ _ => knowsPlaced_of_readFunction) hforM hc
  exact hbegins.carries.knows (hd e he code hcode i hi hop id hid)

/-! ### The phis of a tour -/

/-- The walk of a tour made code as it is recorded. -/
def Tour.Walked (t : Tour) (log : List Emission) : Prop :=
  Structure.Walks 0 t.entry none {} t.start t.body t.finish log

variable {d : Context} {log : List Emission} {p : Id × Tree} {x : Nat × RawInstruction}

theorem Tour.Walked.getElem?_blocks (h : t.Walked log) {e : Emission} (he : e ∈ log) :
    t.finish.blocks[e.source]? = some e.code := by
  obtain ⟨hmade, hbefore, -⟩ := h.logged.made e he
  rw [h.carries.blocks, ← hbefore.continues.blocks]
  exact hmade.code

section Leading

variable (hof : t.Of c index) (h : t.Sound) (hlead : ∀ code ∈ t.finish.blocks, code.LeadsWithPhis)
  (hlog : t.Walked log)
include hof h hlead hlog

/-- If phis lead the blocks of the stream, a phi with the id of one whose code was made is that one, once
the code of its block is in place. -/
theorem Tour.Of.eq_of_placed {e : Emission} (he : e ∈ log) {j : RawInstruction} (hj : j ∈ e.code.body)
    (hop : j.op = .opPhi) {id : Id} (hjid : j.operand 1 = .ok id) (hx : x ∈ phisOf t.finish t.source)
    (hid : x.2.operand 1 = .ok id) {block : BlockId}
    (hplaced : t.finish.placed.lookup x.1 = some block) : x = (e.source, j) ∧ block = e.block := by
  obtain ⟨source, i⟩ := x
  obtain ⟨-, code, hcode, hi, hop'⟩ := PhiSources.mem_phisOf.mp hx
  have hbody := (hlead code (Array.mem_of_getElem? hcode)).mem_body hi hop'
  obtain ⟨before, after, hsplit, -⟩ := lookup_eq_some_iff.mp hplaced
  have hmem : (source, block) ∈ t.finish.placed := by simp [hsplit]
  rw [hlog.placed, mem_append, mem_reverse, mem_map] at hmem
  rcases hmem with ⟨e', he', hentry⟩ | hmem
  · obtain ⟨rfl, rfl⟩ := Prod.mk.inj hentry
    obtain rfl : e'.code = code := Option.some_inj.mp ((hlog.getElem?_blocks he').symm.trans hcode)
    obtain rfl := hlog.logged.eq_of_operand he' he hbody hj hop' hop hid hjid
    obtain rfl := (hlog.logged.made _ he).1.eq_of_operand hbody hj hop' hop hid hjid
    exact ⟨rfl, rfl⟩
  · -- code that was in place before the walk gave the id its meaning then
    rw [h.carries.blocks] at hcode
    have hknows := hof.knowsPlaced _ hmem code hcode i hbody hop' id hid
    obtain ⟨hmade, hearlier, -⟩ := hlog.logged.made e he
    exact ((hmade.not_knows hj hop hjid).1 (hearlier.continues.knows hknows)).elim

theorem Tour.Of.waits_of_leadsWithPhis (hp : p ∈ t.finish.pendingPhis)
    (hx : x ∈ phisOf t.finish t.source) (hid : x.2.operand 1 = .ok p.1) {block : BlockId}
    (hplaced : t.finish.placed.lookup x.1 = some block) :
    Structure.Waits t.finish block x.2 p.1 p.2 := by
  obtain ⟨e, he, -, j, hj, hop, hwaits⟩ := h.exists_waits hlog hp
  obtain ⟨rfl, rfl⟩ := hof.eq_of_placed h hlead hlog he hj hop hwaits.operand hx hid hplaced
  exact hwaits

end Leading

/-! ### The phis at the beginning of code -/

namespace Structure

variable {e : Emission} {i : RawInstruction}

/-- The point in a block behind the phis with which the code of a block of the stream begins. -/
def behindPhis (e : Emission) : Nat :=
  match Body.instructions (labelBefore e.start e.before) (e.code.body.takeWhile (·.admitsPhi))
      (.append e.block) (placedAt e.start e.source e.block) with
  | .ok _ c => c.function.instructions.size
  | .error .. => e.start.function.instructions.size

theorem IsMade.exists_leading (h : IsMade e) :
    ∃ d, Body.instructions (labelBefore e.start e.before) (e.code.body.takeWhile (·.admitsPhi))
        (.append e.block) (placedAt e.start e.source e.block) = .ok () d ∧
      behindPhis e = d.function.instructions.size ∧ WalksOn d e.finish := by
  obtain ⟨d', hd, hfinish⟩ := emitBody_eq_ok.mp h.emit
  rw [← takeWhile_append_dropWhile (p := (·.admitsPhi)) (l := e.code.body), instructions_append_eq_ok] at hd
  obtain ⟨d, hleading, hrest⟩ := hd
  refine ⟨d, hleading, by simp only [behindPhis, hleading], ?_⟩
  rw [hfinish]
  exact (walksOn_of_instructions hrest).tail (.mark ..)

theorem IsMade.size_le_behindPhis (h : IsMade e) : e.start.fresh ≤ behindPhis e := by
  obtain ⟨d, hleading, hbehind, -⟩ := h.exists_leading
  rw [hbehind]
  exact (walksOn_of_instructions hleading).continues.count

theorem IsMade.exists_meets_leading (h : IsMade e) (hlead : e.code.LeadsWithPhis) (hi : i ∈ e.code.body)
    (hop : i.op = .opPhi) :
    ∃ before c c', Meets e before i c c' ∧ c'.fresh ≤ behindPhis e := by
  obtain ⟨d, hleading, hbehind, hfinish⟩ := h.exists_leading
  have hmem : i ∈ e.code.body.takeWhile (·.admitsPhi) := by
    rw [← takeWhile_append_dropWhile (p := (·.admitsPhi)) (l := e.code.body), mem_append] at hi
    exact hi.resolve_right fun hi => hlead.body i hi hop
  obtain ⟨before, after, hsplit⟩ := append_of_mem hmem
  rw [hsplit, instructions_append_eq_ok] at hleading
  obtain ⟨d₀, hbefore, hrest⟩ := hleading
  obtain ⟨d₁, hphi, hafter⟩ := instructions_cons_eq_ok.mp hrest
  rw [Body.instruction_phi hop] at hphi
  have hwalks := walksOn_of_instructions hafter
  refine ⟨before, _, d₁, ⟨⟨d₀, hbefore, rfl⟩, phiStep_of_phi hphi, hwalks.trans hfinish⟩, ?_⟩
  rw [hbehind]
  exact hwalks.continues.count

theorem loads_of_instructions {b : BlockId} {label : Id} {is : List RawInstruction}
    (his : ∀ j ∈ is, j.admitsPhi) (h : Body.instructions (some label) is (.append b) c = .ok () c') :
    ∃ words : List (List Word), c'.function = c.function.insertAll (.append b) (words.map .loadConst) := by
  induction is generalizing c with
  | nil =>
    obtain ⟨-, rfl⟩ := pure_eq_ok.mp h
    exact ⟨[], rfl⟩
  | cons j is ih =>
    obtain ⟨d, hj, hrest⟩ := instructions_cons_eq_ok.mp h
    obtain ⟨words', hwords'⟩ := ih (fun j' hj' => his j' (mem_cons_of_mem j hj')) hrest
    by_cases hphi : j.op = .opPhi
    · rw [Body.instruction_phi hphi] at hj
      cases phiStep_of_phi hj with
      | take _ _ _ htree =>
        obtain ⟨words, hinserts⟩ := Emit.inserts_treeOf htree
        refine ⟨words ++ words', ?_⟩
        rw [hwords', map_append, Function.insertAll_append]
        exact congrArg (Function.insertAll · _ _) hinserts.function
    · rw [Body.instruction_of_admitsPhi (his j (mem_cons_self ..)) hphi] at hj
      obtain ⟨-, rfl⟩ := pure_eq_ok.mp hj
      exact ⟨words', hwords'⟩

/-- Before the point behind its phis, code that continues other code loads constants only. -/
theorem IsMade.loads_leading (h : IsMade e) {label : Id}
    (hlabel : labelBefore e.start e.before = some label) (hblock : e.block < e.start.function.blocks.size)
    {r : Register} (hle : e.start.function.instructions.size ≤ r) (hlt : r < behindPhis e) :
    r ∈ e.finish.function.code e.block ∧
      ∃ words, e.finish.function.instructions[r]? = some (.loadConst words) := by
  obtain ⟨d, hleading, hbehind, hfinish⟩ := h.exists_leading
  rw [hlabel] at hleading
  obtain ⟨words, hd⟩ := loads_of_instructions (fun j hj => mem_takeWhile_imp hj) hleading
  change d.function = e.start.function.insertAll _ _ at hd
  have hsize : d.function.instructions.size = e.start.function.instructions.size + words.length := by
    simp [hd]
  rw [hbehind, hsize] at hlt
  have hcontinues := WalksOn.continues hfinish
  have hlt' : r - e.start.function.instructions.size < words.length := by lia
  refine ⟨(hcontinues.code e.block).subset ?_, words[r - e.start.function.instructions.size], ?_⟩
  · rw [hd, Function.mem_code_insertAll]
    exact .inr ⟨⟨hle, by simpa using hlt⟩, rfl, hblock⟩
  · refine hcontinues.instructions r _ ?_
    simp_all

end Structure

section Phis

variable (h : t.Sound) (hlog : t.Walked log) {e : Emission} (he : e ∈ log) {i : RawInstruction}
  (hi : i ∈ e.code.body) (hop : i.op = .opPhi)
include h hlog he hi hop

theorem Tour.Sound.exists_pending (hbefore : e.before = none) :
    ∃ id tree, i.operand 1 = .ok id ∧ (id, tree) ∈ t.finish.pendingPhis ∧
      t.finish.ids.get id = .ok (.tree tree) := by
  obtain ⟨hmade, hearlier, hlater⟩ := hlog.logged.made e he
  obtain ⟨before, after, hbody⟩ := append_of_mem hi
  obtain ⟨c, c', hmeets⟩ := hmade.exists_meets hbody hop
  have hstep := hmeets.step
  have hc := hearlier.continues.trans hmeets.start.continues
  rw [hbefore] at hstep
  obtain ⟨id, tree, hpending, hwaits⟩ := Structure.PhiStep.waits hstep (hc.inRange h.isOpen.inRange)
    (Nat.lt_of_lt_of_le (hlog.block_lt h.isOpen.lt he) hmeets.start.continues.size)
  have hrest := hmeets.rest.continues.trans hlater.continues
  refine ⟨id, tree, hwaits.operand, hrest.pendingPhis.subset ?_, hrest.ids id _ hwaits.get⟩
  rw [hpending]
  exact mem_cons_self ..

/-- A phi in code that continues other code stands for what is listed for that, which is there once the
code has been carried out. -/
theorem Tour.Sound.exists_held (hlead : e.code.LeadsWithPhis) (hg : t.start.Grounded) {label : Id}
    (hlabel : Structure.labelBefore e.start e.before = some label) :
    ∃ id pairs value tree, i.operand 1 = .ok id ∧ Code.phiPairs i = .ok pairs ∧
      Code.listedValue? pairs label = some value ∧ t.finish.ids.get id = .ok (.tree tree) ∧
      Held t.finish (t.finish.function.upToExit (t.finish.function.code e.block)) value tree ∧
      (t.finish.ids.get value = .ok (.tree tree) ∨ ∀ r ∈ tree.leaves, r < Structure.behindPhis e) := by
  obtain ⟨hmade, hearlier, hlater⟩ := hlog.logged.made e he
  obtain ⟨before, c, c', hmeets, hbehind⟩ := hmade.exists_meets_leading hlead hi hop
  have hstep := hmeets.step
  have hc := hearlier.continues.trans hmeets.start.continues
  have hrest := hmeets.rest.continues.trans hlater.continues
  rw [hlabel] at hstep
  cases hstep with
  | @take _ c₁ ids _ id pairs value tree hid hpairs hlisted htree hdefine =>
    obtain ⟨words, hinserts⟩ := Emit.inserts_treeOf htree
    have hgc := hc.grounded hg
    have hg₁ := hgc.of_inserts hinserts
    have hids := IdTable.extends_of_define hdefine
    refine ⟨id, pairs, value, tree, hid, hpairs, hlisted, hrest.ids id _ (IdTable.get_of_define hdefine), ?_, ?_⟩
    · have hheld : Held c₁ (t.finish.function.upToExit (t.finish.function.code e.block)) value tree := by
        refine Emit.held_of_treeOf hgc htree fun r words hle hload => ?_
        obtain ⟨hlt, -⟩ := Array.getElem?_eq_some_iff.mp hload
        refine h.leavesLast.mem_upToExit ((hrest.code e.block).subset ?_) ?_
        · change r ∈ c₁.function.code e.block
          rw [hinserts.size] at hlt
          rw [hinserts.function, Function.mem_code_insertAll]
          refine .inr ⟨⟨hle, hlt⟩, rfl, ?_⟩
          exact Nat.lt_of_lt_of_le (hlog.block_lt h.isOpen.lt he) hmeets.start.continues.size
        · rw [Function.exitAt, hrest.instructions r _ hload]
          rfl
      exact hheld.mono hg₁ (hids.trans hrest.ids) hrest.constants hrest.types
        (fun r words hload => hrest.instructions r _ hload) fun _ hr => hr
    · rcases Emit.treeOf_eq_ok htree with ⟨hget, rfl⟩ | ⟨k, words, -, hplants, -⟩
      · exact .inl (hrest.ids value _ (hids value _ hget))
      · exact .inr fun r hr => Nat.lt_of_lt_of_le (hplants.mem hr).2 hbehind

omit hi hop in
/-- Before the point behind its phis, code that continues other code loads constants only. -/
theorem Tour.Sound.loads_leading {label : Id}
    (hlabel : Structure.labelBefore e.start e.before = some label) {r : Register}
    (hle : e.start.fresh ≤ r) (hlt : r < Structure.behindPhis e) :
    r ∈ t.finish.function.upToExit (t.finish.function.code e.block) ∧
      ∃ words, t.finish.function.instructions[r]? = some (.loadConst words) := by
  obtain ⟨hmade, -, hlater⟩ := hlog.logged.made e he
  have hcontinues := hlater.continues
  obtain ⟨hmem, words, hload⟩ := hmade.loads_leading hlabel (hlog.block_lt h.isOpen.lt he) hle hlt
  have hload' := hcontinues.instructions r _ hload
  refine ⟨h.leavesLast.mem_upToExit ((hcontinues.code e.block).subset hmem) ?_, words, hload'⟩
  rw [Function.exitAt, hload']
  rfl

end Phis

/-! ### What each phi is wired to -/

theorem Held.leafCount?_eq {rs : List Register} {id : Id} {tree : Tree} (h : Held c rs id tree) :
    c.leafCount? id = some tree.leaves.length := by
  cases h with
  | tree hget => simp [Context.leafCount?, hget]
  | constant hget hloads => simp [Context.leafCount?, hget, hloads.length_eq]

namespace PhiSources

/-- The tree of a phi in a block has all its sources, and so has every tree of phis that was made for it;
all of them have as many leaves as the values that are listed. -/
structure Resolved (c : Context) (pairs : List (Id × Id)) (made : Made) (b : BlockId) (phi : Tree) : Prop where
  filled : Filled c pairs made b phi
  trees : ∀ e ∈ made, Filled c pairs made e.1 e.2
  length : ∀ e ∈ made, e.2.leaves.length = phi.leaves.length
  listed : ∀ pair ∈ pairs, ∀ n ∈ c.leafCount? pair.1, n = phi.leaves.length

theorem Resolved.length_of_supplies {pairs : List (Id × Id)} {made : Made} {b b' : BlockId}
    {phi tree : Tree} (h : Resolved c pairs made b phi) (hsupplies : Supplies c pairs made b' tree)
    (hexit : c.function.exit? b' ≠ some .return) : tree.leaves.length = phi.leaves.length := by
  cases hsupplies with
  | listed hlisted hheld =>
    obtain ⟨pair, hpair, rfl⟩ := exists_mem_of_listed? hlisted
    exact h.listed pair hpair _ (hheld hexit).leafCount?_eq
  | made _ hmade => exact h.length _ hmade

/-- A phi that waits is filled in when the first phi with its id has its turn. -/
theorem ResolvesAll.exists_resolves {phis : List (Nat × RawInstruction)} (h : ResolvesAll phis c c')
    (hp : p ∈ c.pendingPhis) (hx : x ∈ phis) (hid : x.2.operand 1 = .ok p.1) :
    ∃ y phis' d d', phis' ⊆ phis ∧ ResolvesAll phis' c d ∧ y ∈ phis ∧ y.2.operand 1 = .ok p.1 ∧
      p ∈ d.pendingPhis ∧ Resolves y.1 y.2 d d' ∧ Settles d' c' := by
  induction h with
  | nil => cases hx
  | @cons source i phis c d _ hphi hrest ih =>
    by_cases hfirst : i.operand 1 = .ok p.1
    · exact ⟨(source, i), [], c, d, nil_subset _, .nil, mem_cons_self .., hfirst, hp, hphi, hrest.settles⟩
    · have hx' : x ∈ phis := by
        grind
      have hp' : p ∈ d.pendingPhis := by
        cases hphi with
        | skip => exact hp
        | @fill _ _ _ _ _ _ _ _ hid _ _ _ _ hc₁ hfills =>
          rw [(keeps_of_finds_and_fills.2 hfills).pendingPhis, hc₁]
          refine mem_filter.mpr ⟨hp, ?_⟩
          grind
      obtain ⟨y, phis', d₁, d₂, hsubset, hbefore, hy, hid', hp'', hresolves, hs⟩ := ih hp' hx'
      exact ⟨y, (source, i) :: phis', d₁, d₂, cons_subset_cons _ hsubset, .cons hphi hbefore,
        mem_cons_of_mem _ hy, hid', hp'', hresolves, hs⟩

/-- A phi that waits, and that some phi to be filled in has the id of, is wired to its sources. -/
theorem Awaits.exists_resolved {phis : List (Nat × RawInstruction)} (h : Awaits c phis)
    (hready : Ready c.module.types c) (hlead : ∀ b, c.function.PhisLead b) (hr : ResolvesAll phis c c')
    (hp : p ∈ c.pendingPhis) (hx : x ∈ phis) (hid : x.2.operand 1 = .ok p.1) :
    ∃ y ∈ phis, ∃ pairs made block, y.2.operand 1 = .ok p.1 ∧ Code.phiPairs y.2 = .ok pairs ∧
      c.placed.lookup y.1 = some block ∧ Resolved c' pairs made block p.2 := by
  obtain ⟨y, phis', d, d', hsubset, hbefore, hy, hid', hp', hresolves, hs⟩ := hr.exists_resolves hp hx hid
  have ha : Advances c d := h.advances.resolvesAll h hsubset hbefore
  obtain ⟨id, tree⟩ := p
  cases hresolves with
  | skip hid'' hpending =>
    grind
  | @fill _ tree' ty pairs block c₁ made _ hid'' hpending hty hpairs hplaced hc₁ hfills =>
    cases hid''.symm.trans hid'
    obtain rfl : tree' = tree := by
      obtain ⟨before, after, hsplit, -⟩ := lookup_eq_some_iff.mp hpending
      have hget := h.get _ (ha.pending (show (id, tree') ∈ d.pendingPhis by simp [hsplit]))
      have hget' := h.get _ hp
      cases hget.symm.trans hget'
      rfl
    rw [ha.settles.placed] at hplaced
    have hwaits := h.waits _ hp y hy hid' block hplaced
    have hs₁ : Settles c c₁ := ha.settles.trans (by rw [hc₁]; exact { Settles.refl d with })
    have hready₁ := hready.settles hs₁
    have hs₂ := settles_of_finds_and_fills.2 hfills
    have hfunction : c₁.function = d.function := by
      rw [hc₁]
      rfl
    have hcount {spot : Spot} {e : Context} {t : Tree} {e' : Context}
        (he : c.module.types.Extends e.module.types) (htree : Code.phiTree ty spot e = .ok t e') :
        t.leaves.length = tree'.leaves.length := by
      obtain ⟨typeId, v, spot', e₀, e₁, htypeId, hv, htree', htypes⟩ := hwaits.typed
      obtain ⟨typeId', v', htypeId', hv', rfl⟩ := hty
      rw [htypeId] at htypeId'
      cases htypeId'
      rw [ha.settles.ids, hv] at hv'
      cases hv'
      exact (Code.length_leaves_phiTree htree' htree (htypes.trans he)).symm
    have hvacant : Vacant c₁ tree' (d.function.preds block) := by
      intro r hmem
      obtain ⟨sources, lanes, hi, hnone⟩ := ha.vacant _ hp' r hmem
      simp_all
    rw [← hfunction] at hfills hvacant
    obtain ⟨hsourced, -, hall⟩ := (supplies_and_sourced hcount).2 hfills hready₁
      (hready₁.preds block) (hready₁.nodup block) hwaits.nodup hvacant
    have hready₂ := hready₁.settles hs₂
    have hfilled : Filled d' pairs made block tree' := by
      refine ⟨fun r hmem => (hs₁.trans hs₂).function.phis h.inRange block r ?_, ?_⟩
      · -- the leaves are phis of a block that phis lead
        obtain ⟨lanes, hi⟩ := hwaits.vacant r hmem
        have hphi : c.function.isPhiAt r := Function.isPhiAt_iff.mpr ⟨[], lanes, hi⟩
        have hcode := (hwaits.holds r hmem block).mpr rfl
        rw [← takeWhile_append_dropWhile (p := c.function.isPhiAt) (l := c.function.code block),
          mem_append] at hcode
        refine hcode.resolve_right fun hmem => ?_
        rw [hlead block r hmem] at hphi
        cases hphi
      · rw [hs₂.function.preds]
        exact hsourced
    refine ⟨y, hy, pairs, made, block, hid', hpairs, hplaced,
      hfilled.settles hready₂ hs (List.Subset.refl _), fun e he => ?_, fun e he => ?_,
      fun pair hpair n hn => ?_⟩
    · exact ((hall e he).resolve_left not_mem_nil).1.settles hready₂ hs (List.Subset.refl _)
    · exact ((hall e he).resolve_left not_mem_nil).2
    · have hs' := hr.settles
      rw [h.grounded.leafCount?_eq hs'.ids hs'.constants hs'.types] at hn
      exact (h.fits y hy).eq hid' hpairs hpair hn (by simp [Context.leafCount?, hwaits.get])

end PhiSources

end ShaderIR.Spirv
