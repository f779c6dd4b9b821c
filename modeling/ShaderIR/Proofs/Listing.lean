import ShaderIR.Proofs.Agreement
import ShaderIR.Proofs.Arrivals
import ShaderIR.Proofs.Availability

/-!
# Phis that list all branches

Where every phi lists the blocks that branch to its block, the sources of the phis can be filled in.
Whichever block is asked for the value of a phi passes control on to the block of the phi: it is left as
a block of the stream that branches there, for which a value is listed, or asks the blocks that lead to it
in turn. This breaks down at blocks that count as leading on though no run passes through them: those in
which the fragment is dropped, and empty ones that nothing leads to.
-/

namespace ShaderIR.Spirv

open List

open PhiSources (phisOf Asked Answers Resolvable)

/-- Every phi of a function has an id, which no other phi of the stream has. -/
def Context.PhisNamed (c : Context) (f : SourceFunction) : Prop :=
  ∀ x ∈ phisOf c f, (x.2.operand 1).isOk ∧ ∀ s < c.blocks.size, ∀ code ∈ c.blocks[s]?, ∀ i ∈ code.code,
    i.op = .opPhi → i.operand 1 = x.2.operand 1 → (s, i) = x

instance (c : Context) (f : SourceFunction) : Decidable (c.PhisNamed f) :=
  inferInstanceAs (Decidable (∀ x ∈ phisOf c f, _))

/-- A phi lists every block of the stream that branches to its block. -/
def Context.ListsBranches (c : Context) (x : Nat × RawInstruction) : Prop :=
  ∀ s < c.blocks.size, ∀ code ∈ c.blocks[s]?, x.1 ∈ c.branchTargets code →
    ((Code.phiPairs x.2).toOption.bind (Code.listedValue? · code.label)).isSome

instance (c : Context) (x : Nat × RawInstruction) : Decidable (c.ListsBranches x) :=
  inferInstanceAs (Decidable (∀ s < c.blocks.size, _))

/-- The ids that a phi lists stand for values. -/
def Context.KnowsValues (c : Context) (i : RawInstruction) : Prop :=
  ∀ pairs ∈ (Code.phiPairs i).toOption, ∀ pair ∈ pairs, c.ids.HasValue pair.1

instance (c : Context) (i : RawInstruction) : Decidable (c.KnowsValues i) :=
  have (pairs : List (Id × Id)) : Decidable (∀ pair ∈ pairs, c.ids.HasValue pair.1) := List.decidableBAll _ _
  inferInstanceAs (Decidable (∀ pairs ∈ _, _))

/-- Runs can pass through a block: the fragment is not dropped there, and if control leaves the block as no
block of the stream, other blocks lead to it. -/
def Tour.LeadsOn (t : Tour) (b : BlockId) : Prop :=
  ¬t.arranged.function.Drops b ∧ (t.finish.ends.lookup b = none → t.arranged.function.preds b ≠ [])

instance (t : Tour) (b : BlockId) : Decidable (t.LeadsOn b) := inferInstanceAs (Decidable (_ ∧ _))

/-- Runs can pass through every block that is asked for the value of a phi. -/
def Tour.Passable (t : Tour) (x : Nat × RawInstruction) : Prop :=
  ∀ pairs, Code.phiPairs x.2 = .ok pairs → ∀ block, t.finish.placed.lookup x.1 = some block →
    ∀ b, Asked t.arranged pairs block b → t.LeadsOn b

variable {t : Tour} {x : Nat × RawInstruction} {id : Id} {tree : Tree}

theorem Context.ListsBranches.exists_listed {c : Context} (h : c.ListsBranches x) {s : Nat}
    {pairs : List (Id × Id)} (hpairs : Code.phiPairs x.2 = .ok pairs) (hbranch : c.Branches s x.1) :
    ∃ code value, c.blocks[s]? = some code ∧ Code.listedValue? pairs code.label = some value := by
  obtain ⟨code, hcode, htarget⟩ := hbranch
  obtain ⟨hlt, -⟩ := Array.getElem?_eq_some_iff.mp hcode
  have hlisted := h s hlt code hcode htarget
  rw [hpairs] at hlisted
  obtain ⟨value, hvalue⟩ := Option.isSome_iff_exists.mp hlisted
  exact ⟨code, value, hcode, hvalue⟩

/-! ### Where a phi stands -/

/-- A phi that waits for its sources stands in the block where the code of its block was placed, and the
code comes first there. -/
theorem Tour.Sound.placed_of_pending (h : t.Sound) (hnamed : t.finish.PhisNamed t.source)
    (hx : x ∈ phisOf t.finish t.source) (hid : x.2.operand 1 = .ok id)
    (hp : (id, tree) ∈ t.finish.pendingPhis) :
    ∃ block, t.finish.placed.lookup x.1 = some block ∧ block < t.finish.function.blocks.size ∧
      Structure.Waits t.finish block x.2 id tree ∧ (sourcesIn t.log block).head? = some x.1 := by
  obtain ⟨log, hlog⟩ := h.walks
  have hblocks {e : Emission} (he : e ∈ log) : t.finish.blocks[e.source]? = some e.code := by
    obtain ⟨hmade, hbefore, -⟩ := hlog.logged.made e he
    rw [hlog.builds.blocks, ← hbefore.continues.blocks]
    exact hmade.code
  obtain ⟨e, he, hbefore, i, hi, hop, hwaits⟩ := h.exists_waits hlog hp
  obtain ⟨hlt, -⟩ := Array.getElem?_eq_some_iff.mp (hblocks he)
  obtain rfl : (e.source, i) = x := (hnamed x hx).2 e.source hlt e.code (hblocks he) i
    (e.code.body_isPrefix.subset hi) hop (hwaits.operand.trans hid.symm)
  refine ⟨e.block, ?_, ?_, hwaits, ?_⟩
  · -- the code of the block was made once, so it was placed once
    have hlookup : ((log.map Emission.entry).reverse.lookup e.source) = some e.block := by
      cases hfound : (log.map Emission.entry).reverse.lookup e.source with
      | none =>
        have hne := lookup_eq_none_iff.mp hfound e.entry (mem_reverse.mpr (mem_map.mpr ⟨e, he, rfl⟩))
        simp [Emission.entry] at hne
      | some block =>
        obtain ⟨before, after, hsplit, -⟩ := lookup_eq_some_iff.mp hfound
        have hmem : (e.source, block) ∈ (log.map Emission.entry).reverse := by simp [hsplit]
        obtain ⟨e', he', hentry⟩ := mem_map.mp (mem_reverse.mp hmem)
        obtain ⟨hsource, rfl⟩ := Prod.mk.inj hentry
        have hcode : e'.code = e.code := Option.some_inj.mp ((hblocks he').symm.trans (hsource ▸ hblocks he))
        obtain rfl := hlog.logged.eq_of_operand he' he (hcode ▸ hi) hi hop hop hid hid
        rfl
    rw [hlog.placed, lookup_append, hlookup]
    rfl
  · obtain ⟨hmade, -, hlater⟩ := hlog.logged.made e he
    exact Nat.lt_of_lt_of_le (hlog.block_lt h.isOpen.lt he)
      (Nat.le_trans (Structure.walksOn_of_emitBody hmade.emit).continues.size hlater.continues.size)
  · rw [Tour.log_eq hlog]
    exact hlog.head?_sourcesIn h.isOpen.lt he hbefore

/-! ### Which blocks are asked -/

theorem Function.lt_of_mem_preds {f : Function} {b p : BlockId} (h : p ∈ f.preds b) : b < f.blocks.size := by
  by_contra hge
  simp [Function.preds, Array.getElem?_eq_none (Nat.not_lt.mp hge)] at h

theorem Tour.Sound.pred_lt (h : t.Sound) {b p : BlockId} (hp : p ∈ t.arranged.function.preds b) :
    p < t.arranged.function.blocks.size := by
  have hedge := (h.mem_edges (Function.lt_of_mem_preds hp)).mp hp
  exact (h.mem_blocks_iff (.refl _)).mp (Region.mem_blocks_of_mem_edges hedge).1

section Asked

variable {arrives : BlockId → Nat → Prop} {pairs : List (Id × Id)} {block b p : BlockId}
  (h : t.ArrivesBy arrives) (hpairs : Code.phiPairs x.2 = .ok pairs) (hlists : t.finish.ListsBranches x)
include h hpairs hlists

theorem Tour.ArrivesBy.listed_or_arrives (hp : p ∈ t.arranged.function.preds b) (hb : arrives b x.1)
    (hleads : t.LeadsOn p) :
    (∃ value, t.arranged.listed? pairs p = some value) ∨ t.finish.ends.lookup p = none ∧ arrives p x.1 := by
  obtain ⟨s, hs, hpasses⟩ := h.preds b (Function.lt_of_mem_preds hp) p hp hleads.1
  obtain rfl := h.unique b s x.1 hs hb
  refine hpasses.imp_left ?_
  rintro ⟨s, hend, hbranch⟩
  obtain ⟨code, value, hcode, hvalue⟩ := hlists.exists_listed hpairs hbranch
  exact ⟨value, Context.listed?_eq_some.mpr ⟨s, code, hend, hcode, hvalue⟩⟩

variable (hblock : arrives block x.1) (hleads : ∀ b, Asked t.arranged pairs block b → t.LeadsOn b)
include hblock hleads

theorem Tour.ArrivesBy.exists_arrives (hp : Asked t.arranged pairs block p) :
    ∃ b, p ∈ t.arranged.function.preds b ∧ arrives b x.1 := by
  induction hp with
  | pred hp => exact ⟨block, hp, hblock⟩
  | @back p q hq hlisted hp ih =>
    obtain ⟨b, hqb, hb⟩ := ih
    rcases h.listed_or_arrives hpairs hlists hqb hb (hleads q hq) with ⟨value, hvalue⟩ | ⟨-, harrives⟩
    · cases hlisted.symm.trans hvalue
    · exact ⟨q, hp, harrives⟩

theorem Tour.Sound.answers (hsound : t.Sound) (hvalues : t.finish.KnowsValues x.2) :
    Answers t.arranged pairs block where
  lt := by
    intro p hp
    obtain ⟨b, hpb, -⟩ := h.exists_arrives hpairs hlists hblock hleads hp
    exact hsound.pred_lt hpb
  value := by
    intro p _ value hvalue
    obtain ⟨s, code, -, -, hlisted⟩ := Context.listed?_eq_some.mp hvalue
    obtain ⟨pair, hfind, rfl⟩ := Option.map_eq_some_iff.mp hlisted
    exact hvalues pairs (toOption_eq_some.mpr hpairs) pair (mem_of_find?_eq_some hfind)
  preds := by
    intro p hp hlisted
    obtain ⟨b, hpb, hb⟩ := h.exists_arrives hpairs hlists hblock hleads hp
    rcases h.listed_or_arrives hpairs hlists hpb hb (hleads p hp) with ⟨value, hvalue⟩ | ⟨hend, -⟩
    · cases hlisted.symm.trans hvalue
    · exact (hleads p hp).2 hend

end Asked

theorem Tour.Sound.resolvable (h : t.Sound) (hnamed : t.finish.PhisNamed t.source)
    (hx : x ∈ phisOf t.finish t.source) (hlists : t.finish.ListsBranches x)
    (hvalues : t.finish.KnowsValues x.2) (hpassable : t.Passable x) : Resolvable t.arranged x.1 x.2 where
  named := by
    have hok := (hnamed x hx).1
    cases hid : x.2.operand 1 with
    | error e => simp [hid, Except.isOk, Except.toBool] at hok
    | ok id => exact ⟨id, rfl⟩
  pending := by
    intro id tree hid hp
    obtain ⟨arrives, harrives⟩ := h.exists_arrivesBy
    obtain ⟨block, hplaced, hlt, hwaits, hhead⟩ := h.placed_of_pending hnamed hx hid hp
    obtain ⟨typeId, v, spot, d, d', htypeId, hv, htree, htypes⟩ := hwaits.typed
    obtain ⟨pairs, hpairs⟩ := hwaits.pairs
    have hin : block < t.arranged.function.blocks.size := by
      rwa [Tour.arranged, Context.withFunction, Function.withFlow_size]
    have hblock : arrives block x.1 := harrives.first block hin x.1 hhead
    refine ⟨typeId, v, pairs, block, htypeId, hv, hpairs, hplaced, hin, ?_, fun spot d hd => ?_⟩
    · exact h.answers harrives hpairs hlists hblock (hpassable pairs hpairs block hplaced) hvalues
    · obtain ⟨t', d', htree'⟩ := Code.exists_phiTree htree (htypes.trans hd)
      exact ⟨t', d', htree'⟩

/-- After the walk of a function whose phis have ids of their own, list all blocks that branch to theirs
and list ids with values, the sources of the phis can be filled in, provided that runs can pass through the
blocks that are asked for the values of the phis. -/
theorem phis_resolved {options : Options} {words : List Word} {index : Nat}
    (htour : tour? options words index = some t) (hnamed : t.finish.PhisNamed t.source)
    (hlists : ∀ x ∈ phisOf t.finish t.source, t.finish.ListsBranches x)
    (hvalues : ∀ x ∈ phisOf t.finish t.source, t.finish.KnowsValues x.2)
    (hpassable : ∀ x ∈ phisOf t.finish t.source, t.Passable x) :
    ∃ d, PhiSources.resolveAll t.source t.arranged = .ok () d := by
  have hsound := sound_of_tour? htour
  obtain ⟨c, -, hof⟩ := exists_outline htour
  have hg := (hof.carries.trans hsound.carries).grounded hof.grounded
  exact PhiSources.exists_resolveAll ⟨hg.ids, hg.children, hg.shaped⟩ fun x hx =>
    hsound.resolvable hnamed hx (hlists x hx) (hvalues x hx) (hpassable x hx)

theorem PhiSources.Asked.exists_pred {c : Context} {pairs : List (Id × Id)} {block p : BlockId}
    (h : Asked c pairs block p) : ∃ b, p ∈ c.function.preds b := by
  cases h with
  | pred hp => exact ⟨block, hp⟩
  | @back _ q _ _ hp => exact ⟨q, hp⟩

/-- A loop with phis at its head, where its arms come together and behind it. One arm of the selection in
it returns and the other may leave the loop. -/
def returnInLoop : List Word := [0x07230203, 99, 0, 22, 0,
   0x00020013, 1, 0x00020014, 2, 0x00040015, 3, 32, 1, 0x00030021, 4, 1, 0x00030029, 2, 5,
   0x0004002b, 3, 6, 7, 0x0004002b, 3, 20, 8,
   0x00050036, 1, 7, 0, 4,
   0x000200f8, 8, 0x000200f9, 9,
   0x000200f8, 9, 0x000700f5, 3, 10, 6, 8, 11, 15, 0x000400f6, 16, 15, 0, 0x000200f9, 12,
   0x000200f8, 12, 0x000300f7, 14, 0, 0x000400fa, 5, 13, 17,
   0x000200f8, 13, 0x000100fd,
   0x000200f8, 17, 0x000400fa, 5, 16, 14,
   0x000200f8, 14, 0x000500f5, 3, 11, 20, 17, 0x000200f9, 15,
   0x000200f8, 15, 0x000200f9, 9,
   0x000200f8, 16, 0x000500f5, 3, 18, 10, 17, 0x000100fd, 0x00010038]

theorem phis_resolved_returnInLoop : ∃ t d, tour? {} returnInLoop 0 = some t ∧ t.finish.PhisNamed t.source ∧
      (∀ x ∈ phisOf t.finish t.source, t.finish.ListsBranches x ∧ t.finish.KnowsValues x.2) ∧
      (phisOf t.finish t.source).length = 3 ∧
      PhiSources.resolveAll t.source t.arranged = .ok () d := by
  obtain ⟨t, htour⟩ := Option.isSome_iff_exists.mp (show (tour? {} returnInLoop 0).isSome by decide +kernel)
  have h : ∀ t ∈ tour? {} returnInLoop 0, t.finish.PhisNamed t.source ∧
      (∀ x ∈ phisOf t.finish t.source, t.finish.ListsBranches x ∧ t.finish.KnowsValues x.2) ∧
      (phisOf t.finish t.source).length = 3 ∧
      ∀ b < t.arranged.function.blocks.size, ∀ p ∈ t.arranged.function.preds b, t.LeadsOn p := by
    decide +kernel
  obtain ⟨hnamed, hlists, hlength, hleads⟩ := h t htour
  obtain ⟨d, hd⟩ := phis_resolved htour hnamed (fun x hx => (hlists x hx).1) (fun x hx => (hlists x hx).2)
    fun x _ pairs _ block _ p hp => by
      obtain ⟨b, hb⟩ := hp.exists_pred
      exact hleads b (Function.lt_of_mem_preds hb) p hb
  exact ⟨t, d, htour, hnamed, hlists, hlength, hd⟩

/-- The error with which filling in the phis of a function fails. -/
def PhiSources.failure? (f : SourceFunction) (c : Context) : Option Error :=
  match resolveAll f c with
  | .ok .. => none
  | .error e _ => some e

theorem PhiSources.exists_of_failure? {f : SourceFunction} {c : Context} {e : Error}
    (h : failure? f c = some e) : ∃ c', resolveAll f c = .error e c' := by
  unfold failure? at h
  grind

/-- A selection one arm of which drops the fragment. The phi where the arms come together lists the other
arm, the only block that branches there. -/
def droppedArm : List Word := [0x07230203, 99, 0, 13, 0,
   0x00020013, 1, 0x00020014, 2, 0x00040015, 3, 32, 1, 0x00030021, 4, 1, 0x00030029, 2, 5,
   0x0004002b, 3, 6, 7,
   0x00050036, 1, 7, 0, 4,
   0x000200f8, 8, 0x000300f7, 11, 0, 0x000400fa, 5, 9, 10,
   0x000200f8, 9, 0x000100fc,
   0x000200f8, 10, 0x000200f9, 11,
   0x000200f8, 11, 0x000500f5, 3, 12, 6, 10, 0x000100fd, 0x00010038]

/-- The block that drops the fragment counts as leading to where the arms come together, and no value can be
had there. -/
theorem droppedArm_unresolved : ∃ t c, tour? {} droppedArm 0 = some t ∧ t.finish.PhisNamed t.source ∧
      (∀ x ∈ phisOf t.finish t.source, t.finish.ListsBranches x ∧ t.finish.KnowsValues x.2 ∧
        ∀ pairs ∈ (Code.phiPairs x.2).toOption, (pairs.map (·.2)).Nodup) ∧
      PhiSources.resolveAll t.source t.arranged = .error (.meaningless .phiUnavailable) c := by
  obtain ⟨t, htour⟩ := Option.isSome_iff_exists.mp (show (tour? {} droppedArm 0).isSome by decide +kernel)
  have h : ∀ t ∈ tour? {} droppedArm 0, t.finish.PhisNamed t.source ∧
      (∀ x ∈ phisOf t.finish t.source, t.finish.ListsBranches x ∧ t.finish.KnowsValues x.2 ∧
        ∀ pairs ∈ (Code.phiPairs x.2).toOption, (pairs.map (·.2)).Nodup) ∧
      (PhiSources.failure? t.source t.arranged) = some (.meaningless .phiUnavailable) := by
    decide +kernel
  obtain ⟨hnamed, hlists, hfailure⟩ := h t htour
  obtain ⟨c, hc⟩ := PhiSources.exists_of_failure? hfailure
  exact ⟨t, c, htour, hnamed, hlists, hc⟩

end ShaderIR.Spirv
