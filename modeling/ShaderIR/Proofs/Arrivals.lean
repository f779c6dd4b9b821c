import Mathlib.Data.List.Nodup
import ShaderIR.Proofs.Enclosure
import ShaderIR.Proofs.Validity

/-!
# Where control arrives

Control that enters a block of a finished function is about to carry on from a block of the stream: the
one whose code the block holds first, or the one that a block without code passes it on to. An edge leads
from a block to one where control arrives at the same block of the stream, or from a block that control
leaves as a block of the stream that branches there. Edges out of blocks where a run ends are the
exception.
-/

namespace ShaderIR

open List

theorem Region.blocks_eq (r : Region) : r.blocks = r.head :: r.blocks.tail := by
  cases r <;> rfl

theorem Region.mem_blocks_of_mem_edges {jump : BlockId → Option Jump} {loop : Option LoopScope}
    {follow : Option BlockId} {r : Region} {e : BlockId × BlockId} (he : e ∈ r.edges jump loop follow) :
    e.1 ∈ r.blocks ∧ jump e.1 ≠ some .return := by
  have hhere {b : BlockId} {loop : Option LoopScope} {next : List BlockId}
      (he : e ∈ (targets (jump b) loop next).map (b, ·)) : e.1 = b ∧ jump e.1 ≠ some .return := by
    obtain ⟨q, hq, rfl⟩ := mem_map.mp he
    refine ⟨rfl, fun hjump => ?_⟩
    rw [hjump] at hq
    cases hq
  induction r generalizing loop follow with
  | last b =>
    obtain ⟨rfl, hjump⟩ := hhere he
    exact ⟨mem_singleton_self _, hjump⟩
  | cond _ _ _ _ _ _ ihtrue ihfalse ihrest =>
    simp only [edges, mem_append] at he
    simp only [blocks, mem_cons, mem_append]
    grind
  | loop _ _ _ _ ihbody ihrest =>
    simp only [edges, mem_append] at he
    simp only [blocks, mem_cons, mem_append]
    grind

/-- A run that enters a block drops the fragment there. -/
def Function.Drops (f : Function) (b : BlockId) : Prop := ∃ r ∈ f.code b, f.instructions[r]? = some .discard

instance (f : Function) (b : BlockId) : Decidable (f.Drops b) := inferInstanceAs (Decidable (∃ r ∈ _, _))

theorem Function.LeavesLast.drops {f : Function} {b : BlockId} (h : f.LeavesLast)
    (hexit : f.exit? b = some .return) (hjump : f.jump? b ≠ some .return) : f.Drops b := by
  obtain ⟨r, hr, hat⟩ := exists_of_findSome?_eq_some hexit
  obtain ⟨i, hi, hexit⟩ := Option.bind_eq_some_iff.mp hat
  cases i with
  | discard => exact ⟨r, hr, hi⟩
  | jump j =>
    obtain rfl := Option.some_inj.mp hexit
    refine (hjump ?_).elim
    have hne := ne_nil_of_mem hr
    rw [← dropLast_concat_getLast hne, mem_append, mem_singleton] at hr
    rcases hr with hr | rfl
    · cases (h b r hr).symm.trans hat
    · rw [jump?_eq, getLast?_eq_some_getLast hne, Option.bind_some, hi]
      rfl
  | _ => cases hexit

namespace Spirv

/-! ### Branches -/

namespace Chart

variable {v : Chart} {s t onTrue onFalse : Nat} {condition : Id}

theorem Branches.branches (h : v.Branches s t) : v.context.Branches s t := by
  obtain ⟨code, label, hcode, hop, hlabel, htarget⟩ := h
  refine ⟨code, hcode, Context.mem_branchTargets.mpr ⟨label, ?_, htarget⟩⟩
  simp [SourceBlock.branchLabels, hop, hlabel, Except.toOption]

theorem Forks.branches (h : v.Forks s condition onTrue onFalse) :
    v.context.Branches s onTrue ∧ v.context.Branches s onFalse := by
  obtain ⟨code, trueLabel, falseLabel, hcode, hop, -, htrueLabel, honTrue, hfalseLabel, honFalse⟩ := h
  refine ⟨⟨code, hcode, Context.mem_branchTargets.mpr ⟨trueLabel, ?_, honTrue⟩⟩,
    code, hcode, Context.mem_branchTargets.mpr ⟨falseLabel, ?_, honFalse⟩⟩
  · simp [SourceBlock.branchLabels, hop, htrueLabel, Except.toOption]
  · simp [SourceBlock.branchLabels, hop, hfalseLabel, Except.toOption]

/-- Control leaves a block on its way to a block of the stream: as a block that branches there, or as none
if it arrives there already where it enters. -/
def Passes (v : Chart) (arrives : BlockId → Nat → Prop) (b : BlockId) (t : Nat) : Prop :=
  (∃ s, v.end? b = some s ∧ v.context.Branches s t) ∨ v.end? b = none ∧ arrives b t

end Chart

/-- Where control arrives that leaves a region: behind it, behind the loop around it, or at the start of the
loop. -/
structure Surrounds (arrives : BlockId → Nat → Prop) (scope : Scope) (loop : Option LoopScope)
    (follow : Option BlockId) : Prop where
  stop : ∀ t, scope.stop = some t → ∀ b ∈ follow, arrives b t
  breakTo : ∀ t, scope.breakTo = some t → ∀ l ∈ loop, arrives l.after t
  continueTo : ∀ t, scope.continueTo = some t → ∀ l ∈ loop, arrives l.head t

/-- What is still to come in the first block of a region: nothing if control passes on to a block of the
stream, and otherwise the last of it is what control leaves the block as. -/
structure Chart.Ends (v : Chart) (arrives : BlockId → Nat → Prop) (b : BlockId) (t : Nat)
    (chain : List Nat) : Prop where
  passes : chain = [] → v.Passes arrives b t
  last : ∀ s ∈ chain.getLast?, v.end? b = some s

namespace Chart.Ends

variable {v : Chart} {arrives : BlockId → Nat → Prop} {b : BlockId} {t : Nat}

theorem of_marked (h : v.Marked none b) (ht : arrives b t) : v.Ends arrives b t (sourcesIn v.log b) where
  passes := fun hnil => .inr ⟨by rw [h, hnil]; rfl, ht⟩
  last := fun s hs => by rw [h, Option.mem_def.mp hs]; rfl

theorem of_marked_some {s : Nat} (h : v.Marked (some s) b) (hbranch : v.context.Branches s t) :
    v.Ends arrives b t (sourcesIn v.log b) where
  passes := fun hnil => .inl ⟨s, by rw [h, hnil]; rfl, hbranch⟩
  last := fun s hs => by rw [h, Option.mem_def.mp hs]; rfl

theorem branch {s : Nat} {chain : List Nat} (h : v.Ends arrives b s (s :: chain))
    (hbranch : v.context.Branches s t) : v.Ends arrives b t chain where
  passes := by
    rintro rfl
    exact .inl ⟨s, h.last s rfl, hbranch⟩
  last := fun s' hs' => h.last s' (by simp [getLast?_cons, Option.mem_def.mp hs'])

end Chart.Ends

/-! ### Edges -/

/-- Edges lead on towards where control arrives, unless a run ends in the block they come from. -/
def Chart.EdgesLead (v : Chart) (arrives : BlockId → Nat → Prop) (edges : List (BlockId × BlockId)) : Prop :=
  ∀ e ∈ edges, v.function.exit? e.1 ≠ some .return → ∃ t, arrives e.2 t ∧ v.Passes arrives e.1 t

namespace Chart.EdgesLead

variable {v : Chart} {arrives : BlockId → Nat → Prop} {edges edges' : List (BlockId × BlockId)}

theorem append (h : v.EdgesLead arrives edges) (h' : v.EdgesLead arrives edges') :
    v.EdgesLead arrives (edges ++ edges') := by
  intro e he
  rcases mem_append.mp he with he | he
  · exact h e he
  · exact h' e he

theorem of_targets {b : BlockId} {targets : List BlockId}
    (h : ∀ q ∈ targets, ∃ t, arrives q t ∧ v.Passes arrives b t) :
    v.EdgesLead arrives (targets.map (b, ·)) := by
  intro e he _
  obtain ⟨q, hq, rfl⟩ := mem_map.mp he
  exact h q hq

end Chart.EdgesLead

variable {v : Chart} {scope : Scope} {s : Nat} {chain : List Nat} {region : Region}

/-- Where control arrives in the blocks of a region besides the first. -/
structure Laid.Arrivals (v : Chart) (scope : Scope) (s : Nat) (chain : List Nat) (region : Region)
    (arrivals : List (BlockId × Nat)) : Prop where
  blocks : arrivals.map (·.1) = region.blocks.tail
  first : ∀ a ∈ arrivals, ∀ t ∈ (sourcesIn v.log a.1).head?, t = a.2
  edges : ∀ (arrives : BlockId → Nat → Prop) (loop : Option LoopScope) (follow : Option BlockId),
    (∀ a ∈ arrivals, arrives a.1 a.2) → Surrounds arrives scope loop follow →
      v.Ends arrives region.head s chain → v.EdgesLead arrives (region.edges v.function.jump? loop follow)

theorem Laid.exists_arrivals (h : Laid v scope s chain region) (hlast : v.function.LeavesLast) :
    ∃ arrivals, Laid.Arrivals v scope s chain region arrivals := by
  induction h with
  | @stop _ s _ hstop hexit =>
    refine ⟨[], rfl, by simp, fun arrives loop follow _ hsurrounds hends => ?_⟩
    rw [Region.edges, Function.jump?_eq_none hexit]
    refine .of_targets fun q hq => ⟨s, ?_, hends.passes rfl⟩
    exact hsurrounds.stop s hstop q (Option.mem_toList.mp hq)
  | @jump _ s _ j hjump hexit =>
    refine ⟨[], rfl, by simp, fun arrives loop follow _ hsurrounds hends => ?_⟩
    have hne : j ≠ .return := fun heq => Scope.jump?_ne_return (heq ▸ hjump)
    rw [Region.edges, hlast.tidy.jump?_eq hexit hne]
    refine .of_targets fun q hq => ⟨s, ?_, hends.passes rfl⟩
    cases j with
    | «break» =>
      obtain ⟨l, hl, rfl⟩ := Option.map_eq_some_iff.mp (Option.mem_toList.mp hq)
      exact hsurrounds.breakTo s (Scope.jump?_break hjump) l hl
    | «continue» =>
      obtain ⟨l, hl, rfl⟩ := Option.map_eq_some_iff.mp (Option.mem_toList.mp hq)
      exact hsurrounds.continueTo s (Scope.jump?_continue hjump) l hl
    | «return» => exact (hne rfl).elim
  | @branch _ _ _ _ _ hbranch _ ih =>
    obtain ⟨arrivals, hblocks, hfirst, hedges⟩ := ih
    exact ⟨arrivals, hblocks, hfirst, fun arrives loop follow harrives hsurrounds hends =>
      hedges arrives loop follow harrives hsurrounds (hends.branch hbranch.branches)⟩
  | @leave _ _ _ _ hexit =>
    refine ⟨[], rfl, by simp, fun arrives loop follow _ _ _ e he hne => ?_⟩
    obtain ⟨q, -, rfl⟩ := mem_map.mp he
    exact (hne hexit).elim
  | @cond scope s b _ _ _ onTrue onFalse m trueArm falseArm rest hfork hexit _ hmarkTrue
      hmarkFalse hmark htrue hfalse hrest ihtrue ihfalse ihrest =>
    obtain ⟨trueArrivals, htrueBlocks, htrueFirst, htrueEdges⟩ := ihtrue
    obtain ⟨falseArrivals, hfalseBlocks, hfalseFirst, hfalseEdges⟩ := ihfalse
    obtain ⟨restArrivals, hrestBlocks, hrestFirst, hrestEdges⟩ := ihrest
    refine ⟨(trueArm.head, onTrue) :: trueArrivals ++ (falseArm.head, onFalse) :: falseArrivals ++
      (rest.head, m) :: restArrivals, ?_, ?_, fun arrives loop follow harrives hsurrounds hends => ?_⟩
    · simp only [map_append, map_cons, htrueBlocks, hfalseBlocks, hrestBlocks,
        ← Region.blocks_eq, Region.blocks, tail_cons]
    · intro a ha
      simp only [mem_append, mem_cons] at ha
      rcases ha with (((rfl | ha) | rfl | ha) | rfl | ha)
      · exact fun t ht => htrue.head_eq ht
      · exact htrueFirst a ha
      · exact fun t ht => hfalse.head_eq ht
      · exact hfalseFirst a ha
      · exact fun t ht => hrest.head_eq ht
      · exact hrestFirst a ha
    · simp only [mem_append, mem_cons] at harrives
      have honTrue : arrives trueArm.head onTrue := harrives _ (.inl (.inl (.inl rfl)))
      have honFalse : arrives falseArm.head onFalse := harrives _ (.inl (.inr (.inl rfl)))
      have hm : arrives rest.head m := harrives _ (.inr (.inl rfl))
      have hend : v.end? b = some s := hends.last s rfl
      have harms : Surrounds arrives { scope with stop := some m } loop (some rest.head) := by
        refine ⟨fun t ht q hq => ?_, hsurrounds.breakTo, hsurrounds.continueTo⟩
        cases ht
        cases hq
        exact hm
      rw [Region.edges, Function.jump?_eq_none hexit]
      refine .append (.append (.append (.of_targets fun q hq => ?_) ?_) ?_) ?_
      · simp only [targets, mem_cons, not_mem_nil, or_false] at hq
        rcases hq with rfl | rfl
        · exact ⟨onTrue, honTrue, .inl ⟨s, hend, hfork.branches.1⟩⟩
        · exact ⟨onFalse, honFalse, .inl ⟨s, hend, hfork.branches.2⟩⟩
      · exact htrueEdges arrives loop _ (fun a ha => harrives a (.inl (.inl (.inr ha)))) harms
          (.of_marked_some hmarkTrue hfork.branches.1)
      · exact hfalseEdges arrives loop _ (fun a ha => harrives a (.inl (.inr (.inr ha)))) harms
          (.of_marked_some hmarkFalse hfork.branches.2)
      · exact hrestEdges arrives loop follow (fun a ha => harrives a (.inr (.inr ha))) hsurrounds
          (.of_marked hmark hm)
  | @loop _ s _ _ m body rest hexit hmarkBody hmark hbody hrest ihbody ihrest =>
    obtain ⟨bodyArrivals, hbodyBlocks, hbodyFirst, hbodyEdges⟩ := ihbody
    obtain ⟨restArrivals, hrestBlocks, hrestFirst, hrestEdges⟩ := ihrest
    refine ⟨(body.head, s) :: bodyArrivals ++ (rest.head, m) :: restArrivals, ?_, ?_,
      fun arrives loop follow harrives hsurrounds hends => ?_⟩
    · simp only [map_append, map_cons, hbodyBlocks, hrestBlocks, ← Region.blocks_eq, Region.blocks, tail_cons]
    · intro a ha
      simp only [mem_append, mem_cons] at ha
      rcases ha with ((rfl | ha) | rfl | ha)
      · exact fun t ht => hbody.head_eq ht
      · exact hbodyFirst a ha
      · exact fun t ht => hrest.head_eq ht
      · exact hrestFirst a ha
    · simp only [mem_append, mem_cons] at harrives
      have hs : arrives body.head s := harrives _ (.inl (.inl rfl))
      have hm : arrives rest.head m := harrives _ (.inr (.inl rfl))
      have hinside : Surrounds arrives { breakTo := some m, continueTo := some s }
          (some ⟨body.head, rest.head⟩) (some body.head) := by
        refine ⟨by simp, fun t ht l hl => ?_, fun t ht l hl => ?_⟩
        · cases ht
          cases hl
          exact hm
        · cases ht
          cases hl
          exact hs
      rw [Region.edges, Function.jump?_eq_none hexit]
      refine .append (.append (.of_targets fun q hq => ?_) ?_) ?_
      · obtain rfl := mem_singleton.mp hq
        exact ⟨s, hs, hends.passes rfl⟩
      · exact hbodyEdges arrives _ _ (fun a ha => harrives a (.inl (.inr ha))) hinside (.of_marked hmarkBody hs)
      · exact hrestEdges arrives loop follow (fun a ha => harrives a (.inr (.inr ha))) hsurrounds
          (.of_marked hmark hm)

/-! ### Finished functions -/

theorem Structure.Walks.nodup_blocks {block : BlockId} {source : Nat} {before : Option Nat} {scope : Scope}
    {c c' : Context} {region : Region} {log : List Emission}
    (h : Walks block source before scope c region c' log) (hblock : block < c.function.blocks.size) :
    region.blocks.Nodup := by
  induction h with
  | stop | jump | leave | returnValue => exact nodup_singleton _
  | branch _ _ hemit _ _ _ _ _ ih => exact ih (by rwa [size_of_emitBody hemit])
  | loop _ _ _ _ hbody hrest ihbody ihrest =>
    have hsizes := sizes_of_loop hbody.builds hrest.builds
    simp only [Region.blocks, nodup_cons, nodup_append', mem_append, List.Disjoint,
      hbody.mem_blocks_iff, hrest.mem_blocks_iff, Context.size_openLoop_reported]
    grind
  | cond _ _ hemit _ hcondition _ _ _ _ _ _ htrueArm hfalseArm hrest ihtrue ihfalse ihrest =>
    have hsizes := sizes_of_cond hemit hcondition htrueArm.builds hfalseArm.builds hrest.builds
    simp only [Region.blocks, nodup_cons, nodup_append', mem_append, List.Disjoint,
      htrueArm.mem_blocks_iff, hfalseArm.mem_blocks_iff, hrest.mem_blocks_iff, Context.size_openConditional]
    grind

/-- Where control arrives when it enters the blocks of a function: at one block of the stream for each,
which is the first of those whose code the block holds. A block that leads to another passes control on to
where it arrives there, unless a run drops the fragment in the block. -/
structure Tour.ArrivesBy (t : Tour) (arrives : BlockId → Nat → Prop) : Prop where
  unique : ∀ b s s', arrives b s → arrives b s' → s = s'
  first : ∀ b < t.arranged.function.blocks.size, ∀ s ∈ (sourcesIn t.log b).head?, arrives b s
  preds : ∀ b < t.arranged.function.blocks.size, ∀ p ∈ t.arranged.function.preds b,
    ¬t.arranged.function.Drops p → ∃ s, arrives b s ∧ (t.chart t.arranged.function).Passes arrives p s

theorem Tour.Sound.mem_edges {t : Tour} (h : t.Sound) {b p : BlockId} (hb : b < t.arranged.function.blocks.size) :
    p ∈ t.arranged.function.preds b ↔ (p, b) ∈ t.arranged.function.edges := by
  rw [← (Function.preds_withFlow_spec hb).1 p, (h.isStructured (.refl _)).current]

theorem Tour.Sound.exists_arrivesBy {t : Tour} (h : t.Sound) : ∃ arrives, t.ArrivesBy arrives := by
  have hs := PhiSources.Settles.refl t.arranged
  have hlast : t.arranged.function.LeavesLast := by
    intro b r hr
    rw [t.code_arranged] at hr
    exact h.leavesLast b r hr
  obtain ⟨arrivals, hblocks, hfirst, hedges⟩ := (h.laid hs).exists_arrivals hlast
  let all : List (BlockId × Nat) := (t.arranged.function.body.head, t.entry) :: arrivals
  have hall : all.map (·.1) = t.arranged.function.body.blocks := by
    rw [map_cons, hblocks, ← Region.blocks_eq]
  have hnodup : (all.map (·.1)).Nodup := by
    obtain ⟨log, hwalks⟩ := h.walks
    rw [hall]
    exact hwalks.nodup_blocks h.isOpen.lt
  refine ⟨fun b s => (b, s) ∈ all, fun b s s' hs hs' => ?_, fun b hb s hhead => ?_, fun b hb p hp hdrops => ?_⟩
  · exact congrArg Prod.snd (inj_on_of_nodup_map hnodup hs hs' rfl)
  · have hmem : b ∈ all.map (·.1) := by rwa [hall, h.mem_blocks_iff hs]
    obtain ⟨⟨b', s'⟩, ha, rfl⟩ := mem_map.mp hmem
    suffices s = s' from this ▸ ha
    rcases mem_cons.mp ha with hentry | ha
    · cases hentry
      exact (h.laid hs).head_eq hhead
    · exact hfirst _ ha s hhead
  · obtain ⟨mark, hmark, hnone⟩ := (h.arrives hs).marked
    obtain rfl : mark = none := hnone.elim id id
    have hlead := hedges (fun b s => (b, s) ∈ all) none none (fun a ha => mem_cons_of_mem _ ha)
      ⟨nofun, nofun, nofun⟩ (.of_marked hmark (mem_cons_self ..))
    have hedge := (h.mem_edges hb).mp hp
    exact hlead (p, b) hedge fun hexit =>
      hdrops (hlast.drops hexit (Region.mem_blocks_of_mem_edges hedge).2)

end Spirv

end ShaderIR
