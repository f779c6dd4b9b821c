import Mathlib.Data.List.Chain
import ShaderIR.Proofs.Layout
import ShaderIR.Proofs.Run

/-!
# The path that a run takes

A run of a finished function passes the blocks of the stream in the order in which their branches
lead from one to the next. The blocks that a run enters hold chains of blocks of the stream; what is
left to do when a run is somewhere in the region always carries on from the block of the stream at
which the branches have arrived.
-/

namespace ShaderIR.Spirv

open EStateM List

/-- A block of the stream that a run passes. -/
structure Passage where
  source : Nat
  /-- The state in which control leaves the block that holds the code. -/
  left : RunState

namespace Chart

/-- The blocks of the stream that are passed on some visits, in order. -/
def passages (v : Chart) (visits : List Visit) : List Passage :=
  visits.flatMap fun visit => (sourcesIn v.log visit.block).map (⟨·, visit.left⟩)

@[simp] theorem passages_nil (v : Chart) : v.passages [] = [] := rfl

theorem passages_cons (v : Chart) (visit : Visit) (visits : List Visit) : v.passages (visit :: visits) =
      (sourcesIn v.log visit.block).map (⟨·, visit.left⟩) ++ v.passages visits := rfl

/-- The lanes of an id that stands for a single register or a flat constant. -/
def lanes? (v : Chart) (s : RunState) (id : Id) : Option Lanes :=
  match v.context.ids.get id with
  | .ok (.tree (.leaf _ _ r)) => (s.registers[r]?).join
  | .ok (.constant k) =>
    match (v.context.constantAt k).value with
    | .flat bits => some (.ofWords bits)
    | .composite _ => none
  | _ => none

/-- The branch that ends one block of the stream leads to another. -/
inductive Goes (v : Chart) (p q : Passage) : Prop
  | branch (h : v.Branches p.source q.source)
  | fork {condition onTrue onFalse lanes} (h : v.Forks p.source condition onTrue onFalse)
      (hlanes : v.lanes? p.left condition = some lanes)
      (hq : q.source = if lanes.x ≠ 0 then onTrue else onFalse)

/-- Branches lead from a block of the stream through a chain of others, and arrive behind it in the
state in which control leaves the chain. -/
inductive Leads (v : Chart) (left : RunState) : Nat → List Nat → Nat → Prop
  | here {s} : Leads v left s [] s
  | branch {s t chain s'} (h : v.Branches s t) (hrest : Leads v left t chain s') :
      Leads v left s (s :: chain) s'
  | fork {s condition onTrue onFalse lanes} (h : v.Forks s condition onTrue onFalse)
      (hlanes : v.lanes? left condition = some lanes) :
      Leads v left s [s] (if lanes.x ≠ 0 then onTrue else onFalse)

variable {v : Chart} {left : RunState} {s s' t : Nat} {chain : List Nat}

theorem Leads.head_eq (h : v.Leads left s chain s') (ht : t ∈ (chain ++ [s']).head?) : t = s := by
  cases h with
  | here => simpa using ht.symm
  | branch => simpa using ht.symm
  | fork => simpa using ht.symm

theorem Leads.isChain (h : v.Leads left s chain s') {q : Passage} (hq : q.source = s') :
    (chain.map (Passage.mk · left) ++ [q]).IsChain v.Goes := by
  induction h with
  | here => exact .singleton q
  | fork h hlanes => exact isChain_pair.mpr (.fork h hlanes hq)
  | @branch _ _ chain s' _ hrest ih =>
    rw [map_cons, cons_append]
    refine (ih hq).cons fun y hy => .branch ?_
    have hy' : y.source ∈ (chain ++ [s']).head? := by
      cases chain <;> simp_all [eq_comm]
    rwa [hrest.head_eq hy']

end Chart

variable {v : Chart} {scope : Scope} {s : Nat} {chain : List Nat} {region : Region}

/-- What is pending behind a region carries on where branches out of the region go. -/
inductive StackLaid (v : Chart) : Scope → List Pending → Prop
  | nil : StackLaid v {} []
  | resume {scope m rest stack} (hrest : Laid v scope m (sourcesIn v.log rest.head) rest)
      (hmark : v.Marked none rest.head) (hstack : StackLaid v scope stack) :
      StackLaid v { scope with stop := some m } (.resume rest :: stack)
  | again {scope s m body rest stack}
      (hbody : Laid v { breakTo := some m, continueTo := some s } s (sourcesIn v.log body.head) body)
      (hmarkBody : v.Marked none body.head)
      (hrest : Laid v scope m (sourcesIn v.log rest.head) rest) (hmark : v.Marked none rest.head)
      (hstack : StackLaid v scope stack) :
      StackLaid v { breakTo := some m, continueTo := some s } (.again body rest :: stack)

/-- A run is about to carry on from a block of the stream, after it passed `last`. -/
structure Arrives (v : Chart) (last : Option Nat) (s : Nat) (p : Position) : Prop where
  laid : ∃ scope, Laid v scope s (sourcesIn v.log p.region.head) p.region ∧ StackLaid v scope p.stack
  /-- An empty block that control leaves as a block of the stream is an arm behind that block. -/
  marked : ∃ mark, v.Marked mark p.region.head ∧ (mark = none ∨ mark = last)

/-- What is pending around the innermost loop carries on from behind the loop or from its header. -/
theorem StackLaid.innermostLoop {stack : List Pending} (h : StackLaid v scope stack) {t : Nat}
    (ht : scope.breakTo = some t ∨ scope.continueTo = some t) :
    ∃ body rest stack', innermostLoop? stack = some (body, rest, stack') ∧
      ∃ s m scope', scope.breakTo = some m ∧ scope.continueTo = some s ∧
        Laid v { breakTo := some m, continueTo := some s } s (sourcesIn v.log body.head) body ∧
        v.Marked none body.head ∧ Laid v scope' m (sourcesIn v.log rest.head) rest ∧
        v.Marked none rest.head ∧ StackLaid v scope' stack' := by
  induction h with
  | nil => rcases ht with ht | ht <;> cases ht
  | resume hrest hmark hstack ih => exact ih ht
  | again hbody hmarkBody hrest hmark hstack =>
    exact ⟨_, _, _, rfl, _, _, _, rfl, rfl, hbody, hmarkBody, hrest, hmark, hstack⟩

/-! ### One step -/

variable {left : RunState}

/-- The register that holds what an id stands for has its lanes once the block has run. -/
theorem Chart.Holds.lanes?_eq {b : BlockId} {id : Id} {r : Register} {entered : RunState}
    {jump : Option Jump} (h : v.Holds b id r) (hexit : v.function.exit? b = none)
    (hsize : entered.registers.size = v.function.instructions.size)
    (hexec : v.function.execBlock b entered = .ok jump left) :
    v.lanes? left id = (left.registers[r]?).join := by
  rcases h with ⟨key, ty, hget⟩ | ⟨k, bits, hget, hbits, hmem, hi⟩
  · simp only [lanes?, hget]
  · obtain ⟨t, t', htakes, hcarries, rfl, -⟩ := Function.execBlock_eq_ok hexec
    obtain ⟨hlt, -⟩ := Array.getElem?_eq_some_iff.mp hi
    have hr : t'.registers[r]? = some (some (.ofWords bits)) := by
      refine hcarries.loads r bits ?_ hi ?_
      · rwa [Function.upToExit_eq_self hexit]
      · rwa [htakes.size, hsize]
    simp only [lanes?, hget, hbits, hr]
    rfl

theorem Scope.jump?_break {t : Nat} (h : scope.jump? t = some .break) : scope.breakTo = some t := by
  unfold Scope.jump? at h
  grind

theorem Scope.jump?_continue {t : Nat} (h : scope.jump? t = some .continue) : scope.continueTo = some t := by
  unfold Scope.jump? at h
  grind

theorem Scope.jump?_ne_return {t : Nat} : scope.jump? t ≠ some .return := by
  unfold Scope.jump?
  grind

section

variable (h : Laid v scope s chain region)
include h

/-- Where a run goes from a block is where the branches of the chain in it lead. -/
theorem Laid.next {stack : List Pending} {q : Option Position}
    (hstack : StackLaid v scope stack)
    (hholds : ∀ id r, v.function.exit? region.head = none → v.Holds region.head id r →
      v.lanes? left id = (left.registers[r]?).join)
    (hnext : Position.next ⟨region, stack⟩ (v.function.exit? region.head) left = .ok q left) :
    (∃ p s', q = some p ∧ v.Leads left s chain s' ∧ Arrives v chain.getLast? s' p) ∨
      q = none ∧ ∃ init t, chain = init ++ [t] ∧ v.Leads left s init t ∧ v.Leaves t := by
  induction h with
  | @stop _ _ _ hstop hexit =>
    simp only [Region.head, hexit] at hnext
    cases hstack with
    | nil => cases hstop
    | again => cases hstop
    | resume hrest hmark hstack =>
      cases hstop
      obtain ⟨rfl, -⟩ := pure_eq_ok.mp hnext
      exact .inl ⟨_, _, rfl, .here, ⟨_, hrest, hstack⟩, _, hmark, .inl rfl⟩
  | @jump _ s _ j hjump hexit =>
    simp only [Region.head, hexit] at hnext
    cases j with
    | «break» =>
      obtain ⟨body, rest, stack', hloop, s₀, m, scope', hbreak, -, -, -, hrest, hmark, hstack'⟩ :=
        hstack.innermostLoop (.inl (Scope.jump?_break hjump))
      obtain rfl : m = s := Option.some_inj.mp (hbreak.symm.trans (Scope.jump?_break hjump))
      simp only [Position.next, hloop] at hnext
      obtain ⟨rfl, -⟩ := pure_eq_ok.mp hnext
      exact .inl ⟨_, _, rfl, .here, ⟨_, hrest, hstack'⟩, _, hmark, .inl rfl⟩
    | «continue» =>
      obtain ⟨body, rest, stack', hloop, s₀, m, scope', hbreak, hcontinue, hbody, hmarkBody, hrest, hmark,
        hstack'⟩ := hstack.innermostLoop (.inr (Scope.jump?_continue hjump))
      obtain rfl : s₀ = s := Option.some_inj.mp (hcontinue.symm.trans (Scope.jump?_continue hjump))
      simp only [Position.next, hloop] at hnext
      obtain ⟨rfl, -⟩ := pure_eq_ok.mp hnext
      exact .inl ⟨_, _, rfl, .here, ⟨_, hbody, .again hbody hmarkBody hrest hmark hstack'⟩, _, hmarkBody,
        .inl rfl⟩
    | «return» => exact (Scope.jump?_ne_return hjump).elim
  | @branch _ s t chain _ hbranch _ ih =>
    rcases ih hstack hholds hnext with
      ⟨p, s', hq, hleads, hlaid, mark, hmark, hlast⟩ | ⟨hq, init, t', rfl, hleads, hleaves⟩
    · refine .inl ⟨p, s', hq, .branch hbranch hleads, hlaid, mark, hmark, ?_⟩
      grind
    · exact .inr ⟨hq, s :: init, t', rfl, .branch hbranch hleads, hleaves⟩
  | @leave _ s _ hleave hexit =>
    simp only [Region.head, hexit] at hnext
    obtain ⟨rfl, -⟩ := pure_eq_ok.mp hnext
    exact .inr ⟨rfl, [], s, rfl, .here, hleave⟩
  | @cond _ _ _ _ condition r _ _ _ _ _ _ hfork hexit hcondition hmarkTrue hmarkFalse hmark htrue
      hfalse hrest =>
    have hlanes := hholds condition r hexit hcondition
    simp only [Region.head, hexit, Position.next] at hnext
    obtain ⟨lanes, t, hregister, hpure⟩ := bind_eq_ok.mp hnext
    obtain ⟨hregister, rfl⟩ := Exec.register_eq_ok.mp hregister
    obtain ⟨rfl, -⟩ := pure_eq_ok.mp hpure
    refine .inl ⟨_, _, rfl, .fork hfork (hlanes.trans hregister), ?_⟩
    by_cases hx : lanes.x ≠ 0
    · rw [if_pos hx, if_pos hx]
      exact ⟨⟨_, htrue, .resume hrest hmark hstack⟩, _, hmarkTrue, .inr rfl⟩
    · rw [if_neg hx, if_neg hx]
      exact ⟨⟨_, hfalse, .resume hrest hmark hstack⟩, _, hmarkFalse, .inr rfl⟩
  | @loop _ _ _ _ _ _ _ hexit hmarkBody hmark hbody hrest =>
    simp only [Region.head, hexit] at hnext
    obtain ⟨rfl, -⟩ := pure_eq_ok.mp hnext
    exact .inl ⟨_, _, rfl, .here, ⟨_, hbody, .again hbody hmarkBody hrest hmark hstack⟩, _, hmarkBody, .inl rfl⟩

/-! ### Whole runs -/

theorem Laid.head_eq {t : Nat} (ht : t ∈ chain.head?) : t = s := by
  cases h with
  | branch => simpa using ht.symm
  | leave => simpa using ht.symm
  | cond => simpa using ht.symm
  | _ => cases ht

theorem Laid.isChain (left : RunState) :
    (chain.map (Passage.mk · left)).IsChain v.Goes := by
  induction h with
  | @branch _ _ _ _ _ _ hrest ih =>
    rw [map_cons]
    refine ih.cons fun y hy => .branch ?_
    rw [head?_map, Option.mem_def, Option.map_eq_some_iff] at hy
    obtain ⟨t', ht', rfl⟩ := hy
    rwa [hrest.head_eq ht']
  | leave => exact .singleton _
  | cond => exact .singleton _
  | _ => exact .nil

end

theorem Chart.Leads.head?_append {s' : Nat} (h : v.Leads left s chain s') {rest : List Passage}
    (hhead : ∀ t ∈ rest.head?, t.source = s') :
    ∀ t ∈ (chain.map (Passage.mk · left) ++ rest).head?, t.source = s := by
  cases h with
  | here => exact hhead
  | branch => simp
  | fork => simp

theorem Chart.Leads.isChain_append {s' : Nat} (h : v.Leads left s chain s') {rest : List Passage}
    (hrest : rest.IsChain v.Goes) (hhead : ∀ t ∈ rest.head?, t.source = s') :
    (chain.map (Passage.mk · left) ++ rest).IsChain v.Goes := by
  cases rest with
  | nil =>
    rw [append_nil]
    exact (h.isChain (q := ⟨s', left⟩) rfl).left_of_append
  | cons t rest =>
    rw [isChain_split]
    exact ⟨h.isChain (hhead t rfl), hrest⟩

/-- From where it arrives, a run passes blocks of the stream as their branches lead, and if it comes
to its end, the last of them ends the function or drops the fragment. -/
theorem Arrives.run (limit steps : Nat) {last : Option Nat} {p : Position} {entered : RunState}
    (h : Arrives v last s p) (hsize : entered.registers.size = v.function.instructions.size) :
    (∀ t ∈ (v.passages (v.function.visits steps p entered)).head?, t.source = s) ∧
      (v.passages (v.function.visits steps p entered)).IsChain v.Goes ∧
      ∀ final, v.function.execFrom limit steps p entered = .ok () final →
        ∃ t, (v.passages (v.function.visits steps p entered)).getLast? = some t ∧ v.Leaves t.source := by
  induction steps generalizing last s p entered with
  | zero =>
    refine ⟨fun t ht => ?_, .nil, fun final hfinal => ?_⟩
    · cases ht
    · exact (throw_eq_ok.mp hfinal).elim
  | succ steps ih =>
    obtain ⟨⟨scope, hlaid, hstack⟩, -⟩ := h
    cases henter : v.function.enter p entered with
    | error e left =>
      rw [Function.visits, henter]
      simp only [Chart.passages_cons, Chart.passages_nil, append_nil]
      refine ⟨fun t ht => ?_, hlaid.isChain left, fun final hfinal => ?_⟩
      · rw [head?_map, Option.mem_def, Option.map_eq_some_iff] at ht
        obtain ⟨t', ht', rfl⟩ := ht
        exact hlaid.head_eq ht'
      · obtain ⟨q, t, hq, -⟩ := bind_eq_ok.mp hfinal
        rw [henter] at hq
        cases hq
    | ok q left =>
      obtain ⟨hexec, hnext⟩ := Function.enter_eq_ok.mp henter
      obtain hstep | ⟨rfl, init, t, hchain, hleads, hleaves⟩ := hlaid.next hstack
        (fun id r hexit hholds => hholds.lanes?_eq hexit hsize hexec) hnext
      · obtain ⟨p', s', rfl, hleads, harrives⟩ := hstep
        have hsize' : left.registers.size = v.function.instructions.size := by
          rw [Function.size_of_execBlock hexec, hsize]
        obtain ⟨hhead, hchain, hend⟩ := ih harrives hsize'
        rw [Function.visits, henter]
        simp only [Chart.passages_cons]
        refine ⟨hleads.head?_append hhead, hleads.isChain_append hchain hhead, fun final hfinal => ?_⟩
        · obtain ⟨q, t, hq, hrest⟩ := bind_eq_ok.mp hfinal
          rw [henter] at hq
          cases hq
          grind
      · rw [Function.visits, henter]
        simp only [Chart.passages_cons, Chart.passages_nil, append_nil]
        refine ⟨fun t ht => ?_, hlaid.isChain left, fun final hfinal => ⟨⟨t, left⟩, ?_, hleaves⟩⟩
        · rw [head?_map, Option.mem_def, Option.map_eq_some_iff] at ht
          obtain ⟨t', ht', rfl⟩ := ht
          exact hlaid.head_eq ht'
        · rw [hchain, map_append, getLast?_append]
          rfl

end ShaderIR.Spirv
