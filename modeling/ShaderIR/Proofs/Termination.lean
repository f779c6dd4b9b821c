import ShaderIR.Proofs.Positions
import Mathlib.Data.Finset.Option
import Mathlib.Data.Finset.Prod

/-!
# Walks end

A walk goes on for ever only if it comes back to a position from inside of a region it went into there,
and no code on the way defines an id: an id that is defined again ends the walk. Otherwise a bound on how
far walks go does not matter. A walk that succeeds follows each branch forward, except those back to the
header of a loop from inside of it.
-/

namespace ShaderIR.Spirv

open List

open Relation

namespace Context

/-- A walk gets from a position to another one. -/
def Moves (c : Context) (p q : Position) : Prop := q ∈ c.into p ∨ q ∈ c.onTo p

/-- No code that defines an id is made at a position. -/
def Silent (c : Context) (p : Position) : Prop :=
  ∀ code ∈ c.blocks[p.source]?, code.loop? p.scope p.source = none → code.results = []

/-- A walk gets from a position to another one without code that defines an id. -/
def SilentlyMoves (c : Context) (p q : Position) : Prop := c.Silent p ∧ c.Moves p q

/-- A walk that starts at a position can come back to one from inside of a region that it went into there,
without code that defines an id. -/
def HasSilentRound (c : Context) (start : Position) : Prop :=
  ∃ p q, ReflTransGen c.Moves start p ∧ c.Silent p ∧ q ∈ c.into p ∧ ReflTransGen c.SilentlyMoves q p

end Context

/-! ### How far a walk can go -/

/-- All positions at blocks before `n`, in scopes that name such. -/
def positionsBelow (n : Nat) : Finset Position :=
  (Finset.range n ×ˢ (Finset.range n).insertNone ×ˢ (Finset.range n).insertNone ×ˢ
    (Finset.range n).insertNone).image fun (source, breakTo, continueTo, stop) =>
      ⟨source, { breakTo, continueTo, stop }⟩

theorem card_positionsBelow_le (n : Nat) : (positionsBelow n).card ≤ n * (n + 1) ^ 3 := by
  refine Finset.card_image_le.trans ?_
  simp only [Finset.card_product, Finset.card_insertNone, Finset.card_range]
  rw [Nat.pow_succ', Nat.pow_two]

/-- The blocks named by a scope are before `n`. -/
structure Scope.Below (scope : Scope) (n : Nat) : Prop where
  breakTo : ∀ s ∈ scope.breakTo, s < n
  continueTo : ∀ s ∈ scope.continueTo, s < n
  stop : ∀ s ∈ scope.stop, s < n

structure Position.Below (p : Position) (n : Nat) : Prop where
  source : p.source < n
  scope : p.scope.Below n

theorem mem_positionsBelow {p : Position} {n : Nat} (h : p.Below n) : p ∈ positionsBelow n := by
  refine Finset.mem_image.mpr ⟨(p.source, p.scope.breakTo, p.scope.continueTo, p.scope.stop), ?_, rfl⟩
  simp only [Finset.mem_product, Finset.mem_insertNone, Finset.mem_range]
  exact ⟨h.source, h.scope.breakTo, h.scope.continueTo, h.scope.stop⟩

variable {q : Position} {code : SourceBlock} {t : Turn}

namespace Turn

/-- The blocks that a turn names. -/
def targets : Turn → List Nat
  | .loop m => [m]
  | .on t => [t]
  | .fork onTrue onFalse m => [onTrue, onFalse, m]

theorem below_of_mem_into {p : Position} {n : Nat} (ht : ∀ s ∈ t.targets, s < n) (hp : p.Below n)
    (hq : q ∈ t.into p) : q.Below n := by
  cases t with
  | loop m =>
    obtain rfl := mem_singleton.mp hq
    have hm := ht m (mem_singleton_self m)
    exact ⟨hp.source, by simpa [Position.inLoop] using hm, by simpa [Position.inLoop] using hp.source, nofun⟩
  | on => cases hq
  | fork onTrue onFalse m =>
    simp only [targets, mem_cons, not_mem_nil, or_false, forall_eq_or_imp, forall_eq] at ht
    simp only [into, mem_cons, not_mem_nil, or_false] at hq
    obtain ⟨honTrue, honFalse, hm⟩ := ht
    have hstop : ∀ s ∈ some m, s < n := by simpa using hm
    rcases hq with rfl | rfl
    · exact ⟨honTrue, hp.scope.breakTo, hp.scope.continueTo, hstop⟩
    · exact ⟨honFalse, hp.scope.breakTo, hp.scope.continueTo, hstop⟩

theorem below_of_mem_onTo {p : Position} {n : Nat} (ht : ∀ s ∈ t.targets, s < n) (hp : p.Below n)
    (hq : q ∈ t.onTo p) : q.Below n := by
  cases t with
  | loop m =>
    obtain rfl := mem_singleton.mp hq
    exact ⟨ht m (mem_singleton_self m), hp.scope⟩
  | on target =>
    obtain ⟨-, rfl⟩ : _ ∧ q = p.beside target := by simpa [onTo] using hq
    exact ⟨ht target (mem_singleton_self target), hp.scope⟩
  | fork onTrue onFalse m =>
    obtain ⟨-, rfl⟩ : _ ∧ q = p.beside m := by simpa [onTo] using hq
    exact ⟨ht m (by simp [targets]), hp.scope⟩

end Turn

namespace Context

variable {c : Context} {p q : Position} {n : Nat}

theorem targets_lt (hc : Numbered n c) (h : c.turn? p = some t) : ∀ s ∈ t.targets, s < n := by
  have hlabel {label : Id} {s : Nat} (hs : c.ids.block label = .ok s) : s < n :=
    hc.labels label s (IdTable.block_eq_ok.mp hs)
  have hmerge {code : SourceBlock} {s : Nat} (hs : c.mergeTarget? code = some s) : s < n := by
    obtain ⟨label, -, hs⟩ := mergeTarget?_eq_some.mp hs
    exact hlabel hs
  obtain ⟨code, -, hturns⟩ := turns_of_turn? h
  have hbranch {s : Nat} (hs : s ∈ c.branchTargets code) : s < n := by
    obtain ⟨label, -, hs⟩ := mem_branchTargets.mp hs
    exact hlabel hs
  cases hturns with
  | loop _ hm => simpa [Turn.targets] using hmerge hm
  | branch _ htargets => simpa [Turn.targets, htargets] using @hbranch
  | bypassTrue _ htargets _ => simpa [Turn.targets] using hbranch (by simp [htargets])
  | bypassFalse _ htargets _ => simpa [Turn.targets] using hbranch (by simp [htargets])
  | fork _ htargets _ hm =>
    simpa [Turn.targets] using ⟨hbranch (by simp [htargets]), hbranch (by simp [htargets]), hmerge hm⟩

theorem Moves.below (h : c.Moves p q) (hc : Numbered n c) (hp : p.Below n) : q.Below n := by
  rcases h with h | h
  · obtain ⟨t, ht, hq⟩ := mem_flatMap.mp h
    exact Turn.below_of_mem_into (targets_lt hc (Option.mem_toList.mp ht)) hp hq
  · obtain ⟨t, ht, hq⟩ := mem_flatMap.mp h
    exact Turn.below_of_mem_onTo (targets_lt hc (Option.mem_toList.mp ht)) hp hq

end Context

/-! ### Every walk that is asked for has less to go -/

namespace Structure

open scoped Classical in
/-- The blocks whose code still defines an id. -/
noncomputable def unlearned (d : Context) : Finset Nat :=
  {s ∈ Finset.range d.blocks.size | ∃ code ∈ d.blocks[s]?, ∃ id ∈ code.results, ¬d.Knows id}

open scoped Classical in
/-- The positions from which a walk goes into further regions, and to which it gets from a position, both
without code that defines an id. -/
noncomputable def nests (c : Context) (p : Position) : Finset Position := {x ∈ positionsBelow c.blocks.size |
    (∃ q, c.Silent x ∧ q ∈ c.into x) ∧ ReflTransGen c.SilentlyMoves p x}

/-- A bound on how far a walk can go that is asked for: until the next block whose code defines an id, then
until the next region, then in the same. -/
noncomputable def Call.reach (c : Context) (k : Call) : Nat :=
  (unlearned k.state).card * ((c.blocks.size * (c.blocks.size + 1) ^ 3 + 1) * (c.blocks.size + 1)) +
    (nests c k.position).card * (c.blocks.size + 1) + (c.blocks.size - k.visited.length)

/-- What holds of every walk that is asked for in a walk from `start`. -/
structure Call.Follows (c : Context) (start : Position) (k : Call) : Prop where
  carries : Carries c k.state
  reached : ReflTransGen c.Moves start k.position
  below : k.position.Below c.blocks.size
  nodup : k.visited.Nodup
  visited : ∀ s ∈ k.visited, s < c.blocks.size

variable {c d d' : Context} {start p q : Position} {k k' : Call} {log : List Emission}

open scoped Classical in
theorem card_unlearned_le : (unlearned d).card ≤ d.blocks.size :=
  (Finset.card_filter_le ..).trans_eq (Finset.card_range _)

open scoped Classical in
theorem card_nests_le : (nests c p).card ≤ c.blocks.size * (c.blocks.size + 1) ^ 3 :=
  (Finset.card_filter_le ..).trans (card_positionsBelow_le _)

theorem unlearned_subset {l : List Id} (h : d.Learns l d') (hblocks : d'.blocks = d.blocks) :
    unlearned d' ⊆ unlearned d := by
  intro s hs
  simp only [unlearned, Finset.mem_filter, hblocks] at hs ⊢
  obtain ⟨hlt, code, hcode, id, hid, hknows⟩ := hs
  exact ⟨hlt, code, hcode, id, hid, fun h' => hknows ((h.knows id).mpr (.inl h'))⟩

theorem nests_subset (h : c.SilentlyMoves p q) : nests c q ⊆ nests c p := by
  intro x hx
  simp only [nests, Finset.mem_filter] at hx ⊢
  exact ⟨hx.1, hx.2.1, .head h hx.2.2⟩

theorem nests_ssubset (hround : ¬c.HasSilentRound start) (hreached : ReflTransGen c.Moves start p)
    (hp : p.Below c.blocks.size) (hsilent : c.Silent p) (hq : q ∈ c.into p) : nests c q ⊂ nests c p := by
  refine ⟨nests_subset ⟨hsilent, .inl hq⟩, fun hsub => ?_⟩
  have hmem : p ∈ nests c p := by
    simp only [nests, Finset.mem_filter]
    exact ⟨mem_positionsBelow hp, ⟨q, hsilent, hq⟩, .refl⟩
  have hback := hsub hmem
  simp only [nests, Finset.mem_filter] at hback
  exact hround ⟨p, q, hreached, hsilent, hq, hback.2.2⟩

theorem Call.Asks.mem_log (h : k.Asks k' log) (hfound : k.state.blocks[k.source]? = some code)
    (hloop : code.loop? k.scope k.source = none) : ∃ e ∈ log, e.code = code := by
  cases h with
  | body hopens | behind hopens =>
    cases hfound.symm.trans hopens.found
    cases hloop.symm.trans hopens.loop
  | branch hmade | bypass hmade | trueArm hmade | falseArm hmade | join hmade =>
    cases hfound.symm.trans hmade.found
    exact ⟨_, mem_cons_self .., rfl⟩

theorem Call.Asks.unlearned_ssubset (h : k.Asks k' log)
    (hfound : k.state.blocks[k.source]? = some code) (hloop : code.loop? k.scope k.source = none)
    (hresults : code.results ≠ []) : unlearned k'.state ⊂ unlearned k.state := by
  have hlearns := h.learns
  obtain ⟨id, hid⟩ := exists_mem_of_ne_nil _ hresults
  obtain ⟨e, he, rfl⟩ := h.mem_log hfound hloop
  have hlearned {id : Id} (hid : id ∈ e.code.results) : id ∈ log.flatMap (·.code.results) :=
    mem_flatMap.mpr ⟨e, he, hid⟩
  refine ⟨unlearned_subset hlearns h.carries.blocks, fun hsub => ?_⟩
  have hmem : k.source ∈ unlearned k.state := by
    simp only [unlearned, Finset.mem_filter, Finset.mem_range]
    exact ⟨(Array.getElem?_eq_some_iff.mp hfound).1, e.code, hfound, id, hid, hlearns.fresh id (hlearned hid)⟩
  have hback := hsub hmem
  simp only [unlearned, Finset.mem_filter, h.carries.blocks] at hback
  obtain ⟨-, code', hcode', id', hid', hknows⟩ := hback
  cases hfound.symm.trans hcode'
  exact hknows ((hlearns.knows id').mpr (.inr (hlearned hid')))

theorem Call.Follows.asks (hk : k.Follows c start) (hc : Numbered c.blocks.size c) (h : k.Asks k' log) :
    k'.Follows c start := by
  have hmoves : c.Moves k.position k'.position := by
    simp only [Context.Moves, Context.into, Context.onTo, ← hk.carries.turn?_eq]
    exact h.moves.imp (·.1) (·.1)
  obtain ⟨code, henters⟩ := h.enters
  refine ⟨hk.carries.trans h.carries, hk.reached.tail hmoves, hmoves.below hc hk.below, ?_, ?_⟩
  · rcases h.moves with ⟨-, hvisited⟩ | ⟨-, hvisited⟩
    · simp [hvisited]
    · simpa [hvisited, hk.nodup] using henters.fresh
  · rcases h.moves with ⟨-, hvisited⟩ | ⟨-, hvisited⟩
    · simp [hvisited]
    · simpa [hvisited] using ⟨hk.below.source, hk.visited⟩

theorem Call.Follows.length_visited_le (hk : k.Follows c start) : k.visited.length ≤ c.blocks.size := by
  have hsub : k.visited ⊆ List.range c.blocks.size := fun s hs => mem_range.mpr (hk.visited s hs)
  simpa using (hk.nodup.subperm hsub).length_le

theorem measure_lt {u u' n n' v v' width height : Nat} (hn : n' ≤ height) (hv : v' ≤ width)
    (h : u' < u ∨ u' ≤ u ∧ (n' < n ∨ n' ≤ n ∧ v' < v)) :
    u' * ((height + 1) * (width + 1)) + n' * (width + 1) + v' <
      u * ((height + 1) * (width + 1)) + n * (width + 1) + v := by
  have hheight := Nat.mul_le_mul_right (width + 1) hn
  rcases h with hu | ⟨hu, hn' | ⟨hn', hv'⟩⟩
  · have hu' := Nat.mul_le_mul_right ((height + 1) * (width + 1)) hu
    grind
  · have hu' := Nat.mul_le_mul_right ((height + 1) * (width + 1)) hu
    have hn'' := Nat.mul_le_mul_right (width + 1) hn'
    rw [Nat.succ_mul] at hn''
    lia
  · have hu' := Nat.mul_le_mul_right ((height + 1) * (width + 1)) hu
    have hn'' := Nat.mul_le_mul_right (width + 1) hn'
    lia

theorem Call.Asks.reach_lt (h : k.Asks k' log) (hround : ¬c.HasSilentRound start)
    (hc : Numbered c.blocks.size c) (hk : k.Follows c start) : k'.reach c < k.reach c := by
  obtain ⟨code, henters⟩ := h.enters
  have hfound : c.blocks[k.source]? = some code := hk.carries.blocks ▸ henters.found
  refine measure_lt card_nests_le (Nat.sub_le ..) ?_
  by_cases hsilent : c.Silent k.position
  · refine .inr ⟨Finset.card_le_card (unlearned_subset h.learns h.carries.blocks), ?_⟩
    have hinto : k.state.into k.position = c.into k.position := by
      rw [Context.into, Context.into, hk.carries.turn?_eq]
    have honTo : k.state.onTo k.position = c.onTo k.position := by
      rw [Context.onTo, Context.onTo, hk.carries.turn?_eq]
    rcases h.moves with ⟨hmem, -⟩ | ⟨hmem, hvisited⟩
    · rw [hinto] at hmem
      exact .inl (Finset.card_lt_card (nests_ssubset hround hk.reached hk.below hsilent hmem))
    · rw [honTo] at hmem
      refine .inr ⟨Finset.card_le_card (nests_subset ⟨hsilent, .inr hmem⟩), ?_⟩
      have hlength := (hk.asks hc h).length_visited_le
      rw [hvisited, length_cons] at hlength ⊢
      lia
  · obtain ⟨code', hcode', hloop, hresults⟩ :
        ∃ code ∈ c.blocks[k.source]?, code.loop? k.scope k.source = none ∧ code.results ≠ [] := by
      simpa [Context.Silent, Call.position] using hsilent
    cases hfound.symm.trans hcode'
    exact .inl (Finset.card_lt_card (h.unlearned_ssubset henters.found hloop hresults))

theorem answer_eq_of_reach_lt (hround : ¬c.HasSilentRound start) (hc : Numbered c.blocks.size c)
    (beyond : Walker) {n : Nat} (hk : k.Follows c start) (h : k.reach c < n) :
    (walkBlock^[n] beyond).answer k = (walkFrom n).answer k := by
  induction n generalizing k with
  | zero => cases h
  | succ n ih =>
    rw [Function.iterate_succ_apply']
    refine Call.answer_congr (walkFrom_sound n) fun k' log hasks => ?_
    exact ih (hk.asks hc hasks) (by have := hasks.reach_lt hround hc hk; lia)

theorem reach_lt_walkBound {d : Context} (hd : d.blocks.size = c.blocks.size) (entry : Nat) :
    Call.reach c ⟨0, entry, none, [], {}, d⟩ < walkBound c.blocks.size := by
  have hunlearned : (unlearned d).card ≤ c.blocks.size := hd ▸ card_unlearned_le
  have hnests : (nests c ⟨entry, {}⟩).card ≤ _ := card_nests_le
  have h := measure_lt hnests (Nat.le_refl c.blocks.size) (u := c.blocks.size + 1) (n := 0) (v := 0)
    (.inl (Nat.lt_succ_of_le hunlearned))
  refine Nat.lt_of_lt_of_eq h ?_
  simp only [walkBound, Nat.zero_mul, Nat.add_zero, Nat.pow_succ, Nat.pow_zero, Nat.one_mul]
  exact Nat.mul_left_comm ..

/-! ### Where the branches of a walk lead that succeeds -/

end Structure

namespace Context

/-- A block of the stream is inside of the loop that another heads. -/
def InLoop (c : Context) (header s : Nat) : Prop :=
  ∃ p m q, p.source = header ∧ c.turn? p = some (.loop m) ∧ q.source = s ∧
    ReflTransGen c.Moves (.inLoop header m) q

variable {c : Context} {p : Position}

theorem eq_or_not_stays_of_turn? {t t' : Nat} (h : c.turn? p = some (.on t)) (ht' : c.Branches p.source t') :
    t' = t ∨ ¬p.scope.Stays t' := by
  obtain ⟨code, hcode, ht'⟩ := ht'
  obtain ⟨code', hcode', hturns⟩ := turns_of_turn? h
  cases hcode.symm.trans hcode'
  have hjumps {u : Nat} (hu : (p.scope.jump? u).isSome) : ¬p.scope.Stays u := fun hstays => by
    rw [hstays.2] at hu
    cases hu
  cases hturns with
  | branch _ htargets =>
    rw [htargets] at ht'
    exact .inl (mem_singleton.mp ht')
  | bypassTrue _ htargets htrue =>
    grind
  | bypassFalse _ htargets hfalse =>
    grind

theorem eq_or_eq_of_turn? {onTrue onFalse m t : Nat} (h : c.turn? p = some (.fork onTrue onFalse m))
    (ht : c.Branches p.source t) : t = onTrue ∨ t = onFalse := by
  obtain ⟨code, hcode, ht⟩ := ht
  obtain ⟨code', hcode', hturns⟩ := turns_of_turn? h
  cases hcode.symm.trans hcode'
  cases hturns with
  | fork _ htargets => simpa [htargets] using ht

theorem moves_into (h : c.turn? p = some t) (hq : q ∈ t.into p) : c.Moves p q := .inl (by rwa [into_of_turn? h])

theorem moves_onTo (h : c.turn? p = some t) (hq : q ∈ t.onTo p) : c.Moves p q := .inr (by rwa [onTo_of_turn? h])

end Context

namespace Structure

variable {c : Context} {p : Position} {l : List Nat}

theorem Treads.exists_cons (h : Treads c p l) (hstop : p.scope.stop ≠ some p.source) :
    ∃ l', l = p.source :: l' := by
  induction h with
  | stop h => exact (hstop h).elim
  | loop _ _ _ ihbody =>
    obtain ⟨l', rfl⟩ := ihbody nofun
    exact ⟨_, rfl⟩
  | on => exact ⟨_, rfl⟩
  | fork => exact ⟨_, rfl⟩
  | leave => exact ⟨_, rfl⟩

theorem Treads.reaches (h : Treads c p l) : ∀ s ∈ l, ∃ q, q.source = s ∧ ReflTransGen c.Moves p q := by
  induction h with
  | stop => simp
  | @loop _ _ _ _ hturn _ _ ihbody ihrest =>
    intro s hs
    rcases mem_append.mp hs with hs | hs
    · obtain ⟨q, hq, hreach⟩ := ihbody s hs
      exact ⟨q, hq, .head (Context.moves_into hturn (mem_singleton_self _)) hreach⟩
    · obtain ⟨q, hq, hreach⟩ := ihrest s hs
      exact ⟨q, hq, .head (Context.moves_onTo hturn (mem_singleton_self _)) hreach⟩
  | @on p t l hturn _ hleft ih =>
    intro s hs
    rcases mem_cons.mp hs with rfl | hs
    · exact ⟨p, rfl, .refl⟩
    · have hstays : p.scope.Stays t := Decidable.by_contra fun hstays => by simp [hleft hstays] at hs
      obtain ⟨q, hq, hreach⟩ := ih hstays s hs
      exact ⟨q, hq, .head (Context.moves_onTo hturn (by simp [Turn.onTo, hstays])) hreach⟩
  | @fork p _ _ m _ _ _ hturn _ _ _ hleft ihtrue ihfalse ihrest =>
    intro s hs
    simp only [mem_cons, mem_append] at hs
    rcases hs with rfl | (hs | hs) | hs
    · exact ⟨p, rfl, .refl⟩
    · obtain ⟨q, hq, hreach⟩ := ihtrue s hs
      exact ⟨q, hq, .head (Context.moves_into hturn (by simp [Turn.into])) hreach⟩
    · obtain ⟨q, hq, hreach⟩ := ihfalse s hs
      exact ⟨q, hq, .head (Context.moves_into hturn (by simp [Turn.into])) hreach⟩
    · have hstays : p.scope.Stays m := Decidable.by_contra fun hstays => by simp [hleft hstays] at hs
      obtain ⟨q, hq, hreach⟩ := ihrest hstays s hs
      exact ⟨q, hq, .head (Context.moves_onTo hturn (by simp [Turn.onTo, hstays])) hreach⟩
  | @leave p =>
    grind

/-- A branch at one of some blocks leads out of the region, to a later one of them, or back to the header
of a loop from inside of it. -/
def Forward (c : Context) (scope : Scope) (l : List Nat) : Prop :=
  ∀ before s behind, l = before ++ s :: behind → ∀ t, c.Branches s t →
    ¬scope.Stays t ∨ t ∈ behind ∨ c.InLoop t s ∧ t ∈ l

namespace Forward

variable {scope scope' : Scope} {l' : List Nat}

protected theorem nil : Forward c scope [] := by
  intro before s behind h
  cases before <;> cases h

protected theorem cons {s : Nat} (h : Forward c scope l)
    (hs : ∀ t, c.Branches s t → ¬scope.Stays t ∨ t ∈ l) : Forward c scope (s :: l) := by
  intro before s' behind heq t ht
  cases before with
  | nil =>
    cases heq
    exact (hs t ht).imp_right .inl
  | cons s'' before =>
    cases heq
    refine (h before s' behind rfl t ht).imp_right (.imp_right fun ⟨hin, hmem⟩ => ?_)
    exact ⟨hin, mem_cons_of_mem _ hmem⟩

protected theorem append (h : Forward c scope' l) (h' : Forward c scope l')
    (hout : ∀ t, ¬scope'.Stays t → (¬scope.Stays t ∨ t ∈ l') ∨ t ∈ l ∧ ∀ s ∈ l, c.InLoop t s) :
    Forward c scope (l ++ l') := by
  intro before s behind heq t ht
  rcases append_eq_append_iff.mp heq with ⟨before', rfl, rfl⟩ | ⟨behind', rfl, hcons⟩
  · refine (h' before' s behind rfl t ht).imp_right (.imp_right fun ⟨hin, hmem⟩ => ?_)
    exact ⟨hin, mem_append_right _ hmem⟩
  · cases behind' with
    | nil =>
      obtain rfl := hcons
      refine (h' [] s behind rfl t ht).imp_right (.imp_right fun ⟨hin, hmem⟩ => ?_)
      exact ⟨hin, mem_append_right _ hmem⟩
    | cons s' behind' =>
      cases hcons
      rcases h before s behind' rfl t ht with hleft | hmem | ⟨hin, hmem⟩
      · rcases hout t hleft with (hleft | hmem) | ⟨hmem, hin⟩
        · exact .inl hleft
        · exact .inr (.inl (mem_append_right _ hmem))
        grind
      · exact .inr (.inl (mem_append_left _ hmem))
      · exact .inr (.inr ⟨hin, mem_append_left _ hmem⟩)

end Forward

theorem Treads.forward (h : Treads c p l) : Forward c p.scope l := by
  induction h with
  | stop => exact .nil
  | @loop p m _ _ hturn hbody hrest ihbody ihrest =>
    refine ihbody.append ihrest fun t ht => ?_
    have hcases : t = m ∨ t = p.source := by
      by_contra hne
      refine ht ⟨nofun, ?_⟩
      have hne' := not_or.mp hne
      simp [Position.inLoop, Scope.jump?, Ne.symm hne'.1, Ne.symm hne'.2]
    rcases hcases with rfl | rfl
    · left
      by_cases hstop : p.scope.stop = some t
      · exact .inl fun hstays => hstays.1 hstop
      · obtain ⟨l', rfl⟩ := hrest.exists_cons hstop
        exact .inr (mem_cons_self ..)
    · obtain ⟨l', hl'⟩ := hbody.exists_cons nofun
      refine .inr ⟨hl' ▸ mem_cons_self .., fun s hs => ?_⟩
      obtain ⟨q, hq, hreach⟩ := hbody.reaches s hs
      exact ⟨p, m, q, rfl, hturn, hq, hreach⟩
  | @on p t l hturn hrest hleft ih =>
    by_cases hstays : p.scope.Stays t
    · refine (ih hstays).cons fun t' ht' => ?_
      rcases Context.eq_or_not_stays_of_turn? hturn ht' with rfl | hleft
      · obtain ⟨l', rfl⟩ := (hrest hstays).exists_cons hstays.1
        exact .inr (mem_cons_self ..)
      · exact .inl hleft
    · rw [hleft hstays]
      refine Forward.nil.cons fun t' ht' => .inl ?_
      rcases Context.eq_or_not_stays_of_turn? hturn ht' with rfl | hleft
      · exact hstays
      · exact hleft
  | @fork p onTrue _ m _ _ l₃ hturn htrue hfalse hrest hleft ihtrue ihfalse ihrest =>
    have hm : ¬p.scope.Stays m ∨ m ∈ l₃ := by
      by_cases hstays : p.scope.Stays m
      · obtain ⟨l', rfl⟩ := (hrest hstays).exists_cons hstays.1
        exact .inr (mem_cons_self ..)
      · exact .inl hstays
    have hout (t : Nat) (ht : ¬(p.inArm m onTrue).scope.Stays t) : ¬p.scope.Stays t ∨ t ∈ l₃ := by
      by_cases hmt : t = m
      · exact hmt ▸ hm
      · exact .inl fun hstays => ht ⟨fun h => hmt (Option.some.inj h).symm, hstays.2⟩
    have harm {l : List Nat} {s : Nat} (h : Treads c (p.inArm m s) l) : (¬p.scope.Stays s ∨ s ∈ l₃) ∨ s ∈ l := by
      by_cases hstop : s = m
      · exact .inl (hstop ▸ hm)
      · obtain ⟨l', rfl⟩ := h.exists_cons fun h => hstop (Option.some.inj h).symm
        exact .inr (mem_cons_self ..)
    have hrest' : Forward c p.scope l₃ := by
      by_cases hstays : p.scope.Stays m
      · exact ihrest hstays
      · rw [hleft hstays]
        exact .nil
    rw [append_assoc]
    have hbehind := ihfalse.append hrest' fun t ht => .inl (hout t ht)
    refine (ihtrue.append hbehind fun t ht => .inl ?_).cons fun t ht => ?_
    · exact (hout t ht).imp_right (mem_append_right _)
    · rcases Context.eq_or_eq_of_turn? hturn ht with rfl | rfl
      · grind
      grind
  | leave _ htargets =>
    refine Forward.nil.cons fun t ⟨code, hcode, ht⟩ => ?_
    rw [htargets code hcode] at ht
    cases ht

theorem stays_of_entry (t : Nat) : Scope.Stays {} t := ⟨nofun, rfl⟩

section Entry

variable {entry : Nat} (h : Treads c ⟨entry, {}⟩ l)

include h

theorem Treads.mem_of_reached {s : Nat} (hs : ReflTransGen c.Branches entry s) : s ∈ l := by
  induction hs with
  | refl =>
    obtain ⟨l', rfl⟩ := h.exists_cons nofun
    exact mem_cons_self ..
  | tail _ ht ih =>
    obtain ⟨before, behind, rfl⟩ := append_of_mem ih
    rcases h.forward before _ behind rfl _ ht with hleft | hmem | ⟨-, hmem⟩
    · exact (hleft (stays_of_entry _)).elim
    · simp [hmem]
    · exact hmem

theorem Treads.not_cycle {s : Nat} (hs : s ∈ l) : ¬TransGen (fun a b => c.Branches a b ∧ ¬c.InLoop b a) s s := by
  -- behind the last code of a block only later ones are reached
  obtain ⟨behind, before, hl, hlast⟩ := eq_append_cons_of_mem (mem_reverse.mpr hs)
  have hl : l = before.reverse ++ s :: behind.reverse := by
    simpa using congrArg List.reverse hl
  have hnext {before' behind' : List Nat} {a b : Nat} (hl' : l = before' ++ a :: behind')
      (hab : c.Branches a b ∧ ¬c.InLoop b a) : b ∈ behind' := by
    rcases h.forward before' a behind' hl' b hab.1 with hleft | hmem | ⟨hin, -⟩
    · exact (hleft (stays_of_entry b)).elim
    · exact hmem
    · exact (hab.2 hin).elim
  have hbehind {b : Nat} (hb : TransGen (fun a b => c.Branches a b ∧ ¬c.InLoop b a) s b) :
      b ∈ behind.reverse := by
    induction hb with
    | single hab => exact hnext hl hab
    | @tail a b _ hab ih =>
      obtain ⟨before', behind', hbehind⟩ := append_of_mem ih
      grind
  exact fun hcycle => hlast (mem_reverse.mp (hbehind hcycle))

end Entry

end Structure

open Structure in
/-- A walk ends, and it fails if it comes to a cycle of branches none of which leads back to the header of
a loop from inside of it. -/
theorem walk_ends {options : Options} {words : List Word} {c d : Context} {index entry : Nat}
    (houtline : outline? options words = some c) (hstart : start? options words index = some (entry, d))
    (hround : ¬c.HasSilentRound ⟨entry, {}⟩) :
    (∀ beyond : Walker,
      walkBlock^[walkBound d.blocks.size] beyond 0 entry none [] {} d = Structure.walk entry d) ∧
    ∀ s, ReflTransGen c.Branches entry s → TransGen (fun a b => c.Branches a b ∧ ¬c.InLoop b a) s s →
      ∃ e d', Structure.walk entry d = .error e d' := by
  have hstarts := starts_of_start? houtline hstart
  obtain ⟨f, hf, hentry⟩ := hstarts.entry
  have hlt : entry < c.blocks.size :=
    hstarts.numbered.blocks f (Array.mem_of_getElem? hf) entry (List.mem_of_head? hentry)
  have hk : Call.Follows c ⟨entry, {}⟩ ⟨0, entry, none, [], {}, d⟩ :=
    ⟨hstarts.carries, .refl, ⟨hlt, nofun, nofun, nofun⟩, .nil, nofun⟩
  have hsize : d.blocks.size = c.blocks.size := congrArg _ hstarts.carries.blocks
  refine ⟨fun beyond => ?_, fun s hs hcycle => ?_⟩
  · rw [hsize]
    have hanswer := answer_eq_of_reach_lt hround hstarts.numbered beyond hk (reach_lt_walkBound hsize entry)
    refine hanswer.trans ?_
    rw [Structure.walk, EStateM.get_bind, hsize]
    rfl
  · cases hwalk : Structure.walk entry d with
    | error e d' => exact ⟨e, d', rfl⟩
    | ok region d' =>
      obtain ⟨log, hne, hwalks⟩ := walks_of_walk hwalk
      have htreads := hwalks.treads (fun hnil => (hne hnil).elim) hstarts.carries
      exact (htreads.not_cycle (htreads.mem_of_reached hs) hcycle).elim

/-! ### Walks that end, and walks that do not -/

theorem Context.not_hasSilentRound {c : Context}
    (h : ∀ code ∈ c.blocks, code.merge ≠ .none → code.results ≠ []) (start : Position) :
    ¬c.HasSilentRound start := by
  rintro ⟨p, q, -, hsilent, hq, hback⟩
  obtain ⟨t, ht, hq⟩ := mem_flatMap.mp hq
  obtain ⟨code, hcode, hturns⟩ := turns_of_turn? (Option.mem_toList.mp ht)
  have hcode' := h code (Array.mem_of_getElem? hcode)
  cases hturns with
  | branch => cases hq
  | bypassTrue => cases hq
  | bypassFalse => cases hq
  | fork hloop _ hselection =>
    refine hcode' (fun hnone => ?_) (hsilent code hcode hloop)
    simp [SourceBlock.isSelection, hnone] at hselection
  | @loop m hloop =>
    -- no code is made where the loop is opened, but its header comes next
    obtain rfl := mem_singleton.mp hq
    rcases hback.cases_head with heq | ⟨r, hmove, -⟩
    · rw [← heq] at hloop
      simp only [SourceBlock.loop?, Position.inLoop] at hloop
      split at hloop <;> simp at hloop
    · refine hcode' (fun hnone => ?_) (hmove.1 code hcode ?_)
      · simp [SourceBlock.loop?, hnone] at hloop
      · simp only [SourceBlock.loop?, Position.inLoop]
        split <;> simp

/-- A loop around a selection, one arm of which may leave the loop. -/
def markedHeaders : List Word := [0x07230203, 99, 0, 14, 0,
   0x00020013, 1, 0x00020014, 2, 0x00030021, 3, 1, 0x00030029, 2, 4,
   0x00050036, 1, 5, 0, 3,
   0x000200f8, 6, 0x000200f9, 7,
   0x000200f8, 7, 0x00030001, 2, 12, 0x000400f6, 11, 10, 0, 0x000200f9, 8,
   0x000200f8, 8, 0x00030001, 2, 13, 0x000300f7, 10, 0, 0x000400fa, 13, 9, 10,
   0x000200f8, 9, 0x000400fa, 4, 11, 10,
   0x000200f8, 10, 0x000200f9, 7,
   0x000200f8, 11, 0x000100fd, 0x00010038]

open Structure in
theorem walk_ends_markedHeaders :
    ∃ c entry d, outline? {} markedHeaders = some c ∧ start? {} markedHeaders 0 = some (entry, d) ∧
      ¬c.HasSilentRound ⟨entry, {}⟩ ∧
      (∀ beyond : Walker,
        walkBlock^[walkBound d.blocks.size] beyond 0 entry none [] {} d = Structure.walk entry d) ∧
      ∀ s, ReflTransGen c.Branches entry s → TransGen (fun a b => c.Branches a b ∧ ¬c.InLoop b a) s s →
          ∃ e d', Structure.walk entry d = .error e d' := by
  obtain ⟨c, houtline⟩ := Option.isSome_iff_exists.mp (show (outline? {} markedHeaders).isSome by decide +kernel)
  obtain ⟨⟨entry, d⟩, hstart⟩ := Option.isSome_iff_exists.mp
    (show (start? {} markedHeaders 0).isSome by decide +kernel)
  have hmarked : ∀ c ∈ outline? {} markedHeaders,
      ∀ code ∈ c.blocks, code.merge ≠ .none → code.results ≠ [] := by decide +kernel
  have hround := Context.not_hasSilentRound (hmarked c houtline) ⟨entry, {}⟩
  exact ⟨c, entry, d, houtline, hstart, hround, walk_ends houtline hstart hround⟩

/-- A block without code opens a loop and branches on to another block, which is not its merge block. -/
def Context.Chains (c : Context) (header target : Nat) : Prop :=
  ∃ code ∈ c.blocks[header]?, code.body = [] ∧ (code.loop? {} header).isSome ∧
    (∃ m ∈ c.mergeTarget? code, m ≠ target) ∧ code.terminator.op = .opBranch ∧
    c.branchTargets code = [target] ∧ target ≠ header

instance (c : Context) (header target : Nat) : Decidable (c.Chains header target) :=
  inferInstanceAs (Decidable (∃ code ∈ c.blocks[header]?, _))

namespace Structure

theorem emitBody_of_nil {block : BlockId} {source : Nat} {before : Option Nat} {c : Context}
    (h : code.body = []) :
    emitBody block source code before c = .ok () (endedAt (placedAt c source block) source block) :=
  emitBody_eq_ok.mpr ⟨_, by rw [h]; rfl, rfl⟩

/-- Headers without code that branch to each other open loops inside of loops for ever. -/
theorem answer_of_chains {c : Context} {headers : List Nat}
    (hchains : ∀ header ∈ headers, ∃ target ∈ headers, c.Chains header target) (n : Nat) {k : Call}
    (hc : Carries c k.state) (hk : k.source ∈ headers) (hstop : k.scope.stop = none)
    (hcontinue : k.scope.continueTo ≠ some k.source) (hfresh : k.source ∉ k.visited) :
    ∃ d, (walkFrom n).answer k = .error .endlessNesting d := by
  induction n using Nat.strong_induction_on generalizing k with
  | _ n ih =>
    obtain ⟨target, htarget, code, hcode, hbody, hloop, ⟨m, hm, hne⟩, hop, htargets, hne'⟩ := hchains _ hk
    have hfound : k.state.blocks[k.source]? = some code := hc.blocks ▸ hcode
    obtain ⟨label, hlabel, hblock⟩ := Context.mem_branchTargets.mp (htargets ▸ mem_singleton_self target)
    have hoperand : code.terminator.operand 0 = .ok label := by
      simpa [SourceBlock.branchLabels, hop, toOption_eq_some] using hlabel
    obtain ⟨⟨merge, continueTarget⟩, hloop⟩ := Option.isSome_iff_exists.mp hloop
    obtain ⟨label', hlabel', hm⟩ := Context.mergeTarget?_eq_some.mp hm
    cases (SourceBlock.mergeLabel?_of_loop? hloop).symm.trans hlabel'
    have hmerge : code.merge = .loop merge continueTarget := by
      unfold SourceBlock.loop? at hloop
      split at hloop <;> simp_all
    cases n with
    | zero => exact ⟨k.state, rfl⟩
    | succ n =>
      have henters : k.Enters code := ⟨hfound, by simp [hstop], hfresh⟩
      have hopens : k.Opens code merge continueTarget m :=
        ⟨henters, by simp [SourceBlock.loop?, hmerge, hcontinue], hc.block_eq_ok.mpr hm⟩
      suffices hinside : ∃ d, (walkFrom n).answer ⟨k.state.function.blocks.size, k.source, none, [],
          { breakTo := some m, continueTo := some k.source },
          (k.state.reported (.loop code.label merge continueTarget)).openLoop⟩ = .error .endlessNesting d by
        obtain ⟨d, hd⟩ := hinside
        exact ⟨d, (henters.answer_of_loop hopens.loop).trans
          ((walkLoop_of_ok hopens.merge).trans (EStateM.bind_of_error hd))⟩
      cases n with
      | zero => exact ⟨_, rfl⟩
      | succ n =>
        have hinside := hc.trans (Call.Asks.body hopens).carries
        have hmakes : Call.Makes ⟨k.state.function.blocks.size, k.source, none, [],
            { breakTo := some m, continueTo := some k.source },
            (k.state.reported (.loop code.label merge continueTarget)).openLoop⟩ code _ :=
          ⟨⟨hfound, by simp, not_mem_nil⟩, by simp [SourceBlock.loop?, hmerge], emitBody_of_nil hbody⟩
        have hstays : Scope.Stays { breakTo := some m, continueTo := some k.source } target :=
          ⟨by simp, by simp [Scope.jump?, hne, hne'.symm]⟩
        obtain ⟨d, hd⟩ := ih n (by lia)
          (hinside.trans (Call.Asks.branch hmakes hop hoperand (hinside.block_eq_ok.mpr hblock) hstays).carries)
          htarget rfl (by simpa using hne'.symm) (by simpa using hne')
        exact ⟨d, (hmakes.answer_of_branch hop hoperand (hinside.block_eq_ok.mpr hblock) hstays).trans hd⟩

end Structure

/-- Two loop headers without code that branch to each other. -/
def chainedHeaders : List Word := [0x07230203, 99, 0, 8, 0, 0x00020013, 1, 0x00030021, 2, 1,
   0x00050036, 1, 3, 0, 2,
   0x000200f8, 4, 0x000400f6, 6, 4, 0, 0x000200f9, 5,
   0x000200f8, 5, 0x000400f6, 7, 5, 0, 0x000200f9, 4,
   0x000200f8, 6, 0x000100fd,
   0x000200f8, 7, 0x000100fd, 0x00010038]

/-- A block that branches to itself and that no other block leads to. -/
def straySpin : List Word := [0x07230203, 99, 0, 6, 0, 0x00020013, 1, 0x00030021, 2, 1, 0x00050036, 1, 3, 0, 2,
   0x000200f8, 4, 0x000100fd,
   0x000200f8, 5, 0x000200f9, 5, 0x00010038]

open Structure in
/-- There are walks without end, and cycles of branches that no walk comes to. -/
theorem walk_endless :
    (∃ c entry d, outline? {} chainedHeaders = some c ∧ start? {} chainedHeaders 0 = some (entry, d) ∧
      ∀ bound, ∃ d', walkFrom bound 0 entry none [] {} d = .error .endlessNesting d') ∧
    ∃ m c s, (readModule {} straySpin).result = .ok m ∧ outline? {} straySpin = some c ∧
      c.Branches s s ∧ ¬c.InLoop s s := by
  constructor
  · obtain ⟨c, houtline⟩ := Option.isSome_iff_exists.mp
      (show (outline? {} chainedHeaders).isSome by decide +kernel)
    obtain ⟨⟨entry, d⟩, hstart⟩ := Option.isSome_iff_exists.mp
      (show (start? {} chainedHeaders 0).isSome by decide +kernel)
    have hc : ∀ c ∈ outline? {} chainedHeaders, c.Chains 0 1 ∧ c.Chains 1 0 := by decide +kernel
    have hentry : ∀ p ∈ start? {} chainedHeaders 0, p.1 = 0 := by decide +kernel
    obtain rfl := hentry _ hstart
    obtain ⟨h₀, h₁⟩ := hc c houtline
    have hchains : ∀ header ∈ [0, 1], ∃ target ∈ [0, 1], c.Chains header target := by
      simpa using ⟨.inr h₀, .inl h₁⟩
    exact ⟨c, 0, d, houtline, hstart, fun bound =>
      answer_of_chains hchains bound (k := ⟨0, 0, none, [], {}, d⟩)
        (starts_of_start? houtline hstart).carries (by simp) rfl nofun List.not_mem_nil⟩
  · have h : hasFunction {} straySpin 0 := by decide +kernel
    obtain ⟨m, -, hread, -⟩ := exists_of_hasFunction h
    obtain ⟨c, houtline⟩ := exists_outline_of_readModule hread
    have hc : ∀ c ∈ outline? {} straySpin,
        ∃ code ∈ c.blocks[1]?, c.branchTargets code = [1] ∧ code.merge = .none := by decide +kernel
    obtain ⟨code, hcode, htargets, hmerge⟩ := hc c houtline
    refine ⟨m, c, 1, hread, houtline, ⟨code, hcode, by simp [htargets]⟩, ?_⟩
    rintro ⟨p, target, -, hp, hturn, -⟩
    obtain ⟨code', hcode', hturns⟩ := Context.turns_of_turn? hturn
    rw [hp] at hcode'
    cases hcode.symm.trans hcode'
    cases hturns with
    | loop hloop => simp [SourceBlock.loop?, hmerge] at hloop

end ShaderIR.Spirv
