import ShaderIR.Proofs.Coverage
import ShaderIR.Proofs.Order
import ShaderIR.Proofs.Wiring

/-!
# Phis take the right values

Whenever a run passes from one block of the stream to the next, the phis of the next block take the
values that are listed for the block before, as they are when control leaves it. A phi in code that
continues the block before stands for the listed value. Any other is read when control enters its block,
from the block that control came from; between the two there may be empty blocks, through which phis that
were made for the purpose hand the value on.
-/

namespace ShaderIR.Spirv

open EStateM List

open PhiSources (phisOf Settles ResolvesAll Awaits Advances SourcesFor Filled Supplies Wired Ready Made
  Resolved)

/-- A stretch of a run: the code of one block of the stream, on one visit of the block that holds it. -/
structure Stretch where
  source : Nat
  visit : Visit
  /-- The point in the block behind the phis with which the code begins. -/
  behindPhis : Nat
  /-- The point in the block at which control leaves the code. -/
  point : Nat

namespace Tour

variable (t : Tour) (f : Function)

/-- How many instructions the walk made. -/
def count : Nat := t.finish.function.instructions.size

/-- The state in which control leaves the code of a stretch. -/
def left? (p : Stretch) : Option RunState := f.stateAt? t.count p.visit.block p.point p.visit.entered

/-- The stretches of a visit, given what code its block holds: control leaves each at the point where the
code of the next begins, if it comes that far. -/
def stretchesOn (visit : Visit) : List Emission → List Stretch
  | [] => []
  | [e] => [⟨e.source, visit, Structure.behindPhis e, t.count⟩]
  | e :: e' :: es =>
    let p : Stretch := ⟨e.source, visit, Structure.behindPhis e, e'.start.function.instructions.size⟩
    p :: if (t.left? f p).isSome then stretchesOn visit (e' :: es) else []

/-- The stretches of some visits, in order. -/
def stretches (log : List Emission) (visits : List Visit) : List Stretch :=
  visits.flatMap fun visit => t.stretchesOn f visit (Structure.madeIn log visit.block)

/-- The value of a leaf of an id in a state. Only instructions that the walk made give values to ids. -/
def leaf? (s : RunState) (id : Id) (n : Nat) : Option Lanes :=
  match t.finish.ids.get id with
  | .ok (.tree tree) => (tree.leaves[n]?).bind fun r => if r < t.count then (s.registers[r]?).join else none
  | .ok (.constant k) => ((t.finish.leafWords k)[n]?).map .ofWords
  | _ => none

/-- A register takes a value at the beginning of a stretch: if it is that of a phi which is read when
control enters the block, that is what it reads, and it has the value behind the phis. -/
structure Takes (q : Stretch) (r : Register) (x : Lanes) : Prop where
  reads : r ∈ f.phis (f.code q.visit.block) →
    ∃ source, f.phiSource? q.visit.entered.previous r = some source ∧
      (q.visit.entered.registers[source.value]?).join = some x
  holds : ∀ u, f.stateAt? t.count q.visit.block q.behindPhis q.visit.entered = some u →
    (u.registers[r]?).join = some x

/-- Control passes from one stretch to the next, and every leaf of a phi of the next takes the value that
the same leaf of the id listed for the first had when control left it. -/
def HandsOver (p q : Stretch) : Prop :=
  ∃ u code, t.left? f p = some u ∧ t.finish.blocks[p.source]? = some code ∧
    ∀ code', t.finish.blocks[q.source]? = some code' → ∀ i ∈ code'.code, i.op = .opPhi →
      ∃ id pairs value tree, i.operand 1 = .ok id ∧ Code.phiPairs i = .ok pairs ∧
        Code.listedValue? pairs code.label = some value ∧ t.finish.ids.get id = .ok (.tree tree) ∧
        ∀ n r x, tree.leaves[n]? = some r → t.leaf? u value n = some x → t.Takes f q r x

/-- A function was finished whose branches stay inside and whose phis lead their blocks and list all
branches to them. -/
structure Settled (d c : Context) (index : Nat) (log : List Emission) : Prop where
  sound : t.Sound
  outlined : t.Of c index
  walked : t.Walked log
  resolves : ResolvesAll (phisOf t.finish t.source) t.arranged d
  awaits : Awaits t.arranged (phisOf t.finish t.source)
  inside : t.finish.BranchesInside t.source
  lists : ∀ x ∈ phisOf t.finish t.source, t.finish.ListsBranches x
  lead : ∀ code ∈ t.finish.blocks, code.LeadsWithPhis

end Tour

variable {t : Tour} {d c : Context} {index : Nat} {log es : List Emission} {e : Emission}
  {r : Register} {b : BlockId}

theorem Tour.head?_stretchesOn {f : Function} {visit : Visit} {q : Stretch}
    (hq : q ∈ (t.stretchesOn f visit (e :: es)).head?) :
    q.source = e.source ∧ q.visit = visit ∧ q.behindPhis = Structure.behindPhis e := by
  cases es <;> (cases hq; exact ⟨rfl, rfl, rfl⟩)

theorem getLast?_toList {α : Type} (o : Option α) : o.toList.getLast? = o := by
  cases o <;> rfl

theorem Tour.getLast?_stretchesOn {f : Function} {visit : Visit}
    (hleft : ∀ point, (f.stateAt? t.count visit.block point visit.entered).isSome) :
    (t.stretchesOn f visit es).getLast? =
      es.getLast?.map fun e => ⟨e.source, visit, Structure.behindPhis e, t.count⟩ := by
  induction es with
  | nil => rfl
  | cons e es ih =>
    cases es with
    | nil => rfl
    | cons e' es =>
      have hne : t.stretchesOn f visit (e' :: es) ≠ [] := by
        cases es <;> simp [stretchesOn]
      have hp : (t.left? f
          ⟨e.source, visit, Structure.behindPhis e, e'.start.fresh⟩).isSome := hleft _
      rw [stretchesOn, if_pos hp, getLast?_cons_of_ne_nil hne, ih, getLast?_cons_cons]

namespace Tour.Settled

variable (h : t.Settled d c index log)
include h

theorem settles : Settles t.arranged d := h.resolves.settles

theorem grounded : t.finish.Grounded :=
  (h.outlined.carries.trans h.sound.carries).grounded h.outlined.grounded

theorem ready : Ready t.arranged.module.types t.arranged where
  inRange := h.sound.inRange
  tidy := fun b _ r hr => by
    rw [t.code_arranged] at hr
    exact h.sound.leavesLast b r hr
  grounded := h.awaits.grounded
  types := .refl _
  nodup := fun _ => Function.nodup_preds_withFlow
  preds := fun _ _ => h.sound.pred_lt

theorem ascends (b : BlockId) : ((d.function.code b).filter (· < t.count)).Pairwise (· < ·) := by
  have horder := h.settles.function.order h.sound.inRange b
  rw [t.code_arranged] at horder
  change (d.function.code b).filter (· < t.count) = _ at horder
  rw [horder]
  refine h.walked.logged.steps.ascends h.sound.isOpen.inRange (fun b => ?_) b
  cases b <;> simp [Function.code, h.sound.blank.blocks]

/-- A phi in code that continues no other is wired to its sources. -/
theorem exists_resolved (he : e ∈ log) (hown : e.source ∈ t.source.blocks)
    (hbefore : e.before = none) {i : RawInstruction} (hi : i ∈ e.code.body) (hop : i.op = .opPhi) :
    ∃ id pairs made tree, i.operand 1 = .ok id ∧ Code.phiPairs i = .ok pairs ∧
      t.finish.ids.get id = .ok (.tree tree) ∧ Resolved d pairs made e.block tree := by
  obtain ⟨id, tree, hid, hpending, hget⟩ := h.sound.exists_pending h.walked he hi hop hbefore
  have hx : (e.source, i) ∈ phisOf t.finish t.source := PhiSources.mem_phisOf.mpr
    ⟨hown, e.code, h.walked.getElem?_blocks he, e.code.body_isPrefix.subset hi, hop⟩
  have hlead (b : BlockId) : t.arranged.function.PhisLead b := by
    refine h.sound.phisLead (.refl _) (fun code hcode => h.lead code ?_) b
    rwa [h.sound.carries.blocks]
  obtain ⟨y, hy, pairs, made, block, hid', hpairs, hplaced, hresolved⟩ :=
    h.awaits.exists_resolved h.ready hlead h.resolves hpending hx hid
  obtain ⟨rfl, rfl⟩ := h.outlined.eq_of_placed h.sound h.lead h.walked he hi hop hid hy hid' hplaced
  grind

theorem held {value : Id} {tree : Tree}
    (hheld : Held t.finish (t.finish.function.upToExit (t.finish.function.code b)) value tree) :
    Held d (d.function.upToExit (d.function.code b)) value tree := by
  refine PhiSources.held_settles h.ready h.settles ?_
  refine hheld.mono h.grounded (.refl _) rfl (.refl _) (fun _ _ hi => hi) fun r hr => ?_
  rw [t.code_arranged]
  exact hr

/-- Where a leaf of a value is to be found: in the same register, or where a constant is loaded. -/
theorem value_of_held {value : Id} {tree : Tree} {n : Nat} {u : RunState} {x : Lanes}
    (hheld : Held d (d.function.upToExit (d.function.code b)) value tree)
    (hn : tree.leaves[n]? = some r) (hx : t.leaf? u value n = some x) :
    (r < t.count ∧ (u.registers[r]?).join = some x) ∨
      (∃ k, t.finish.ids.get value = .ok (.constant k)) ∧
      ∃ words, d.function.instructions[r]? = some (.loadConst words) ∧
        r ∈ d.function.upToExit (d.function.code b) ∧ x = .ofWords words := by
  have hids : d.ids = t.finish.ids := h.settles.ids
  unfold Tour.leaf? at hx
  cases hheld with
  | tree hget =>
    simp_all
  | @constant k hget hloads =>
    rw [hids] at hget
    simp only [hget] at hx
    rw [h.grounded.leafWords_eq h.settles.constants h.settles.types (h.grounded.ids _ k hget)] at hloads
    obtain ⟨words, hwords, rfl⟩ := Option.map_eq_some_iff.mp hx
    obtain ⟨hlt, rfl⟩ := List.getElem?_eq_some_iff.mp hn
    obtain ⟨hlt', rfl⟩ := List.getElem?_eq_some_iff.mp hwords
    obtain ⟨hload, hmem⟩ := hloads.get hlt hlt'
    simp_all

/-! ### From code to the code that continues it -/

/-- Code that continues other code loads the constants that its phis stand for and makes nothing else for
them. -/
theorem loads_leading (he : e ∈ log) {label : Id}
    (hlabel : Structure.labelBefore e.start e.before = some label)
    (hle : e.start.fresh ≤ r) (hlt : r < Structure.behindPhis e) :
    r ∈ d.function.upToExit (d.function.code e.block) ∧
      ∃ words, d.function.instructions[r]? = some (.loadConst words) := by
  obtain ⟨hmem, words, hload⟩ := h.sound.loads_leading h.walked he hlabel hle hlt
  refine ⟨h.settles.function.upToExit h.sound.inRange e.block r ?_, words,
    h.settles.function.getElem?_instructions hload rfl⟩
  rw [t.code_arranged]
  exact hmem

/-- A phi in code that continues other code has the value that is listed. -/
theorem handsOver_within {e' : Emission} (he : e ∈ log) (he' : e' ∈ log)
    (hbefore : e'.before = some e.source) {p q : Stretch} (hblock : e'.block = q.visit.block)
    (hsize : q.visit.entered.registers.size = d.fresh)
    (hloads : d.function.HoldsLoads q.visit.entered) (hleft : (t.left? d.function p).isSome)
    (hpsource : p.source = e.source) (hpvisit : p.visit = q.visit)
    (hppoint : p.point = e'.start.fresh) (hqsource : q.source = e'.source)
    (hbehind : q.behindPhis = Structure.behindPhis e') : t.HandsOver d.function p q := by
  obtain ⟨u, hu⟩ := Option.isSome_iff_exists.mp hleft
  refine ⟨u, e.code, hu, hpsource ▸ h.walked.getElem?_blocks he, fun code' hcode' i hi hop => ?_⟩
  rw [left?, hpvisit, hppoint] at hu
  obtain rfl : e'.code = code' := by
    rw [hqsource, h.walked.getElem?_blocks he'] at hcode'
    exact Option.some_inj.mp hcode'
  have hlead := h.lead _ (Array.mem_of_getElem? hcode')
  have hlabel : Structure.labelBefore e'.start e'.before = some e.code.label := by
    have hcode := h.walked.getElem?_blocks he
    rw [h.sound.carries.blocks, ← (h.walked.logged.made e' he').2.1.continues.blocks] at hcode
    simp [Structure.labelBefore, hbefore, hcode]
  obtain ⟨id, pairs, value, tree, hid, hpairs, hlisted, hget, hheld, htree⟩ :=
    h.sound.exists_held h.walked he' (hlead.mem_body hi hop) hop hlead
      (h.outlined.carries.grounded h.outlined.grounded) hlabel
  refine ⟨id, pairs, value, tree, hid, hpairs, hlisted, hget, fun n r x hn hx => ?_⟩
  rw [hblock] at hheld
  -- a constant that is loaded for one of the phis is there behind them
  have hconstant {words : List Word} (hmem : r ∈ d.function.upToExit (d.function.code q.visit.block))
      (hload : d.function.instructions[r]? = some (.loadConst words))
      (hlt : r < Structure.behindPhis e') : t.Takes d.function q r (.ofWords words) := by
    refine ⟨fun hphi => ?_, fun w hw => ?_⟩
    · obtain ⟨sources, lanes, hi⟩ := Function.isPhiAt_iff.mp (mem_takeWhile_imp hphi)
      cases hload.symm.trans hi
    · have hin : r < q.visit.entered.registers.size := by
        rw [hsize]
        exact (Array.getElem?_eq_some_iff.mp hload).1
      rw [hbehind] at hw
      rw [Function.load_of_stateAt? (h.ascends _) hw hmem hload hlt hin]
      rfl
  rcases h.value_of_held (h.held hheld) hn hx with ⟨hlt, hr⟩ | ⟨⟨k, hk⟩, words, hload, hmem, rfl⟩
  · by_cases hbetween : e'.start.fresh ≤ r ∧ r < Structure.behindPhis e'
    · obtain ⟨hmem, words, hload⟩ := h.loads_leading he' hlabel hbetween.1 hbetween.2
      rw [hloads.stateAt? hu r words x hload hr]
      simp_all
    · refine ⟨fun hphi => ?_, fun w hw => ?_⟩
      · obtain ⟨source, lanes, hphiSource, hlanes, htaken⟩ := Function.takes_of_stateAt? hu hphi
        have hin : r < q.visit.entered.registers.size := by
          obtain ⟨sources, lanes, hi⟩ := Function.isPhiAt_iff.mp (mem_takeWhile_imp hphi)
          rw [hsize]
          exact (Array.getElem?_eq_some_iff.mp hi).1
        simp_all
      · rw [hbehind] at hw
        rw [Function.registers_stateAt?_of_le (h.ascends _) hu hw ?_ ?_]
        · exact hr
        · exact (h.walked.logged.made e' he').1.size_le_behindPhis
        grind
  · rcases htree with hget' | hlt
    · cases hk.symm.trans hget'
    · exact hconstant hmem hload (hlt r (mem_of_getElem? hn))

/-- On one visit, each block of the stream hands over to the next. -/
theorem isChain_stretchesOn {visit : Visit}
    (hsize : visit.entered.registers.size = d.fresh)
    (hloads : d.function.HoldsLoads visit.entered) {before : Option Nat}
    (hes : ∀ e ∈ es, e ∈ log ∧ e.block = visit.block) (hchained : Structure.Chained before es) :
    (t.stretchesOn d.function visit es).IsChain (t.HandsOver d.function) := by
  induction es generalizing before with
  | nil => exact .nil
  | cons e es ih =>
    cases es with
    | nil => exact .singleton _
    | cons e' es =>
      obtain ⟨he', hblock⟩ := hes e' (by simp)
      have hrest := ih (fun e he => hes e (mem_cons_of_mem _ he)) hchained.2
      rw [Tour.stretchesOn]
      split
      · refine hrest.cons fun q hq => ?_
        obtain ⟨hsource, rfl, hbehind⟩ := head?_stretchesOn hq
        exact h.handsOver_within (hes e (by simp)).1 he' hchained.2.1 hblock hsize hloads ‹_› rfl rfl rfl
          hsource hbehind
      · exact .singleton _

end Tour.Settled

/-! ### From block to block -/

/-- After a run left the code of a stretch, it has left a block, maybe after passing through empty ones, and
whatever supplies a value for the stretch there has it. -/
structure Carried (t : Tour) (d : Context) (l : Stretch) (u : RunState) (b : BlockId) (s : RunState) :
    Prop where
  left : t.left? d.function l = some u
  previous : s.previous = some b
  exit : d.function.exit? b ≠ some .return
  /-- Nothing that the walk made has been carried out since. -/
  registers : ∀ r < t.count, s.registers[r]? = u.registers[r]?
  /-- Control leaves the block as the block of the stream, or as none. -/
  ends : ∀ source ∈ t.finish.ends.lookup b, source = l.source
  supplies : ∀ pairs made block phi, Resolved d pairs made block phi → ∀ code value,
    t.finish.blocks[l.source]? = some code → Code.listedValue? pairs code.label = some value →
    ∀ tree, Supplies d pairs made b tree → ∀ n r x, tree.leaves[n]? = some r →
      t.leaf? u value n = some x → (s.registers[r]?).join = some x

section Reads

variable {l : Stretch} {u s : RunState} {b b' block : BlockId} {pairs : List (Id × Id)} {made : Made}
  {phi tree : Tree} {code : SourceBlock} {value : Id}

/-- A tree of phis that is wired to its sources reads what was carried to the block before. -/
theorem Carried.reads (hcarried : Carried t d l u b s) (hresolved : Resolved d pairs made block phi)
    (hcode : t.finish.blocks[l.source]? = some code)
    (hlisted : Code.listedValue? pairs code.label = some value)
    (hfilled : Filled d pairs made b' tree) (hlength : tree.leaves.length = phi.leaves.length)
    (hb : b ∈ d.function.preds b') {n : Nat} {x : Lanes} (hn : tree.leaves[n]? = some r)
    (hx : t.leaf? u value n = some x) :
    ∃ source, d.function.phiSource? s.previous r = some source ∧
      (s.registers[source.value]?).join = some x := by
  obtain ⟨tree', hsupplies, hwired⟩ := hfilled.sourced b hb
  have hlength' := hresolved.length_of_supplies hsupplies hcarried.exit
  obtain ⟨hlt, -⟩ := List.getElem?_eq_some_iff.mp hn
  have hn' : tree'.leaves[n]? = some (tree'.leaves[n]) := List.getElem?_eq_getElem _
  refine ⟨⟨b, _⟩, ?_, hcarried.supplies pairs made block phi hresolved code value hcode hlisted tree'
    hsupplies n _ x hn' hx⟩
  rw [hcarried.previous]
  exact hwired n r _ hn hn'

end Reads

namespace Tour.Settled

variable (h : t.Settled d c index log) {l : Stretch} {u s s' : RunState} {b b₀ : BlockId}
  {jump : Option Jump}
include h

/-- After a block has run, the value that is listed for the block of the stream as which control leaves it
is there. -/
theorem carried_of_execBlock (hleft : t.left? d.function l = some u)
    (hexec : d.function.execBlock b s = .ok jump s')
    (hsize : s.registers.size = d.fresh) (hexit : d.function.exit? b ≠ some .return)
    (hregisters : ∀ r < t.count, s'.registers[r]? = u.registers[r]?)
    (hends : ∀ source ∈ t.finish.ends.lookup b, source = l.source)
    (hmade : ∀ pairs made block phi, Resolved d pairs made block phi → ∀ code value,
      t.finish.blocks[l.source]? = some code → Code.listedValue? pairs code.label = some value →
      d.listed? pairs b = none → ∀ tree, (b, tree) ∈ made → ∀ n r x, tree.leaves[n]? = some r →
        t.leaf? u value n = some x → (s'.registers[r]?).join = some x) :
    Carried t d l u b s' := by
  obtain ⟨v, v', htakes, hcarries, rfl, -⟩ := Function.execBlock_eq_ok hexec
  refine ⟨hleft, rfl, hexit, hregisters, hends, ?_⟩
  intro pairs made block phi hresolved code value hcode hlisted tree hsupplies n r x hn hx
  cases hsupplies with
  | @listed value' hlisted' hheld =>
    obtain ⟨source, code', hend, hcode', hvalue⟩ := Context.listed?_eq_some.mp hlisted'
    rw [h.settles.ends] at hend
    rw [h.settles.blocks, hends source hend] at hcode'
    cases hcode.symm.trans hcode'
    cases hlisted.symm.trans hvalue
    rcases h.value_of_held (hheld hexit) hn hx with ⟨hlt, hr⟩ | ⟨-, words, hload, hmem, rfl⟩
    · rw [hregisters r hlt]
      exact hr
    · have hin : r < v.registers.size := by
        rw [htakes.size, hsize]
        exact (Array.getElem?_eq_some_iff.mp hload).1
      have hr := hcarries.loads r words hmem hload hin
      simp only [hr, Option.join_some]
  | made hlisted' hmem =>
    grind

theorem jump_of_mem_code (hempty : Structure.madeIn log b = []) (hr : r ∈ d.function.code b)
    (hlt : r < t.count) : ∃ j, d.function.instructions[r]? = some (.jump j) := by
  have hfinish : r ∈ t.finish.function.code b := by
    rw [← t.code_arranged, ← h.settles.function.order h.sound.inRange b]
    exact mem_filter.mpr ⟨hr, decide_eq_true hlt⟩
  have hblocks : ∀ e ∈ log, e.block ≠ b := by
    intro e he hb
    have := filter_eq_nil_iff.mp hempty e he
    simp [hb] at this
  rcases h.walked.jump_of_mem hblocks hfinish with hstart | ⟨j, hj⟩
  · cases b <;> simp [Function.code, h.sound.blank.blocks] at hstart
  · exact ⟨j, h.settles.function.getElem?_instructions hj rfl⟩

/-- An empty block hands on what is carried to it. -/
theorem carried_pass (hcarried : Carried t d l u b₀ s) (hempty : Structure.madeIn log b = [])
    (hb : b₀ ∈ d.function.preds b) (hexec : d.function.execBlock b s = .ok jump s')
    (hsize : s.registers.size = d.fresh) (hexit : d.function.exit? b ≠ some .return)
    (hends : ∀ source ∈ t.finish.ends.lookup b, source = l.source) : Carried t d l u b s' := by
  refine h.carried_of_execBlock hcarried.left hexec hsize hexit (fun r hlt => ?_) hends ?_
  · obtain ⟨v, v', htakes, hcarries, rfl, -⟩ := Function.execBlock_eq_ok hexec
    have hphis : r ∉ d.function.phis (d.function.code b) := fun hmem => by
      obtain ⟨j, hj⟩ := h.jump_of_mem_code hempty (( takeWhile_prefix _).subset hmem) hlt
      obtain ⟨sources, lanes, hi⟩ := Function.isPhiAt_iff.mp (mem_takeWhile_imp hmem)
      cases hj.symm.trans hi
    have hcode : r ∉ d.function.upToExit (d.function.code b) := fun hmem => by
      obtain ⟨j, hj⟩ := h.jump_of_mem_code hempty (( takeWhile_prefix _).subset hmem) hlt
      have := mem_takeWhile_imp hmem
      simp [Function.exitAt, hj, Instruction.exit?] at this
    exact (hcarries.keeps r (.inl hcode)).trans ((htakes.keeps r hphis).trans (hcarried.registers r hlt))
  · intro pairs made block phi hresolved code value hcode hlisted _ tree hmem n r x hn hx
    have hfilled := hresolved.trees _ hmem
    obtain ⟨source, hsource, hlanes⟩ := hcarried.reads hresolved hcode hlisted hfilled
      (hresolved.length _ hmem) hb hn hx
    have hphi := hfilled.phis r (mem_of_getElem? hn)
    obtain ⟨v, v', htakes, hcarries, rfl, -⟩ := Function.execBlock_eq_ok hexec
    obtain ⟨source', lanes, hsource', hlanes', htaken⟩ := htakes.takes r hphi
    cases hsource.symm.trans hsource'
    cases hlanes.symm.trans hlanes'
    have hisPhi := Function.isPhiAt_iff.mp (mem_takeWhile_imp hphi)
    have hin : r < s.registers.size := by
      obtain ⟨sources, lanes, hi⟩ := hisPhi
      rw [hsize]
      exact (Array.getElem?_eq_some_iff.mp hi).1
    have hr := (hcarries.keeps r (.inr hisPhi)).trans (htaken hin)
    simp only [hr, Option.join_some]

/-- A block with code of the stream carries what is listed for the last of it. -/
theorem carried_of_visit (visit : Visit) (hblock : visit.block = b) (hentered : visit.entered = s)
    (hexec : d.function.execBlock b s = .ok jump s')
    (hsize : s.registers.size = d.fresh)
    (hexit : d.function.exit? b ≠ some .return) (hend : t.finish.ends.lookup b = some e.source) :
    ∃ u, Carried t d ⟨e.source, visit, Structure.behindPhis e, t.count⟩ u b s' := by
  obtain ⟨u, hu, rfl⟩ := Function.stateAt?_of_execBlock hexec t.count
  refine ⟨u, h.carried_of_execBlock ?_ hexec hsize hexit (fun _ _ => rfl) (fun source hsource => ?_) ?_⟩
  · rw [Tour.left?, hblock, hentered]
    exact hu
  · simp_all
  · intro pairs made block phi _ code value hcode hlisted hnone
    have hlisted' : d.listed? pairs b = some value := Context.listed?_eq_some.mpr
      ⟨e.source, code, by rwa [h.settles.ends], by rwa [h.settles.blocks], hlisted⟩
    cases hnone.symm.trans hlisted'

/-- A phi that is read when control enters its block takes what was carried there. -/
theorem handsOver_across (he : e ∈ log) (hown : e.source ∈ t.source.blocks)
    (hbefore : e.before = none) (hcarried : Carried t d l u b₀ s)
    (hb : b₀ ∈ d.function.preds e.block) (hbranch : t.finish.Branches l.source e.source)
    (hsize : s.registers.size = d.fresh) {q : Stretch}
    (hsource : q.source = e.source) (hblock : q.visit.block = e.block)
    (hentered : q.visit.entered = s) : t.HandsOver d.function l q := by
  obtain ⟨code, hcode, htarget⟩ := hbranch
  refine ⟨u, code, hcarried.left, hcode, fun code' hcode' i hi hop => ?_⟩
  obtain rfl : e.code = code' := by
    rw [hsource, h.walked.getElem?_blocks he] at hcode'
    exact Option.some_inj.mp hcode'
  have hbody := (h.lead _ (Array.mem_of_getElem? hcode')).mem_body hi hop
  obtain ⟨id, pairs, made, tree, hid, hpairs, hget, hresolved⟩ := h.exists_resolved he hown hbefore hbody hop
  have hx : (e.source, i) ∈ phisOf t.finish t.source :=
    PhiSources.mem_phisOf.mpr ⟨hown, e.code, h.walked.getElem?_blocks he, hi, hop⟩
  obtain ⟨code', value, hcode'', hlisted⟩ := (h.lists _ hx).exists_listed hpairs ⟨code, hcode, htarget⟩
  cases hcode.symm.trans hcode''
  refine ⟨id, pairs, value, tree, hid, hpairs, hlisted, hget, fun n r x hn hx => ?_⟩
  have hreads := hcarried.reads hresolved hcode hlisted hresolved.filled rfl hb hn hx
  subst hentered
  refine ⟨fun _ => hreads, fun w hw => ?_⟩
  obtain ⟨source, hphiSource, hlanes⟩ := hreads
  rw [hblock] at hw
  have hphi := hresolved.filled.phis r (mem_of_getElem? hn)
  obtain ⟨source', lanes, hphiSource', hlanes', htaken⟩ := Function.takes_of_stateAt? hw hphi
  cases hphiSource.symm.trans hphiSource'
  cases hlanes.symm.trans hlanes'
  have hin : r < q.visit.entered.registers.size := by
    obtain ⟨sources, lanes, hi⟩ := Function.isPhiAt_iff.mp (mem_takeWhile_imp hphi)
    rw [hsize]
    exact (Array.getElem?_eq_some_iff.mp hi).1
  rw [htaken hin]
  rfl

end Tour.Settled

/-! ### Branches and edges -/

section Branches

variable {v : Chart} {blocks : List Nat} {scope : Scope} {s s' : Nat} {chain : List Nat} {region : Region}
  {left : RunState}

theorem Context.BranchesInside.mem {f : SourceFunction} (h : c.BranchesInside f) (hs : s ∈ f.blocks)
    (hbranch : c.Branches s s') : s' ∈ f.blocks := by
  obtain ⟨code, hcode, htarget⟩ := hbranch
  exact h s hs code hcode s' htarget

theorem Laid.source_mem (h : Laid v scope s chain region)
    (hinside : ∀ s ∈ blocks, ∀ s', v.context.Branches s s' → s' ∈ blocks) (hs : s ∈ blocks) :
    ∀ x ∈ chain, x ∈ blocks := by
  induction h with
  | branch hbranch _ ih =>
    intro x hx
    rcases mem_cons.mp hx with rfl | hx
    · exact hs
    · exact ih (hinside _ hs _ hbranch.branches) x hx
  | leave => simpa using hs
  | cond => simpa using hs
  | _ => simp

theorem Chart.Leads.branches (h : v.Leads left s chain s') :
    ∀ x ∈ chain.getLast?, v.context.Branches x s' := by
  induction h with
  | here => simp
  | @branch _ _ _ _ hbranch hrest ih =>
    intro x hx
    cases hrest with
    | here =>
      cases hx
      exact hbranch.branches
    | branch => simp_all
    | fork => simp_all
  | @fork _ _ _ _ _ hfork =>
    intro x hx
    cases hx
    split
    · exact hfork.branches.1
    · exact hfork.branches.2

theorem Chart.Leads.source_mem (h : v.Leads left s chain s')
    (hinside : ∀ s ∈ blocks, ∀ s', v.context.Branches s s' → s' ∈ blocks) (hs : s ∈ blocks) :
    s' ∈ blocks := by
  induction h with
  | here => exact hs
  | branch hbranch _ ih => exact ih (hinside _ hs _ hbranch.branches)
  | fork hfork =>
    refine hinside _ hs _ ?_
    split
    · exact hfork.branches.1
    · exact hfork.branches.2

theorem Laid.all_jumpsSoundly (h : Laid v scope s chain region) (htidy : v.function.Tidy) {inLoop : Bool}
    (hscope : ∀ t j, scope.jump? t = some j → inLoop = true) :
    region.All v.function.JumpsSoundly inLoop := by
  have hnone {inLoop : Bool} {b : BlockId} (hexit : v.function.exit? b = none) :
      v.function.JumpsSoundly inLoop b := fun j hj => by
    cases hexit.symm.trans hj
  induction h generalizing inLoop with
  | stop _ hexit => exact hnone hexit
  | jump hjump hexit =>
    intro j hj hreturn
    cases hexit.symm.trans hj
    exact ⟨htidy.jump?_eq hexit hreturn, hscope _ _ hjump⟩
  | branch _ _ ih => exact ih hscope
  | leave _ hexit =>
    intro j hj hreturn
    simp_all
  | cond _ hexit _ _ _ _ _ _ _ ihtrue ihfalse ihrest =>
    exact ⟨hnone hexit, ihtrue hscope, ihfalse hscope, ihrest hscope⟩
  | loop hexit _ _ _ _ ihbody ihrest => exact ⟨hnone hexit, ihbody fun _ _ _ => rfl, ihrest hscope⟩

theorem Arrives.mono {p : ShaderIR.Position} {last : Option Nat} (h : Arrives v none s p) : Arrives v last s p := by
  obtain ⟨hlaid, mark, hmarked, hmark⟩ := h
  exact ⟨hlaid, mark, hmarked, .inl (hmark.elim id id)⟩

end Branches

namespace Tour.Settled

variable (h : t.Settled d c index log)
include h

theorem flowsAt : d.function.FlowsAt { region := d.function.body } :=
  ⟨none, none, ⟨List.Subset.refl _, (h.sound.laid h.settles).all_jumpsSoundly
    (h.settles.function.tidy h.sound.inRange h.ready.tidy) nofun⟩, .nil⟩

theorem mem_preds_of_mem_edges {a : BlockId} (hedge : (a, b) ∈ d.function.edges) :
    a ∈ d.function.preds b := by
  have hlt : b < d.function.blocks.size := by
    refine (h.sound.mem_blocks_iff h.settles).mp ?_
    rcases (Region.mem_edges hedge).2 with hb | hb
    · exact hb
    · simp at hb
  rw [← (h.sound.isStructured h.settles).current]
  exact ((Function.preds_withFlow_spec hlt).1 a).mpr hedge

theorem phiSource?_ne_none {b₀ : BlockId} (hr : r ∈ d.function.phis (d.function.code b))
    (hb : b₀ ∈ d.function.preds b)
    (hown : ∀ e ∈ Structure.madeIn log b, e.source ∈ t.source.blocks) :
    d.function.phiSource? (some b₀) r ≠ none := by
  have hadvances := h.awaits.advances.resolvesAll h.awaits (List.Subset.refl _) h.resolves
  have hcode := ( takeWhile_prefix _).subset hr
  rcases hadvances.phis b r hcode (mem_takeWhile_imp hr) with
    ⟨sources, lanes, hi, hpreds⟩ | ⟨p, hp, hleaf⟩
  · rw [h.settles.function.preds, ← hpreds] at hb
    obtain ⟨source, hsource, rfl⟩ := mem_map.mp hb
    simp only [Function.phiSource?, hi, ne_eq, find?_eq_none, not_forall]
    exact ⟨source, hsource, by simp⟩
  · -- a phi that still waits for its sources stands in code of another function
    obtain ⟨e, he, -, i, hi, hop, hwaits⟩ := h.sound.exists_waits h.walked (hadvances.pending hp)
    have hold := hadvances.old b r hcode (hwaits.lt hleaf)
    rw [t.code_arranged] at hold
    obtain rfl := (hwaits.holds r hleaf b).mp hold
    have hx : (e.source, i) ∈ phisOf t.finish t.source := PhiSources.mem_phisOf.mpr
      ⟨hown e (mem_filter.mpr ⟨he, by simp⟩), e.code, h.walked.getElem?_blocks he,
        e.code.body_isPrefix.subset hi, hop⟩
    exact (h.resolves.pendingPhis.2 _ hx p hp hwaits.operand).elim

end Tour.Settled

/-! ### Whole runs -/

/-- A run is about to carry on from a block of the stream, and `last` is the last stretch behind it. -/
structure Underway (t : Tour) (d : Context) (last : Option Stretch) (s : Nat) (p : ShaderIR.Position)
    (entered : RunState) : Prop where
  arrives : Arrives (t.chart d.function) (last.map (·.source)) s p
  flows : d.function.FlowsAt p
  own : s ∈ t.source.blocks
  size : entered.registers.size = d.function.instructions.size
  loads : d.function.HoldsLoads entered
  previous : ∀ b ∈ entered.previous, b ∈ d.function.preds p.region.head
  carried : ∀ l ∈ last, ∃ u b, Carried t d l u b entered ∧ t.finish.Branches l.source s

namespace Tour.Settled

variable (h : t.Settled d c index log) {last : Option Stretch} {s : Nat} {p q : ShaderIR.Position}
  {entered left : RunState}
include h

theorem sourcesIn_log (b : BlockId) :
    sourcesIn (t.chart d.function).log b = (Structure.madeIn log b).map (·.source) := by
  rw [← Structure.sourcesIn_map_entry, ← Tour.log_eq h.walked]
  rfl

theorem underway (machine : Machine) :
    Underway t d none t.entry { region := d.function.body } (machine.start d.function) where
  arrives := h.sound.arrives h.settles
  flows := h.flowsAt
  own := mem_of_head? h.sound.entry
  size := by simp [Machine.start]
  loads := fun r words lanes _ hlanes => by
    simp [Machine.start, Array.getElem?_replicate, Option.join_eq_some_iff] at hlanes
  previous := nofun
  carried := nofun

section

variable (hu : Underway t d last s p entered)
include hu

theorem source_mem : ∀ e ∈ Structure.madeIn log p.region.head, e.source ∈ t.source.blocks := by
  intro e he
  obtain ⟨⟨scope, hlaid, -⟩, -⟩ := hu.arrives
  refine hlaid.source_mem (fun s hs s' hbranch => h.inside.mem hs hbranch) hu.own e.source ?_
  rw [h.sourcesIn_log]
  exact mem_map_of_mem he

theorem isChain_visit (left : RunState) :
    (last.toList ++ t.stretchesOn d.function ⟨p.region.head, entered, left⟩
      (Structure.madeIn log p.region.head)).IsChain (t.HandsOver d.function) := by
  have hchained := h.walked.chained h.sound.isOpen.lt p.region.head
  rw [ite_self] at hchained
  have hmem : ∀ e ∈ Structure.madeIn log p.region.head, e ∈ log ∧ e.block = p.region.head := fun e he => by
    simpa [Structure.madeIn] using he
  refine isChain_append.mpr
    ⟨?_, h.isChain_stretchesOn hu.size hu.loads hmem hchained, fun l hl q hq => ?_⟩
  · cases last
    · exact .nil
    · exact .singleton _
  have hown := h.source_mem hu
  obtain ⟨⟨scope, hlaid, -⟩, -⟩ := hu.arrives
  rw [h.sourcesIn_log] at hlaid
  generalize Structure.madeIn log p.region.head = es at *
  cases es with
  | nil => cases hq
  | cons e es =>
    obtain ⟨hsource, hvisit, -⟩ := head?_stretchesOn hq
    obtain ⟨he, hblock⟩ := hmem e (mem_cons_self ..)
    obtain rfl : e.source = s := hlaid.head_eq rfl
    obtain ⟨u, b, hcarried, hbranch⟩ := hu.carried l (by rwa [getLast?_toList] at hl)
    refine h.handsOver_across he (hown e (mem_cons_self ..)) hchained.1 hcarried ?_ hbranch hu.size
      hsource ?_ ?_
    · rw [hblock]
      exact hu.previous b hcarried.previous
    · rw [hvisit, hblock]
    · rw [hvisit]

theorem ne_missingPhiSource {e : EvalError}
    (henter : d.function.enter p entered = .error e left) (r : Register) (b : BlockId) :
    e ≠ .missingPhiSource r (some b) := by
  rcases hu.flows.error_of_enter henter with ⟨r, rfl⟩ | ⟨r, hr, hnone, rfl⟩
  · simp
  · intro heq
    obtain ⟨-, hprevious⟩ := EvalError.missingPhiSource.inj heq
    rw [hprevious] at hnone
    exact h.phiSource?_ne_none hr (hu.previous b hprevious) (h.source_mem hu) hnone

theorem underway_next
    (henter : d.function.enter p entered = .ok (some q) left) :
    ∃ s', Underway t d ((t.stretchesOn d.function ⟨p.region.head, entered, left⟩
      (Structure.madeIn log p.region.head)).getLast?.or last) s' q left := by
  obtain ⟨hexec, hnext⟩ := Function.enter_eq_ok.mp henter
  have hstates (point : Nat) :
      (d.function.stateAt? t.count p.region.head point entered).isSome := by
    obtain ⟨w, hw⟩ := Function.exists_stateAt? hexec t.count point
    simp [hw]
  have hexit : d.function.exit? p.region.head ≠ some .return := fun hexit => by
    rw [hexit] at hnext
    cases (pure_eq_ok.mp hnext).1
  obtain ⟨⟨scope, hlaid, hstack⟩, mark, hmarked, hmark⟩ := hu.arrives
  obtain ⟨q', s', hq, hleads, harrives⟩ | ⟨hq, -⟩ := hlaid.next hstack
    (fun id r hexit hholds => hholds.lanes?_eq hexit hu.size hexec) hnext
  · cases hq
    obtain ⟨hedge, hflows⟩ := hu.flows.enter henter
    have hsize := (Function.size_of_execBlock hexec).trans hu.size
    have hloads := hu.loads.execBlock hexec
    have hprevious : left.previous = some p.region.head := by
      obtain ⟨_, _, -, -, rfl, -⟩ := Function.execBlock_eq_ok hexec
      rfl
    have hown := hleads.source_mem (fun s hs s' hbranch => h.inside.mem hs hbranch) hu.own
    have hpreds : ∀ b ∈ left.previous, b ∈ d.function.preds q.region.head := fun b hb => by
      rw [hprevious] at hb
      cases hb
      exact h.mem_preds_of_mem_edges hedge
    rw [Chart.Marked, h.sourcesIn_log] at hmarked
    rw [h.sourcesIn_log] at hleads harrives
    rw [Tour.getLast?_stretchesOn hstates]
    rcases eq_nil_or_concat (Structure.madeIn log p.region.head) with hes | ⟨es, e, hes⟩
    · rw [hes] at hleads harrives hmarked
      cases hleads
      rw [hes]
      refine ⟨s, harrives.mono, hflows, hown, hsize, hloads, hpreds, fun l hl => ?_⟩
      obtain ⟨u, b, hcarried, hbranch⟩ := hu.carried l hl
      refine ⟨u, _, h.carried_pass hcarried hes (hu.previous b hcarried.previous) hexec hu.size hexit
        fun source hsource => ?_, hbranch⟩
      -- control leaves an arm without code as the block of the stream before it
      have hmarked : some source = mark := hsource.symm.trans hmarked
      rcases hmark with rfl | rfl
      · cases hmarked
      simp_all
    · rw [hes, concat_eq_append] at hleads harrives hmarked ⊢
      simp only [map_append, map_cons, map_nil, getLast?_concat, Option.map_some,
        Option.some_or] at hleads harrives hmarked ⊢
      refine ⟨s', harrives, hflows, hown, hsize, hloads, hpreds, fun l hl => ?_⟩
      cases hl
      obtain ⟨u, hcarried⟩ := h.carried_of_visit ⟨p.region.head, entered, left⟩ rfl rfl hexec
        hu.size hexit hmarked
      exact ⟨u, _, hcarried, hleads.branches e.source (by simp)⟩
  · cases hq

end

/-- Each stretch of a run hands over to the next, and no phi lacks a source for the block that control came
from. -/
theorem run (limit steps : Nat) (hu : Underway t d last s p entered) :
    (last.toList ++ t.stretches d.function log (d.function.visits steps p entered)).IsChain
        (t.HandsOver d.function) ∧
      ∀ e final, d.function.execFrom limit steps p entered = .error e final →
        ∀ r b, e ≠ .missingPhiSource r (some b) := by
  induction steps generalizing last s p entered with
  | zero =>
    refine ⟨?_, fun e final hrun => ?_⟩
    · cases last
      · exact .nil
      · exact .singleton _
    · cases hrun
      simp
  | succ steps ih =>
    have hvisit := h.isChain_visit hu
    cases henter : d.function.enter p entered with
    | error e left =>
      rw [Function.visits, henter, Function.execFrom, bind_of_error henter]
      refine ⟨?_, fun e' final hrun => ?_⟩
      · simpa [Tour.stretches] using hvisit left
      · cases hrun
        exact h.ne_missingPhiSource hu henter
    | ok q left =>
      rw [Function.visits, henter, Function.execFrom, bind_of_ok henter]
      cases q with
      | none =>
        refine ⟨?_, fun e' final hrun => ?_⟩
        · simpa [Tour.stretches] using hvisit left
        · cases hrun
      | some q =>
        obtain ⟨s', hu'⟩ := h.underway_next hu henter
        obtain ⟨hchain, herrors⟩ := ih hu'
        refine ⟨?_, herrors⟩
        simp only [Tour.stretches, flatMap_cons]
        rw [← append_assoc, isChain_append]
        rw [isChain_append] at hchain
        refine ⟨hvisit left, hchain.2.1, fun l hl => hchain.2.2 l ?_⟩
        rw [getLast?_toList]
        rwa [getLast?_append, getLast?_toList] at hl

end Tour.Settled

theorem Carries.mem_branchTargets {c' : Context} (h : Carries c c') {code : SourceBlock} {target : Nat} :
    target ∈ c'.branchTargets code ↔ target ∈ c.branchTargets code := by
  simp only [Context.mem_branchTargets, h.block_eq_ok]

/-- If branches stay inside their functions, phis lead their blocks and list all blocks that branch there,
and values have as many leaves as their phis, then in every run of a function, each block of the stream
that is passed hands over to the next: what is listed for it is what the phis of the next take. No phi
lacks a source for the block that control came from. -/
theorem phis_take_listed_values {options : Options} {words : List Word} {m : Module} {c : Context}
    {index : Nat} {f : Function} (hread : (readModule options words).result = .ok m)
    (houtline : outline? options words = some c) (hf : m.functions[index]? = some f)
    (hbranches : ∀ g ∈ c.functions, c.BranchesInside g) (hlead : ∀ code ∈ c.blocks, code.LeadsWithPhis)
    (hlists : ∀ g ∈ c.functions, ∀ x ∈ phisOf c g, c.ListsBranches x)
    (hfits : ∀ index t, tour? options words index = some t → t.PhisFit) :
    ∃ t, tour? options words index = some t ∧ (∃ log, t.Walked log) ∧
      ∀ log, t.Walked log → ∀ machine : Machine,
        (t.stretches f log (machine.visits f)).IsChain (t.HandsOver f) ∧
          ∀ r b, (machine.run f).1 ≠ some (.missingPhiSource r (some b)) := by
  obtain ⟨t, d, htour, hresolves, rfl⟩ := exists_tour hread hf
  obtain ⟨c', houtline', hof⟩ := exists_outline htour
  obtain rfl : c' = c := Option.some_inj.mp (houtline'.symm.trans houtline)
  have hsound := sound_of_tour? htour
  have hsource := Array.mem_of_getElem? hof.source
  have hcarries := hof.carries.trans hsound.carries
  refine ⟨t, htour, hsound.walks, fun log hlog machine => ?_⟩
  have hlead' : ∀ code ∈ t.finish.blocks, code.LeadsWithPhis := by rwa [hcarries.blocks]
  have hphis : phisOf t.finish t.source = phisOf c' t.source := by
    unfold phisOf
    rw [hcarries.blocks]
  have hsettled : t.Settled d c' index log :=
    { sound := hsound
      outlined := hof
      walked := hlog
      resolves := hresolves
      awaits := hof.awaits hsound hlog (hfits index t htour) fun p hp x hx hid block hplaced =>
        hof.waits_of_leadsWithPhis hsound hlead' hlog hp hx hid hplaced
      inside := fun s hs code hcode target htarget => by
        rw [hcarries.blocks] at hcode
        exact hbranches _ hsource s hs code hcode target (hcarries.mem_branchTargets.mp htarget)
      lists := fun x hx s hs code hcode htarget => by
        rw [hcarries.blocks] at hs hcode
        rw [hphis] at hx
        exact hlists _ hsource x hx s hs code hcode (hcarries.mem_branchTargets.mp htarget)
      lead := hlead' }
  obtain ⟨hchain, herrors⟩ := hsettled.run machine.stepLimit machine.stepLimit (hsettled.underway machine)
  refine ⟨hchain, fun r b hrun => ?_⟩
  unfold Machine.run at hrun
  grind

theorem phis_take_listed_values_returnInLoop :
    ∃ m c f t, (readModule {} returnInLoop).result = .ok m ∧ outline? {} returnInLoop = some c ∧
      (∀ g ∈ c.functions, c.BranchesInside g) ∧ (∀ code ∈ c.blocks, code.LeadsWithPhis) ∧
      (∀ g ∈ c.functions, ∀ x ∈ phisOf c g, c.ListsBranches x) ∧ m.functions[0]? = some f ∧
      tour? {} returnInLoop 0 = some t ∧ t.PhisFit ∧ (∃ log, t.Walked log) ∧
      ∀ log, t.Walked log → ∀ machine : Machine,
        (t.stretches f log (machine.visits f)).IsChain (t.HandsOver f) ∧
          ∀ r b, (machine.run f).1 ≠ some (.missingPhiSource r (some b)) := by
  have h : hasFunction {} returnInLoop 0 := by decide +kernel
  obtain ⟨m, f, hread, hf⟩ := exists_of_hasFunction h
  obtain ⟨c, houtline⟩ := exists_outline_of_readModule hread
  have hc : ∀ c ∈ outline? {} returnInLoop, (∀ g ∈ c.functions, c.BranchesInside g) ∧
      (∀ code ∈ c.blocks, code.LeadsWithPhis) ∧
      (∀ g ∈ c.functions, ∀ x ∈ phisOf c g, c.ListsBranches x) ∧
      ∀ index < c.functions.size, ∀ t ∈ tour? {} returnInLoop index, t.PhisFit := by decide +kernel
  obtain ⟨hbranches, hlead, hlists, hfits⟩ := hc c houtline
  have hfits : ∀ index t, tour? {} returnInLoop index = some t → t.PhisFit :=
    fun _ _ ht => hfits _ (index_lt_of_tour? houtline ht) _ ht
  obtain ⟨t, htour, hruns⟩ := phis_take_listed_values hread houtline hf hbranches hlead hlists hfits
  grind

end ShaderIR.Spirv
