import Mathlib.Data.List.Forall2
import Mathlib.Logic.Relation
import Mathlib.Tactic.Common
import ShaderIR.Proofs.Mirrors
import ShaderIR.Proofs.Quiet
import ShaderIR.Proofs.Roots

/-!
# What making code does

A computation that makes code takes few kinds of steps: it reports, gives ids their meaning, adds
types and variables, builds trees, and puts instructions at its spot. Everything that making code
leaves alone, and everything it keeps, follows from what one step does.

A bench is the state of lowering with the trees that a computation has come by: those it built, those
that ids stand for, and parts and known transposes of these.
-/

namespace ShaderIR.Spirv

open EStateM List Lower

variable {α β : Type} {c c' : Context}

/-- The state of lowering with the trees that a computation has come by. -/
structure Bench where
  context : Context
  trees : List Tree := []

/-- The instruction that builds a vector from single lanes of registers. -/
def gatherInstruction (lanes : List (Register × Word)) : Instruction :=
  .alu (.ofLanes lanes.length) (lanes.map fun (r, i) => .lane r i.toUInt8) lanes.length

/-- Each column of `t` is put together from one row of `m`. -/
structure Gathered (f : Function) (m t : Tree) : Prop where
  columns : 1 ≤ m.leaves.length ∧ m.leaves.length ≤ 4
  rows : 1 ≤ t.leaves.length ∧ t.leaves.length ≤ 4
  /-- The first column of `m` has a lane for each row. -/
  height : ∀ r ∈ m.leaves.head?, ∃ i, f.instructions[r]? = some i ∧ i.lanes = t.leaves.length
  gather : ∀ (row : Nat) (r : Register), t.leaves[row]? = some r →
    f.instructions[r]? = some (gatherInstruction (m.leaves.map fun column => (column, row.toUInt32)))

/-- What code gives an id for a meaning: a value or a pointer. -/
def Value.IsLocal (v : Value) : Prop := (∃ t, v = .tree t) ∨ ∃ p, v = .pointer p

theorem IdTable.get_or_isLocal_of_define {ids ids' : IdTable} {id other : Id} {v w : Value}
    (h : ids.define id v = .ok ids') (hv : v.IsLocal) (hget : ids'.get other = .ok w) :
    ids.get other = .ok w ∨ w.IsLocal := by
  rcases eq_or_get_of_define h hget with ⟨-, rfl⟩ | hget
  · exact .inr hv
  · exact .inl hget

/-- One step of making code at a spot, where only certain instructions are put in. -/
inductive EmitStep (kinds : Instruction → Prop) (spot : Spot) : Bench → Bench → Prop
  | report {c ts} (e : Event) : EmitStep kinds spot ⟨c, ts⟩ ⟨{ c with events := e :: c.events }, ts⟩
  | define {c ts id v ids} : c.ids.define id v = .ok ids → (∀ t, v = .tree t → t ∈ ts) →
      v.IsLocal → (∀ p, v = .pointer p → c.HasRoot p.place.root) →
      EmitStep kinds spot ⟨c, ts⟩ ⟨{ c with ids }, ts⟩
  | types {c ts types} : c.module.types.Extends types →
      EmitStep kinds spot ⟨c, ts⟩ ⟨{ c with module := { c.module with types } }, ts⟩
  | declare {c ts var owned} : (∀ k ∈ var.init, ∃ id, c.ids.get id = .ok (.constant k)) →
      (owned = true → var.mode = .functionLocal) →
      EmitStep kinds spot ⟨c, ts⟩ ⟨c.withVariable var owned, ts⟩
  | leaf {c ts} (ty : TypeId) (r : Register) :
      EmitStep kinds spot ⟨c, ts⟩ ⟨{ c with nextKey := c.nextKey + 1 }, .leaf c.nextKey ty r :: ts⟩
  | node {c ts} (ty : TypeId) {children : List Tree} : (∀ t ∈ children, t ∈ ts) →
      EmitStep kinds spot ⟨c, ts⟩ ⟨{ c with nextKey := c.nextKey + 1 }, .node c.nextKey ty children :: ts⟩
  /-- Comes by the tree that an id stands for. -/
  | named {c ts id t} : c.ids.get id = .ok (.tree t) → EmitStep kinds spot ⟨c, ts⟩ ⟨c, t :: ts⟩
  /-- Comes by a part of a tree. -/
  | child {c ts key ty children t} : Tree.node key ty children ∈ ts → t ∈ children →
      EmitStep kinds spot ⟨c, ts⟩ ⟨c, t :: ts⟩
  /-- Comes by the known transpose of a tree. -/
  | known {c ts m t} : m ∈ ts → c.transposes.lookup m.key = some t →
      EmitStep kinds spot ⟨c, ts⟩ ⟨c, t :: ts⟩
  | instruction {c ts i} : kinds i → c.Admits i →
      EmitStep kinds spot ⟨c, ts⟩ ⟨{ c with function := (c.function.insert spot i).2 }, ts⟩
  /-- Remembers that a matrix and a new tree are transposes of each other. -/
  | transposed {c ts m t} : m ∈ ts → t ∈ ts → Gathered c.function m t →
      EmitStep kinds spot ⟨c, ts⟩ ⟨{ c with transposes := (m.key, t) :: (t.key, m) :: c.transposes }, ts⟩
  /-- Remembers a phi whose sources are to be filled in. -/
  | pend {c ts id t lanes} : kinds (.phi [] lanes) → c.ids.get id = .ok (.tree t) →
      EmitStep kinds spot ⟨c, ts⟩ ⟨{ c with pendingPhis := (id, t) :: c.pendingPhis }, ts⟩

/-- Any number of steps of making code at a spot. -/
def Emits (kinds : Instruction → Prop) (spot : Spot) : Bench → Bench → Prop :=
  Relation.ReflTransGen (EmitStep kinds spot)

variable {kinds kinds' : Instruction → Prop} {spot : Spot} {b b' b'' : Bench} {f : α → Emit β} {ts : List Tree}

namespace Emits

@[refl] protected theorem refl (b : Bench) : Emits kinds spot b b := Relation.ReflTransGen.refl

protected theorem trans (h : Emits kinds spot b b') (h' : Emits kinds spot b' b'') :
    Emits kinds spot b b'' := Relation.ReflTransGen.trans h h'

protected theorem single (h : EmitStep kinds spot b b') : Emits kinds spot b b' := Relation.ReflTransGen.single h

theorem trees (h : Emits kinds spot b b') {t : Tree} (ht : t ∈ b.trees) : t ∈ b'.trees := by
  induction h with
  | refl => exact ht
  | tail _ hstep ih => cases hstep <;> first | exact ih | exact mem_cons_of_mem _ ih

theorem children {key : Nat} {ty : TypeId} (h : Tree.node key ty ts ∈ b.trees) :
    Emits kinds spot b ⟨b.context, ts ++ b.trees⟩ := by
  suffices ∀ l, (∀ t ∈ l, t ∈ ts) → Emits kinds spot b ⟨b.context, l ++ b.trees⟩ from
    this ts fun _ ht => ht
  intro l hl
  induction l with
  | nil => exact .refl b
  | cons t l ih =>
    refine (ih fun t ht => hl t (mem_cons_of_mem _ ht)).trans (.single ?_)
    exact .child (mem_append_right _ h) (hl t (mem_cons_self ..))

theorem mono (hk : ∀ i, kinds i → kinds' i) (h : Emits kinds spot b b') : Emits kinds' spot b b' := by
  refine Relation.ReflTransGen.mono (fun a a' hstep => ?_) _ _ h
  cases hstep with
  | report e => exact .report e
  | define h hv hk hp => exact .define h hv hk hp
  | types h => exact .types h
  | declare hinit howned => exact .declare hinit howned
  | leaf ty r => exact .leaf ty r
  | node ty h => exact .node ty h
  | named h => exact .named h
  | child h ht => exact .child h ht
  | known h ht => exact .known h ht
  | instruction hi hc => exact .instruction (hk _ hi) hc
  | transposed hm ht h => exact .transposed hm ht h
  | pend hlanes h => exact .pend (hk _ hlanes) h

end Emits

/-! ### What making code keeps -/

/-- What holds of the states before and after functions are made: ids keep their meanings and types their
numbers, and the constants and the blocks of the stream stay. -/
structure Carries (c c' : Context) : Prop where
  blocks : c'.blocks = c.blocks
  functions : c'.functions = c.functions
  ids : c.ids.Extends c'.ids
  /-- Further ids come to stand for values and pointers only. -/
  newIds : ∀ id v, c'.ids.get id = .ok v → c.ids.get id = .ok v ∨ v.IsLocal
  types : c.module.types.Extends c'.module.types
  constants : c'.module.constants = c.module.constants

namespace Carries

variable {c c' c'' : Context}

protected theorem refl (c : Context) : Carries c c := ⟨rfl, rfl, .refl _, fun _ _ => .inl, .refl _, rfl⟩

protected theorem trans (h : Carries c c') (h' : Carries c' c'') : Carries c c'' where
  blocks := h'.blocks.trans h.blocks
  functions := h'.functions.trans h.functions
  ids := h.ids.trans h'.ids
  newIds := fun id v hget => (h'.newIds id v hget).elim (h.newIds id v) .inr
  types := h.types.trans h'.types
  constants := h'.constants.trans h.constants

theorem knows (h : Carries c c') {id : Id} (hc : c.Knows id) : c'.Knows id := by
  obtain ⟨v, hv⟩ := hc
  exact ⟨v, h.ids id v hv⟩

theorem get_of_not_isLocal (h : Carries c c') {id : Id} {v : Value} (hget : c'.ids.get id = .ok v)
    (hv : ¬v.IsLocal) : c.ids.get id = .ok v := (h.newIds id v hget).resolve_right hv

end Carries

/-- What holds of the states before and after code is made at a spot: the function under construction has
only gained instructions at the spot. -/
structure Grows (kinds : Instruction → Prop) (spot : Spot) (c c' : Context) : Prop extends Carries c c' where
  options : c'.options = c.options
  entryPoints : c'.entryPoints = c.entryPoints
  ends : c'.ends = c.ends
  placed : c'.placed = c.placed
  conditionals : c'.conditionals = c.conditionals
  loops : c'.loops = c.loops
  moduleFunctions : c'.module.functions = c.module.functions
  vars : c.module.vars.size ≤ c'.module.vars.size
  rooted : c.Rooted → c'.Rooted
  nextKey : c.nextKey ≤ c'.nextKey
  pendingPhis : (∀ lanes, ¬kinds (.phi [] lanes)) → c'.pendingPhis = c.pendingPhis
  function : ∃ is locals, (∀ i ∈ is, kinds i) ∧ c'.function = { c.function.insertAll spot is with locals }

namespace Grows

variable {c c' c'' : Context}

protected theorem refl (c : Context) : Grows kinds spot c c where
  __ := Carries.refl c
  options := rfl
  entryPoints := rfl
  ends := rfl
  placed := rfl
  conditionals := rfl
  loops := rfl
  moduleFunctions := rfl
  vars := Nat.le_refl _
  rooted := id
  nextKey := Nat.le_refl _
  pendingPhis := fun _ => rfl
  function := ⟨[], c.function.locals, by simp, rfl⟩

theorem insertAll_locals (f : Function) (spot : Spot) (locals : List VariableId) (is : List Instruction) :
    { f with locals }.insertAll spot is = { f.insertAll spot is with locals } := by
  induction is generalizing f with
  | nil => rfl
  | cons i is ih => exact ih (f.insert spot i).2

protected theorem trans (h : Grows kinds spot c c') (h' : Grows kinds spot c' c'') : Grows kinds spot c c'' where
  __ := h.toCarries.trans h'.toCarries
  options := h'.options.trans h.options
  entryPoints := h'.entryPoints.trans h.entryPoints
  ends := h'.ends.trans h.ends
  placed := h'.placed.trans h.placed
  conditionals := h'.conditionals.trans h.conditionals
  loops := h'.loops.trans h.loops
  moduleFunctions := h'.moduleFunctions.trans h.moduleFunctions
  vars := Nat.le_trans h.vars h'.vars
  rooted := h'.rooted ∘ h.rooted
  nextKey := Nat.le_trans h.nextKey h'.nextKey
  pendingPhis := fun hk => (h'.pendingPhis hk).trans (h.pendingPhis hk)
  function := by
    obtain ⟨is, locals, his, hf⟩ := h.function
    obtain ⟨is', locals', his', hf'⟩ := h'.function
    refine ⟨is ++ is', locals', ?_, ?_⟩
    · grind
    · rw [hf', hf, insertAll_locals, Function.insertAll_append]

theorem weaken (h : Grows kinds spot c c') (hk : ∀ i, kinds i → kinds' i) : Grows kinds' spot c c' where
  __ := h
  pendingPhis := fun hphi => h.pendingPhis fun lanes hlanes => hphi lanes (hk _ hlanes)
  function := by
    obtain ⟨is, locals, his, hf⟩ := h.function
    exact ⟨is, locals, fun i hi => hk i (his i hi), hf⟩

variable (h : Grows kinds spot c c')
include h

theorem instructions : ∃ is : List Instruction, (∀ i ∈ is, kinds i) ∧
    c'.function.instructions = c.function.instructions ++ is.toArray := by
  obtain ⟨is, locals, his, hf⟩ := h.function
  refine ⟨is, his, ?_⟩
  rw [hf]
  exact Function.insertAll_instructions

theorem getElem?_instructions {r : Register} {i : Instruction}
    (hi : c.function.instructions[r]? = some i) : c'.function.instructions[r]? = some i := by
  obtain ⟨is, -, hf⟩ := h.instructions
  grind

theorem mirrors {t : Tree} {depth : Nat} {s : Shape} (ht : t.MirrorsWithin c depth s) :
    t.MirrorsWithin c' depth s := by
  refine ht.mono (Nat.le_refl depth) h.types ?_
  rintro r n ⟨i, hi, hn⟩
  exact ⟨i, h.getElem?_instructions hi, hn⟩

theorem precedes : c.module.Precedes c'.module where
  types := h.types
  constants := fun _ _ hk => by rwa [h.constants]

theorem size_instructions : c.function.instructions.size ≤ c'.function.instructions.size := by
  obtain ⟨is, -, hf⟩ := h.instructions
  simp [hf]

theorem size_blocks : c'.function.blocks.size = c.function.blocks.size := by
  obtain ⟨is, locals, -, hf⟩ := h.function
  rw [hf]
  exact Function.insertAll_size

theorem returnVar : c'.function.returnVar = c.function.returnVar := by
  obtain ⟨is, locals, -, hf⟩ := h.function
  rw [hf]
  exact Function.insertAll_returnVar

theorem hasRoot {v : VariableId} (hv : c.HasRoot v) : c'.HasRoot v := by
  rcases hv with hlt | ⟨id, p, hget, hp⟩ | hreturn
  · exact .inl (Nat.lt_of_lt_of_le hlt h.vars)
  · exact .inr (.inl ⟨id, p, h.ids id _ hget, hp⟩)
  · exact .inr (.inr (h.returnVar.trans hreturn))

theorem code_of_ne {b : BlockId} (hb : b ≠ spot.block) : c'.function.code b = c.function.code b := by
  obtain ⟨is, locals, -, hf⟩ := h.function
  rw [hf]
  exact Function.code_insertAll_of_ne hb

theorem inRange (hr : c.function.InRange) : c'.function.InRange := by
  obtain ⟨is, locals, -, hf⟩ := h.function
  rw [hf]
  exact Function.InRange.insertAll hr

theorem exit? (hr : c.function.InRange) (hk : ∀ i, kinds i → i.exit? = none) (b : BlockId) :
    c'.function.exit? b = c.function.exit? b := by
  obtain ⟨is, locals, his, hf⟩ := h.function
  rw [hf]
  exact Function.exit?_insertAll hr fun i hi => hk i (his i hi)

end Grows

theorem EmitStep.grows (h : EmitStep kinds spot b b') : Grows kinds spot b.context b'.context := by
  cases h with
  | @define c _ id _ ids hdef _ hlocal hroot =>
    refine { @Grows.refl kinds spot c with
      ids := IdTable.extends_of_define hdef
      newIds := fun _ _ => IdTable.get_or_isLocal_of_define hdef hlocal
      rooted := fun hc => hc.define hdef (fun p hp => hc.lt_of_hasRoot (hroot p hp)) fun k hk => ?_ }
    subst hk
    rcases hlocal with ⟨t, ht⟩ | ⟨p, hp⟩
    · cases ht
    · cases hp
  | @types c ts types hext =>
    exact { @Grows.refl kinds spot c with
      types := hext
      rooted := fun hc => ⟨hc.pointers, hc.constants, hc.initials, hc.functions, hc.function⟩ }
  | @declare c _ var owned hinit howned =>
    exact { @Grows.refl kinds spot c with
      vars := by simp [Context.withVariable]
      rooted := fun hc => hc.withVariable
        (fun k hk => (hinit k hk).elim fun id hid => hc.constants id k hid) howned
      function := ⟨[], (c.withVariable var owned).function.locals, by simp, by cases owned <;> rfl⟩ }
  | @leaf c | @node c =>
    exact { @Grows.refl kinds spot c with nextKey := Nat.le_succ _, rooted := fun hc => { hc with } }
  | @instruction c _ i hi hadmits =>
    exact { @Grows.refl kinds spot c with
      rooted := fun hc => hc.insert spot hadmits
      function := ⟨[i], c.function.locals, by simpa using hi, rfl⟩ }
  | @report c
  | @transposed c => exact { @Grows.refl kinds spot c with rooted := fun hc => { hc with } }
  | @pend c _ _ _ _ hlanes =>
    exact { @Grows.refl kinds spot c with
      rooted := fun hc => { hc with }
      pendingPhis := fun hk => (hk _ hlanes).elim }
  | named => exact .refl _
  | child => exact .refl _
  | known => exact .refl _

theorem Emits.grows (h : Emits kinds spot b b') : Grows kinds spot b.context b'.context := by
  induction h with
  | refl => exact .refl _
  | tail _ hstep ih => exact ih.trans hstep.grows

/-! ### Computations that make code -/

/-- A computation gives no id a meaning: if it succeeds, it has only made code at a spot, and its answer
has a property; if it fails, no id is found to be defined twice. -/
structure Ensures (kinds : Instruction → Prop) (spot : Spot) (b : Bench) (m : Lower α)
    (Q : Bench → α → Prop) : Prop where
  ok : ∀ a c, m b.context = .ok a c → ∃ b', b'.context = c ∧ Emits kinds spot b b' ∧ b.context.Still c ∧ Q b' a
  error : ∀ e c, m b.context = .error e c → b.context.Still c ∧ e.redefined? = none

namespace Ensures

variable {m : Lower α} {Q R : Bench → α → Prop} {S : Bench → β → Prop}

theorem of_step {a : α} {c : Context} (hm : m b.context = .ok a c)
    (h : EmitStep kinds spot b ⟨c, ts⟩) (hstill : b.context.Still c) (hQ : Q ⟨c, ts⟩ a) :
    Ensures kinds spot b m Q where
  ok := by
    intro a' c' ha
    cases hm.symm.trans ha
    exact ⟨_, rfl, .single h, hstill, hQ⟩
  error := fun e c' he => by cases hm.symm.trans he

theorem coming_by (h : Emits kinds spot b ⟨b.context, ts⟩)
    (hm : Ensures kinds spot ⟨b.context, ts⟩ m Q) : Ensures kinds spot b m Q where
  ok := by
    intro a c ha
    obtain ⟨b', hc, hb', hQ⟩ := hm.ok a c ha
    exact ⟨b', hc, h.trans hb', hQ⟩
  error := hm.error

protected theorem throw (e : Error) (he : e.redefined? = none) : Ensures kinds spot b (throw e : Lower α) Q where
  ok := fun _ _ h => (throw_eq_ok.mp h).elim
  error := by
    intro e' c h
    cases h
    exact ⟨.refl _, he⟩

protected theorem meaningless (why : Meaningless) :
    Ensures kinds spot b (Lower.meaningless why : Lower α) Q := .throw _ rfl

variable {f : α → Lower β}

protected theorem bind (hm : Ensures kinds spot b m Q)
    (hf : ∀ b' a, Emits kinds spot b b' → Q b' a → Ensures kinds spot b' (f a) S) :
    Ensures kinds spot b (m >>= f) S where
  ok := by
    intro a c h
    obtain ⟨x, d, hx, ha⟩ := bind_eq_ok.mp h
    obtain ⟨b₁, rfl, hb₁, hstill₁, hQ⟩ := hm.ok x d hx
    obtain ⟨b₂, hc, hb₂, hstill₂, hS⟩ := (hf b₁ x hb₁ hQ).ok a c ha
    exact ⟨b₂, hc, hb₁.trans hb₂, hstill₁.trans hstill₂, hS⟩
  error := by
    intro e c h
    rcases bind_eq_error.mp h with h | ⟨x, d, hx, h⟩
    · exact hm.error e c h
    · obtain ⟨b₁, rfl, hb₁, hstill₁, hQ⟩ := hm.ok x d hx
      exact ((hf b₁ x hb₁ hQ).error e c h).imp_left hstill₁.trans

theorem of_peeks [hm : Lower.Peeks m] (hQ : ∀ a, m b.context = .ok a b.context → Q b a) :
    Ensures kinds spot b m Q where
  ok := by
    intro a c h
    obtain rfl := hm.looks h
    exact ⟨b, rfl, .refl b, .refl _, hQ a h⟩
  error := fun _ _ h => (Lower.Quiet.of_peeks hm).error h

protected theorem pure {a : α} (h : Q b a) : Ensures kinds spot b (pure a) Q := by
  refine of_peeks fun a' ha => ?_
  obtain ⟨rfl, -⟩ := pure_eq_ok.mp ha
  exact h

theorem look [Lower.Peeks m] (hf : ∀ a, m b.context = .ok a b.context → Ensures kinds spot b (f a) S) :
    Ensures kinds spot b (m >>= f) S := by
  refine .bind (Q := fun b' a => b' = b ∧ m b.context = .ok a b.context) ?_ ?_
  · exact of_peeks fun a ha => ⟨rfl, ha⟩
  · rintro _ a - ⟨rfl, ha⟩
    exact hf a ha

theorem mono (hm : Ensures kinds spot b m Q)
    (hR : ∀ b' a, Emits kinds spot b b' → Q b' a → R b' a) : Ensures kinds spot b m R where
  ok := by
    intro a c h
    obtain ⟨b', hc, hb', hstill, hQ⟩ := hm.ok a c h
    exact ⟨b', hc, hb', hstill, hR b' a hb' hQ⟩
  error := hm.error

theorem quiet (hm : ∀ c, Ensures kinds spot ⟨c, []⟩ m Q) : Lower.Quiet m where
  ok := by
    intro c a c' h
    obtain ⟨-, -, -, hstill, -⟩ := (hm c).ok a c' h
    exact hstill
  error := fun c e c' h => (hm c).error e c' h

theorem weaken (hm : Ensures kinds spot b m Q) (hk : ∀ i, kinds i → kinds' i) : Ensures kinds' spot b m Q where
  ok := by
    intro a c h
    obtain ⟨b', hc, hb', hrest⟩ := hm.ok a c h
    exact ⟨b', hc, hb'.mono hk, hrest⟩
  error := hm.error

theorem trivially (hm : Ensures kinds spot b m Q) : Ensures kinds spot b m fun _ _ => True :=
  hm.mono fun _ _ _ _ => True.intro

theorem forM {f : α → Lower PUnit} (l : List α)
    (hf : ∀ a ∈ l, ∀ b', Emits kinds spot b b' → Ensures kinds spot b' (f a) fun _ _ => True) :
    Ensures kinds spot b (l.forM f) fun _ _ => True := by
  induction l generalizing b with
  | nil => exact .pure trivial
  | cons a l ih =>
    refine .bind (hf a (mem_cons_self ..) b (.refl b)) fun b₁ _ h₁ _ => ?_
    exact ih fun x hx b' hb' => hf x (mem_cons_of_mem _ hx) b' (h₁.trans hb')

theorem foldlM {γ : Type} {f : γ → α → Lower γ} {P : γ → Prop} (l : List α) {init : γ} (hinit : P init)
    (hf : ∀ acc, P acc → ∀ a ∈ l, ∀ b', Emits kinds spot b b' → Ensures kinds spot b' (f acc a) fun _ => P) :
    Ensures kinds spot b (l.foldlM f init) fun _ => P := by
  induction l generalizing b init with
  | nil => exact .pure hinit
  | cons a l ih =>
    rw [foldlM_cons]
    refine .bind (hf init hinit a (mem_cons_self ..) b (.refl b)) fun b₁ acc h₁ hacc => ?_
    exact ih hacc fun acc hacc x hx b' hb' =>
      hf acc hacc x (mem_cons_of_mem _ hx) b' (h₁.trans hb')

theorem forall_of_forall₂ {P : β → Prop} {l : List α} {xs : List β}
    (h : List.Forall₂ (fun _ x => P x) l xs) : ∀ x ∈ xs, P x := by
  induction h with
  | nil => simp
  | cons hx _ ih => simpa using ⟨hx, ih⟩

theorem exists_of_forall₂ {S : α → β → Prop} {l : List α} {k : Nat} {xs : List β} {x : β}
    (h : List.Forall₂ S l xs) (hk : xs[k]? = some x) : ∃ a, l[k]? = some a ∧ S a x := by
  obtain ⟨hlt, rfl⟩ := List.getElem?_eq_some_iff.mp hk
  have hlt' : k < l.length := h.length_eq ▸ hlt
  exact ⟨_, getElem?_eq_getElem hlt', h.get hlt' hlt⟩

theorem of_forall₂_range {S : Nat → β → Prop} {n k : Nat} {xs : List β} {x : β}
    (h : List.Forall₂ S (List.range n) xs) (hk : xs[k]? = some x) : S k x := by
  obtain ⟨i, hi, hx⟩ := exists_of_forall₂ h hk
  obtain ⟨_, rfl⟩ := List.getElem?_eq_some_iff.mp hi
  simpa using hx

theorem mapM {S : Bench → α → β → Prop} (hS : ∀ b b' a x, Emits kinds spot b b' → S b a x → S b' a x) (l : List α)
    (hf : ∀ a ∈ l, ∀ b', Emits kinds spot b b' → Ensures kinds spot b' (f a) (S · a)) :
    Ensures kinds spot b (l.mapM f) fun b' xs => List.Forall₂ (S b') l xs := by
  induction l generalizing b with
  | nil =>
    rw [mapM_nil]
    exact .pure .nil
  | cons a l ih =>
    rw [mapM_cons]
    refine .bind (hf a (mem_cons_self ..) b (.refl b)) fun b₁ x h₁ hx => ?_
    refine .bind (ih fun y hy b' hb' => hf y (mem_cons_of_mem _ hy) b' (h₁.trans hb')) fun b₂ xs h₂ hxs => ?_
    exact .pure (.cons (hS b₁ b₂ a x h₂ hx) hxs)

theorem trees {f : α → Lower Tree} (l : List α) (hf : ∀ a ∈ l, ∀ b', Emits kinds spot b b' →
      Ensures kinds spot b' (f a) fun b'' t => t ∈ b''.trees) :
    Ensures kinds spot b (l.mapM f) fun b' ts => ∀ t ∈ ts, t ∈ b'.trees := by
  refine (mapM (S := fun b _ t => t ∈ b.trees) (fun _ _ _ _ h ht => h.trees ht) l hf).mono ?_
  exact fun _ _ _ hts => forall_of_forall₂ hts

end Ensures

/-! ### Computations at a spot -/

namespace Emit

variable (spot : Spot)

theorem bind_at (x : Emit α) (f : α → Emit β) : (x >>= f) spot = x spot >>= fun a => f a spot := rfl

theorem pure_at (a : α) : (pure a : Emit α) spot = pure a := rfl

theorem bind_eq_ok {spot : Spot} {x : Emit α} {y : β} :
    (x >>= f) spot c = .ok y c' ↔ ∃ a d, x spot c = .ok a d ∧ f a spot d = .ok y c' :=
  EStateM.bind_eq_ok

theorem bind_of_ok {spot : Spot} {x : Emit α} {a : α} (h : x spot c = .ok a c') :
    (x >>= f) spot c = f a spot c' := EStateM.bind_of_ok h

theorem lift_of_ok {spot : Spot} {m : Lower α} {a : α} (h : m c = .ok a c') :
    ((liftM m : Emit α) >>= f) spot c = f a spot c' := bind_of_ok h

theorem size_le_of_ok {spot : Spot} {x : Emit α} {a : α} {n : Nat} (hx : x spot c = .ok a c')
    (h : (x spot c).state.function.instructions.size ≤ n) : c'.fresh ≤ n := by
  rwa [hx] at h

theorem bind_eq_error {spot : Spot} {x : Emit α} {e : Error} : (x >>= f) spot c = .error e c' ↔
      x spot c = .error e c' ∨ ∃ a d, x spot c = .ok a d ∧ f a spot d = .error e c' :=
  EStateM.bind_eq_error

theorem look_eq_ok {spot : Spot} {m : Lower α} {y : β} [hm : Lower.Peeks m] :
    ((liftM m : Emit α) >>= f) spot c = .ok y c' ↔ ∃ a, m c = .ok a c ∧ f a spot c = .ok y c' := by
  rw [bind_eq_ok]
  constructor
  · rintro ⟨a, d, ha, h⟩
    obtain rfl := hm.looks ha
    exact ⟨a, ha, h⟩
  · rintro ⟨a, ha, h⟩
    exact ⟨a, c, ha, h⟩

theorem getBind_eq_ok {spot : Spot} {f : Context → Emit β} {y : β} :
    ((get : Emit Context) >>= f) spot c = .ok y c' ↔ f c spot c = .ok y c' := by
  rw [bind_eq_ok]
  constructor
  · rintro ⟨a, d, ha, h⟩
    obtain ⟨rfl, rfl⟩ := get_eq_ok.mp ha
    exact h
  · exact fun h => ⟨c, c, rfl, h⟩

theorem mapM_at (f : α → Emit β) (l : List α) : (l.mapM f) spot = l.mapM fun a => f a spot := by
  induction l with
  | nil => rfl
  | cons a l ih =>
    simp only [mapM_cons, bind_at, pure_at, ih]

theorem forM_at (f : α → Emit PUnit) (l : List α) : (l.forM f) spot = l.forM fun a => f a spot := by
  induction l with
  | nil => rfl
  | cons a l ih =>
    change (f a spot >>= fun _ => (l.forM f) spot) = f a spot >>= fun _ => l.forM fun a => f a spot
    rw [ih]

theorem foldlM_at (f : β → α → Emit β) (l : List α) (init : β) :
    (l.foldlM f init) spot = l.foldlM (fun b a => f b a spot) init := by
  induction l generalizing init with
  | nil => rfl
  | cons a l ih =>
    simp only [foldlM_cons, bind_at, ih]

end Emit

/-- The same of a computation that is carried out at the spot. -/
def Makes (kinds : Instruction → Prop) (spot : Spot) (b : Bench) (x : Emit α)
    (Q : Bench → α → Prop) : Prop := Ensures kinds spot b (x spot) Q

namespace Makes

variable {x : Emit α} {m : Lower α} {Q R : Bench → α → Prop} {S : Bench → β → Prop}

theorem lift (hm : Ensures kinds spot b m Q) : Makes kinds spot b (liftM m : Emit α) Q := hm

protected theorem pure {a : α} (h : Q b a) : Makes kinds spot b (pure a) Q := Ensures.pure h

protected theorem throw (e : Error) (he : e.redefined? = none) :
    Makes kinds spot b (throw e : Emit α) Q := Ensures.throw e he

protected theorem meaningless (why : Meaningless) :
    Makes kinds spot b (liftM (Lower.meaningless why : Lower α) : Emit α) Q :=
  Ensures.meaningless why

protected theorem bind (hx : Makes kinds spot b x Q)
    (hf : ∀ b' a, Emits kinds spot b b' → Q b' a → Makes kinds spot b' (f a) S) :
    Makes kinds spot b (x >>= f) S := Ensures.bind hx hf

theorem look [Lower.Peeks m] (hf : ∀ a, m b.context = .ok a b.context → Makes kinds spot b (f a) S) :
    Makes kinds spot b ((liftM m : Emit α) >>= f) S := Ensures.look hf

protected theorem get {f : Context → Emit β} (hf : Makes kinds spot b (f b.context) S) :
    Makes kinds spot b ((get : Emit Context) >>= f) S := by
  refine Ensures.look (m := get) (f := fun c => f c spot) fun c hc => ?_
  obtain ⟨rfl, -⟩ := get_eq_ok.mp hc
  exact hf

protected theorem modify {f : Context → Context} (h : EmitStep kinds spot b ⟨f b.context, b.trees⟩)
    (hstill : b.context.Still (f b.context)) :
    Makes kinds spot b (modify f : Emit PUnit) fun b' _ => b' = ⟨f b.context, b.trees⟩ :=
  Ensures.of_step rfl h hstill rfl

theorem mono (hx : Makes kinds spot b x Q)
    (hR : ∀ b' a, Emits kinds spot b b' → Q b' a → R b' a) : Makes kinds spot b x R :=
  Ensures.mono hx hR

theorem trivially (hx : Makes kinds spot b x Q) : Makes kinds spot b x fun _ _ => True := Ensures.trivially hx

theorem coming_by (h : Emits kinds spot b ⟨b.context, ts⟩)
    (hx : Makes kinds spot ⟨b.context, ts⟩ x Q) : Makes kinds spot b x Q :=
  Ensures.coming_by h hx

theorem mapM {S : Bench → α → β → Prop} (hS : ∀ b b' a x, Emits kinds spot b b' → S b a x → S b' a x) (l : List α)
    (hf : ∀ a ∈ l, ∀ b', Emits kinds spot b b' → Makes kinds spot b' (f a) (S · a)) :
    Makes kinds spot b (l.mapM f) fun b' xs => List.Forall₂ (S b') l xs := by
  rw [Makes, Emit.mapM_at]
  exact .mapM hS l hf

theorem trees {f : α → Emit Tree} (l : List α) (hf : ∀ a ∈ l, ∀ b', Emits kinds spot b b' →
      Makes kinds spot b' (f a) fun b'' t => t ∈ b''.trees) :
    Makes kinds spot b (l.mapM f) fun b' ts => ∀ t ∈ ts, t ∈ b'.trees := by
  rw [Makes, Emit.mapM_at]
  exact .trees l hf

theorem each (l : List α)
    (hf : ∀ a ∈ l, ∀ b', Emits kinds spot b b' → Makes kinds spot b' (f a) fun _ _ => True) :
    Makes kinds spot b (l.mapM f) fun _ _ => True :=
  (mapM (S := fun _ _ _ => True) (fun _ _ _ _ _ h => h) l hf).trivially

theorem foldlM {γ : Type} {f : γ → α → Emit γ} {P : γ → Prop} (l : List α) {init : γ} (hinit : P init)
    (hf : ∀ acc, P acc → ∀ a ∈ l, ∀ b', Emits kinds spot b b' → Makes kinds spot b' (f acc a) fun _ => P) :
    Makes kinds spot b (l.foldlM f init) fun _ => P := by
  rw [Makes, Emit.foldlM_at]
  exact .foldlM l hinit hf

theorem forM {f : α → Emit PUnit} (l : List α)
    (hf : ∀ a ∈ l, ∀ b', Emits kinds spot b b' → Makes kinds spot b' (f a) fun _ _ => True) :
    Makes kinds spot b (l.forM f) fun _ _ => True := by
  rw [Makes, Emit.forM_at]
  exact .forM l hf

end Makes

/-! ### Computations that end with giving an id its meaning -/

/-- A computation makes code at a spot and ends with giving the id of the result of an instruction its
meaning. It fails for an id that is defined twice only if this id has a meaning already. -/
structure Lower.Gives (kinds : Instruction → Prop) (spot : Spot) (b : Bench) (i : RawInstruction)
    (m : Lower α) : Prop where
  ok : ∀ a c, m b.context = .ok a c → (∃ b', b'.context = c ∧ Emits kinds spot b b') ∧
    c.placed = b.context.placed ∧ ∃ id v, i.operand 1 = .ok id ∧ b.context.ids.define id v = .ok c.ids
  error : ∀ e c, m b.context = .error e c → b.context.Still c ∧
    ∀ id, e.redefined? = some id → i.operand 1 = .ok id ∧ b.context.Knows id

namespace Lower.Gives

variable {i : RawInstruction} {m : Lower α} {Q : Bench → α → Prop}

protected theorem throw (e : Error) (he : e.redefined? = none) : Gives kinds spot b i (throw e : Lower α) where
  ok := fun _ _ h => (throw_eq_ok.mp h).elim
  error := by
    intro e' c h
    cases h
    exact ⟨.refl _, fun id hid => by cases he.symm.trans hid⟩

protected theorem bind {f : α → Lower β} (hm : Ensures kinds spot b m Q)
    (hf : ∀ b' a, Emits kinds spot b b' → Q b' a → Gives kinds spot b' i (f a)) :
    Gives kinds spot b i (m >>= f) where
  ok := by
    intro a c h
    obtain ⟨x, d, hx, ha⟩ := bind_eq_ok.mp h
    obtain ⟨b₁, rfl, hb₁, hstill, hQ⟩ := hm.ok x d hx
    obtain ⟨⟨b₂, hc, hb₂⟩, hgives⟩ := (hf b₁ x hb₁ hQ).ok a c ha
    rw [hstill.ids, hstill.placed] at hgives
    exact ⟨⟨b₂, hc, hb₁.trans hb₂⟩, hgives⟩
  error := by
    intro e c h
    rcases bind_eq_error.mp h with h | ⟨x, d, hx, h⟩
    · obtain ⟨hstill, hnone⟩ := hm.error e c h
      simp_all
    · obtain ⟨b₁, rfl, hb₁, hstill, hQ⟩ := hm.ok x d hx
      obtain ⟨hstill', hid⟩ := (hf b₁ x hb₁ hQ).error e c h
      exact ⟨hstill.trans hstill', fun id hsome => (hid id hsome).imp_right hstill.knows_iff.mp⟩

theorem look {f : α → Lower β} [Peeks m] (hf : ∀ a, m b.context = .ok a b.context → Gives kinds spot b i (f a)) :
    Gives kinds spot b i (m >>= f) := by
  refine .bind (Q := fun b' a => b' = b ∧ m b.context = .ok a b.context) (.of_peeks fun a ha => ⟨rfl, ha⟩) ?_
  rintro _ a - ⟨rfl, ha⟩
  exact hf a ha

theorem weaken (hm : Gives kinds spot b i m) (hk : ∀ i, kinds i → kinds' i) : Gives kinds' spot b i m where
  ok := by
    intro a c h
    obtain ⟨⟨b', hc, hb'⟩, hgives⟩ := hm.ok a c h
    exact ⟨⟨b', hc, hb'.mono hk⟩, hgives⟩
  error := hm.error

end Lower.Gives

/-- The same of a computation that is carried out at the spot. -/
def Emit.Gives (kinds : Instruction → Prop) (spot : Spot) (b : Bench) (i : RawInstruction)
    (x : Emit α) : Prop := Lower.Gives kinds spot b i (x spot)

namespace Emit.Gives

variable {i : RawInstruction} {x : Emit α} {m : Lower α} {Q : Bench → α → Prop}

theorem lift (hm : Lower.Gives kinds spot b i m) : Gives kinds spot b i (liftM m : Emit α) := hm

protected theorem throw (e : Error) (he : e.redefined? = none) :
    Gives kinds spot b i (throw e : Emit α) := Lower.Gives.throw e he

protected theorem meaningless (why : Meaningless) :
    Gives kinds spot b i (liftM (Lower.meaningless why : Lower α) : Emit α) := Lower.Gives.throw _ rfl

protected theorem bind (hx : Makes kinds spot b x Q)
    (hf : ∀ b' a, Emits kinds spot b b' → Q b' a → Gives kinds spot b' i (f a)) :
    Gives kinds spot b i (x >>= f) := Lower.Gives.bind hx hf

theorem look [Lower.Peeks m] (hf : ∀ a, m b.context = .ok a b.context → Gives kinds spot b i (f a)) :
    Gives kinds spot b i ((liftM m : Emit α) >>= f) := Lower.Gives.look hf

theorem operand {f : Id → Emit β} (hf : ∀ id, i.operand 1 = .ok id → Gives kinds spot b i (f id)) :
    Gives kinds spot b i ((liftM (Lower.operand i 1) : Emit Id) >>= f) :=
  look fun id hid => hf id (operand_eq_ok.mp hid).1

end Emit.Gives

theorem IdTable.knows_of_define {ids : IdTable} {id id' : Id} {v : Value} {e : Error}
    (h : ids.define id v = .error e) (he : e.redefined? = some id') :
    id' = id ∧ ∃ w, ids.get id = .ok w := by
  unfold define at h
  unfold get
  cases hs : ids.slot id with
  | error e' =>
    simp only [hs, bind, Except.bind] at h
    cases h
    cases ((finds_slot id).redefined? ids e hs).symm.trans he
  | ok s =>
    simp only [hs, bind, Except.bind] at h ⊢
    cases hv : s.value with
    | some w =>
      simp only [hv] at h ⊢
      cases h
      cases he
      exact ⟨rfl, w, rfl⟩
    | none =>
      simp only [hv, update] at h
      split at h
      · cases h
      · cases h
        cases he

theorem gives_define {i : RawInstruction} {id : Id} {v : Value} (hid : i.operand 1 = .ok id)
    (hv : ∀ t, v = .tree t → t ∈ b.trees) (hlocal : v.IsLocal)
    (hroot : ∀ p, v = .pointer p → b.context.HasRoot p.place.root) :
    Gives kinds spot b i (define id v) where
  ok := by
    intro u c h
    obtain ⟨ids, hids, rfl⟩ := define_eq_ok.mp h
    exact ⟨⟨⟨_, b.trees⟩, rfl, .single (.define hids hv hlocal hroot)⟩, rfl, id, v, hid, hids⟩
  error := by
    intro e c h
    rcases bind_eq_error.mp h with hlookup | ⟨_, _, _, hmodify⟩
    · change ofExcept (b.context.ids.define id v) b.context = _ at hlookup
      cases hdefine : b.context.ids.define id v with
      | ok ids =>
        rw [hdefine] at hlookup
        cases hlookup
      | error e' =>
        rw [hdefine] at hlookup
        cases hlookup
        refine ⟨.refl _, fun id' hid' => ?_⟩
        obtain ⟨rfl, hknows⟩ := IdTable.knows_of_define hdefine hid'
        exact ⟨hid, hknows⟩
    · cases hmodify

/-! ### Trees and instructions -/

theorem Tree.mem_leavesOfList {r : Register} : r ∈ leavesOfList ts ↔ ∃ t ∈ ts, r ∈ t.leaves := by
  induction ts with
  | nil => simp [leavesOfList]
  | cons t ts ih => simp [leavesOfList, ih]

namespace Lower

theorem ensures_report (e : Event) : Ensures kinds spot b (report e) fun _ _ => True :=
  .of_step rfl (.report e) ⟨rfl, rfl⟩ trivial

theorem ensures_leaf (ty : TypeId) (r : Register) :
    Ensures kinds spot b (leaf ty r) fun b' t => t ∈ b'.trees ∧ t.leaves = [r] :=
  .of_step rfl (.leaf ty r) ⟨rfl, rfl⟩ ⟨by simp, by simp [Tree.leaves]⟩

/-- Trees that mirror the children of a shape make up a tree that mirrors it. -/
theorem ensures_node (ty : TypeId) (h : ∀ t ∈ ts, t ∈ b.trees) :
    Ensures kinds spot b (node ty ts) fun b' t => t ∈ b'.trees ∧ t.leaves = Tree.leavesOfList ts ∧
      ∀ depth s, b.context.module.types.shape? ty = some s → s.childCount? = some ts.length →
        (∀ i t, ts[i]? = some t → ∃ child, b.context.module.types.childShape? s i = some child ∧
          t.MirrorsWithin b.context depth child) → t.MirrorsWithin b'.context (depth + 1) s := by
  have hstep : EmitStep kinds spot b _ := .node ty h
  refine .of_step rfl hstep ⟨rfl, rfl⟩ ⟨mem_cons_self .., by rw [Tree.leaves], fun depth s hs hcount hts => ?_⟩
  refine ⟨hs, hcount, fun i t ht => ?_⟩
  obtain ⟨child, hchild, ht⟩ := hts i t ht
  exact ⟨child, hchild, (Emits.single hstep).grows.mirrors ht⟩

theorem ensures_keepTypes {found : Option (TypeId × Types)} {why : Meaningless}
    (h : ∀ ty types, found = some (ty, types) → b.context.module.types.Extends types) :
    Ensures kinds spot b (keepTypes found why) fun b' ty =>
      ∃ types, found = some (ty, types) ∧ b'.context.module.types = types := by
  cases found with
  | none => exact .meaningless why
  | some f =>
    obtain ⟨ty, types⟩ := f
    exact .of_step rfl (.types (h ty types rfl)) ⟨rfl, rfl⟩ ⟨types, rfl, rfl⟩

theorem ensures_childType (ty : TypeId) (index : Nat) : Ensures kinds spot b (childType ty index) fun b' child =>
      b.context.module.types.child? ty index = some (child, b'.context.module.types) := by
  refine .look fun c hc => ?_
  obtain ⟨rfl, -⟩ := get_eq_ok.mp hc
  refine (ensures_keepTypes fun child types h => Types.extends_of_child? h).mono ?_
  rintro b' child - ⟨types, h, rfl⟩
  exact h

theorem ensures_insertAt {i : Instruction} (hi : kinds i) (hc : b.context.Admits i) :
    Ensures kinds spot b (insertAt spot i) fun b' r =>
      b'.context.function.instructions[r]? = some i ∧ r = b.context.fresh :=
  .of_step rfl (.instruction hi hc) ⟨rfl, rfl⟩ ⟨by simp, rfl⟩

end Lower

namespace Emit

theorem makes_instruction {i : Instruction} (hi : kinds i) (hc : b.context.Admits i) :
    Makes kinds spot b (instruction i) fun b' r =>
      b'.context.function.instructions[r]? = some i ∧ r = b.context.fresh :=
  ensures_insertAt hi hc

/-- A tree that a computation has come by mirrors a shape, and its registers have a property. -/
structure Made (P : Bench → Register → Prop) (depth : Nat) (s : Shape) (b : Bench) (t : Tree) : Prop where
  mem : t ∈ b.trees
  registers : ∀ r ∈ t.leaves, P b r
  mirrors : t.MirrorsWithin b.context depth s

/-- The same with the shape that a type had on a bench before. -/
def MadeFor (P : Bench → Register → Prop) (depth : Nat) (b : Bench) (ty : TypeId) (b' : Bench) (t : Tree) : Prop :=
  ∃ s, b.context.module.types.shape? ty = some s ∧ Made P depth s b' t

section Made

variable {P : Bench → Register → Prop} (hP : ∀ b b' r, Emits kinds spot b b' → P b r → P b' r)
  {ty : TypeId} {s : Shape} {depth n : Nat}
include hP

theorem makes_leafFor {x : Emit Register} (hs : Lower.shape ty b.context = .ok s b.context) (hn : s.lanes? = some n)
    (hx : Makes kinds spot b x fun b' r => HasLanes b'.context r n ∧ P b' r) :
    Makes kinds spot b (do Lower.leaf ty (← x)) (MadeFor P (depth + 1) b ty) := by
  have hs := shape?_of_shape hs (by rintro rfl; cases hn)
  refine .bind hx fun b₁ r h₁ hr => ?_
  have hstep : EmitStep kinds spot b₁ _ := .leaf ty r
  refine .lift (.of_step rfl hstep ⟨rfl, rfl⟩ ⟨s, hs, mem_cons_self .., ?_, h₁.grows.types.shape? hs, n, hn, hr.1⟩)
  simpa [Tree.leaves] using hP _ _ r (.single hstep) hr.2

/-- Trees that are made for the children of a type make up a tree of the type. -/
theorem makes_nodeFor {f : Nat → TypeId → Emit Tree} (hs : Lower.shape ty b.context = .ok s b.context)
    (hcount : s.childCount? = some n)
    (hf : ∀ i child b', Emits kinds spot b b' → Makes kinds spot b' (f i child) (MadeFor P depth b' child)) :
    Makes kinds spot b (do
      let children ← (List.range n).mapM fun i => do f i (← Lower.childType ty i)
      Lower.node ty children) (MadeFor P (depth + 1) b ty) := by
  have hs := shape?_of_shape hs (by rintro rfl; cases hcount)
  refine .bind (Makes.mapM (S := fun b i t => ∃ child, b.context.module.types.childShape? s i = some child ∧
    Made P depth child b t) ?_ _ ?_) fun b₁ ts h₁ hts => ?_
  · rintro b b' i t h ⟨child, hchild, ht⟩
    exact ⟨child, h.grows.types.childShape? hchild, h.trees ht.mem, fun r hr => hP b b' r h (ht.registers r hr),
      h.grows.mirrors ht.mirrors⟩
  · intro i _ b₁ h₁
    refine .bind (.lift (ensures_childType ty i)) fun b₂ child h₂ hchild => ?_
    refine (hf i child b₂ (h₁.trans h₂)).mono ?_
    rintro b₃ t h₃ ⟨s', hs', ht⟩
    rw [Types.shape?_of_child? (h₁.grows.types.shape? hs) (Shape.lanes?_of_childCount? hcount) hchild] at hs'
    exact ⟨s', h₃.grows.types.childShape? hs', ht⟩
  · have hmade : ∀ t ∈ ts, ∃ child, Made P depth child b₁ t :=
      Ensures.forall_of_forall₂ (hts.imp fun _ _ ⟨child, _, ht⟩ => ⟨child, ht⟩)
    have hlength : ts.length = n := by simpa using hts.length_eq.symm
    refine Makes.mono (.lift (ensures_node ty fun t ht => (hmade t ht).elim fun _ h => h.mem)) fun b₂ t h₂ ht =>
      ⟨s, hs, ht.1, fun r hr => ?_, ht.2.2 depth s (h₁.grows.types.shape? hs) (by rw [hcount, hlength]) fun i t ht => ?_⟩
    · rw [ht.2.1, Tree.mem_leavesOfList] at hr
      obtain ⟨t, ht, hr⟩ := hr
      obtain ⟨child, ht⟩ := hmade t ht
      exact hP _ _ r h₂ (ht.registers r hr)
    · obtain ⟨child, hchild, ht⟩ := Ensures.of_forall₂_range hts ht
      exact ⟨child, hchild, ht.mirrors⟩

theorem makes_treeWithin {make : Nat → Emit Register}
    (hmake : ∀ n b, Makes kinds spot b (make n) fun b' r => HasLanes b'.context r n ∧ P b' r) (ty : TypeId) :
    Makes kinds spot b (treeWithin make depth ty) (MadeFor P depth b ty) := by
  induction depth generalizing b ty with
  | zero => exact .throw _ rfl
  | succ depth ih =>
    rw [treeWithin]
    refine .look fun s hs => ?_
    cases hn : s.lanes? with
    | some n => exact makes_leafFor hP hs hn (hmake n b)
    | none =>
      cases hcount : s.childCount? with
      | none => exact .meaningless _
      | some count => exact makes_nodeFor hP hs hcount fun _ child _ _ => ih child

theorem makes_treeOfType {make : Nat → Emit Register}
    (hmake : ∀ n b, Makes kinds spot b (make n) fun b' r => HasLanes b'.context r n ∧ P b' r) (ty : TypeId) :
    Makes kinds spot b (treeOfType make ty) (MadeFor P (b.context.module.types.size + 1) b ty) := by
  refine .look fun depth hdepth => ?_
  obtain ⟨rfl, -⟩ : _ = depth ∧ _ := pure_eq_ok.mp hdepth
  exact makes_treeWithin hP hmake ty

end Made

section Constants

theorem length_pieces {size count : Nat} {bits : List Word} (hsize : 1 ≤ size) (h : bits.length = count * size) :
    (pieces size count bits).length = count ∧ ∀ p ∈ pieces size count bits, p.length = size := by
  induction count generalizing bits with
  | zero => simp [pieces]
  | succ count ih =>
    rw [Nat.succ_mul] at h
    have hne : bits ≠ [] := by
      rintro rfl
      rw [length_nil] at h
      omega
    have hrest : (bits.drop size).length = count * size := by
      rw [length_drop]
      omega
    obtain ⟨hlength, hpieces⟩ := ih hrest
    rw [pieces.eq_3 _ _ _ hne]
    simp only [length_cons, mem_cons, forall_eq_or_imp, length_take]
    exact ⟨by rw [hlength], by omega, hpieces⟩

variable (hk : ∀ bits, kinds (.loadConst bits))
include hk

/-- The tree of a constant mirrors the shape that the constant holds. -/
theorem makes_constantTreeWithin {m : Module} (hm : m.Precedes b.context.module) (depth : Nat) (id : ConstantId) :
    Makes kinds spot b (constantTreeWithin depth id) fun b' t =>
      t ∈ b'.trees ∧ ∀ s, m.Holds id s → t.MirrorsWithin b'.context (depth + 1) s := by
  induction depth generalizing b id with
  | zero => exact .throw _ rfl
  | succ depth ih =>
    have hleaf (ty : TypeId) (bits : List Word) (b : Bench) :
        Makes kinds spot b (do Lower.leaf ty (← loadConst bits)) fun b' t => t ∈ b'.trees ∧
          ∀ depth s, b.context.module.types.shape? ty = some s → s.lanes? = some bits.length →
            t.MirrorsWithin b'.context (depth + 1) s := by
      refine .bind (makes_instruction (hk bits) (Context.admits_of_nil rfl rfl)) fun b₁ r h₁ hr => ?_
      exact .lift (.of_step rfl (.leaf ty r) ⟨rfl, rfl⟩
        ⟨mem_cons_self .., fun depth s hs hn => ⟨h₁.grows.types.shape? hs, _, hn, _, hr.1, rfl⟩⟩)
    rw [constantTreeWithin]
    refine .look fun constant hconstant => ?_
    have hfound {k : Constant} (h : m.constants[id]? = some k) : constant = k := by
      have hget : (b.context.module.constants[id]?).getD _ = constant := (pure_eq_ok.mp hconstant).1
      rw [← hget, hm.constants id k h, Option.getD_some]
    cases hvalue : constant.value with
    | flat bits =>
      have hheld {s : Shape} (h : m.Holds id s) :
          b.context.module.types.shape? constant.ty = some s ∧ s.flatSize? = some bits.length := by
        cases h with
        | flat h hty hsize =>
          obtain rfl := hfound h
          cases hvalue
          exact ⟨hm.types.shape? hty, hsize⟩
        | composite h =>
          obtain rfl := hfound h
          cases hvalue
      refine .look fun shape hshape => ?_
      split
      · next columns rows scalar =>
        have hs := shape?_of_shape hshape nofun
        refine .bind (.lift (ensures_childType _ _)) fun b₁ columnType h₁ hcolumn => ?_
        have hcolumn := Types.shape?_of_child? hs rfl hcolumn
        refine .bind (Makes.mapM (S := fun b _ t => t ∈ b.trees ∧ (bits.length = columns.lanes * rows.lanes →
          t.MirrorsWithin b.context (depth + 1) (.vector rows scalar))) ?_ _ ?_) fun b₂ ts h₂ hts => ?_
        · exact fun b b' _ t h ht => ⟨h.trees ht.1, fun hbits => h.grows.mirrors (ht.2 hbits)⟩
        · intro column hmem b₂ h₂
          refine (hleaf columnType column b₂).mono fun b₃ t _ ht => ⟨ht.1, fun hbits => ?_⟩
          refine ht.2 depth _ (h₂.grows.types.shape? hcolumn) (congrArg some ?_)
          exact ((length_pieces rows.one_le_lanes hbits).2 column hmem).symm
        · have hts' := Ensures.forall_of_forall₂ hts
          refine Makes.mono (.lift (ensures_node _ fun t ht => (hts' t ht).1)) fun b₃ t _ ht => ⟨ht.1, fun s h => ?_⟩
          obtain ⟨hty, hsize⟩ := hheld h
          cases hs.symm.trans hty
          have hbits := (Option.some.inj hsize).symm
          refine ht.2.2 _ _ ((h₁.trans h₂).grows.types.shape? hs) (congrArg some ?_) fun i t ht => ?_
          · rw [← hts.length_eq, (length_pieces rows.one_le_lanes hbits).1]
          · exact ⟨_, rfl, (hts' t (mem_of_getElem? ht)).2 hbits⟩
      · next hmatrix =>
        refine (hleaf constant.ty bits b).mono fun b₁ t _ ht => ⟨ht.1, fun s h => ?_⟩
        obtain ⟨hty, hsize⟩ := hheld h
        have hs : (b.context.module.types.shape? constant.ty).getD .void = shape := (pure_eq_ok.mp hshape).1
        rw [hty, Option.getD_some] at hs
        subst hs
        refine ht.2 _ s hty ?_
        cases s with
        | matrix columns rows scalar => exact (hmatrix columns rows scalar rfl).elim
        | _ => exact hsize
    | composite children =>
      refine .bind (Makes.mapM (S := fun b child t => t ∈ b.trees ∧ ∀ s, m.Holds child s →
        t.MirrorsWithin b.context (depth + 1) s) ?_ _ ?_) fun b₁ ts h₁ hts => ?_
      · exact fun b b' _ t h ht => ⟨h.trees ht.1, fun s hs => h.grows.mirrors (ht.2 s hs)⟩
      · exact fun child _ b₁ h₁ => ih (hm.trans h₁.grows.precedes) child
      · have hmem := Ensures.forall_of_forall₂ (hts.imp fun _ _ ht => ht.1)
        refine Makes.mono (.lift (ensures_node _ hmem)) fun b₂ t _ ht => ⟨ht.1, fun s h => ?_⟩
        cases h with
        | flat h =>
          obtain rfl := hfound h
          cases hvalue
        | composite h hty hcount shape hshape hchildren =>
          obtain rfl := hfound h
          cases hvalue
          refine ht.2.2 _ s (h₁.grows.types.shape? (hm.types.shape? hty)) (by rw [hcount, hts.length_eq]) fun i t ht => ?_
          obtain ⟨child, hchild, ht⟩ := Ensures.exists_of_forall₂ hts ht
          have hs := hshape i (List.getElem?_eq_some_iff.mp hchild).1
          exact ⟨_, h₁.grows.types.childShape? (hm.types.childShape? hs), ht.2 _ (hchildren i child hchild)⟩

theorem makes_constantTree (id : ConstantId) : Makes kinds spot b (constantTree id) fun b' t => t ∈ b'.trees ∧
      ∀ s, b.context.module.Holds id s → ∃ depth, t.MirrorsWithin b'.context depth s :=
  .get ((makes_constantTreeWithin hk (.refl _) _ id).mono fun _ _ _ h => ⟨h.1, fun s hs => ⟨_, h.2 s hs⟩⟩)

theorem makes_treeOf (id : Id) : Makes kinds spot b (treeOf id) fun b' t => t ∈ b'.trees := by
  refine .look fun v hv => ?_
  obtain ⟨hv, -⟩ := lookup_eq_ok.mp hv
  cases v with
  | tree t =>
    exact .coming_by (.single (.named hv)) (.pure (mem_cons_self ..))
  | constant c => exact (makes_constantTree hk c).mono fun _ _ _ h => h.1
  | _ => exact .throw _ rfl

theorem makes_registerOf (id : Id) : Makes kinds spot b (registerOf id) fun _ _ => True :=
  .bind (makes_treeOf hk id) fun _ _ _ _ => .lift (.of_peeks fun _ _ => trivial)

theorem makes_treeOperand (i : RawInstruction) (index : Nat) :
    Makes kinds spot b (treeOperand i index) fun b' t => t ∈ b'.trees :=
  .look fun id _ => makes_treeOf hk id

theorem makes_registerOperand (i : RawInstruction) (index : Nat) :
    Makes kinds spot b (registerOperand i index) fun _ _ => True :=
  .look fun id _ => makes_registerOf hk id

end Constants

end Emit

end ShaderIR.Spirv
