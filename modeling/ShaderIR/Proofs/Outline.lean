import ShaderIR.Proofs.Declarations
import ShaderIR.Proofs.Growth
import ShaderIR.Proofs.Leaves
import ShaderIR.Spirv.Read

/-!
# What is known before code is made

Once the preamble is read and the functions and blocks are found, the module has one function without
code for each function of the stream. Every block has a number and belongs to one function, and what
constants hold can be told from the types that are there.
-/

namespace ShaderIR

open EStateM List

/-- A function that has no code yet. -/
structure Function.IsBlank (f : Function) : Prop where
  instructions : f.instructions = #[]
  blocks : f.blocks = #[{}]

namespace Spirv

open EStateM (Along)

/-- One step of finding functions and blocks. -/
inductive ScanStep : Context → Context → Prop
  | define {c} {id : Id} {v : Value} {ids : IdTable} (h : c.ids.define id v = .ok ids)
      (hv : (∃ n < c.functions.size, v = .function n) ∨ ∃ n, v = .block n) : ScanStep c { c with ids }
  | function {c} (source : SourceFunction) (name : Option String) (result : Option TypeId) :
      ScanStep c { c with
          module := { c.module with functions := c.module.functions.push { name, result } }
          functions := c.functions.push source }
  /-- Adds a block to a function of the stream. -/
  | label {c} (index : Nat) (f : SourceFunction → SourceFunction) :
      ScanStep c { c with functions := c.functions.modify index f }
  | block {c} (code : SourceBlock) : ScanStep c { c with blocks := c.blocks.push code }

/-- Any number of steps of finding functions and blocks. -/
def Scans : Context → Context → Prop := Relation.ReflTransGen ScanStep

instance : IsPreorder Context Scans := inferInstanceAs (IsPreorder _ (Relation.ReflTransGen _))

variable {c c' : Context}

theorem Scans.single (h : ScanStep c c') : Scans c c' := Relation.ReflTransGen.single h

theorem RawInstruction.isTerminator_eq_false_of_isMerge {i : RawInstruction} (h : i.isMerge = true) :
    i.isTerminator = false := by
  rw [isMerge, decide_eq_true_eq] at h
  rcases h with h | h <;> rw [isTerminator, h]

namespace Scan

/-- What a scan does with an instruction: where it is then, and what it has found. -/
inductive Takes (i : RawInstruction) (c : Context) : ScanState → ScanState → Context → Prop
  | function {id : Id} {result : Option TypeId} {ids : IdTable} (hop : i.op = .opFunction)
      (hids : c.ids.define id (.function c.functions.size) = .ok ids) :
      Takes i c .outside .inFunction { c with
          module := { c.module with functions := c.module.functions.push { name := c.ids.name? id, result } }
          functions := c.functions.push { id }
          ids }
  | functionEnd (hop : i.op = .opFunctionEnd) : Takes i c .inFunction .outside c
  | label {label : Id} {ids : IdTable} (hop : i.op = .opLabel) (hlabel : i.operand 0 = .ok label)
      (hids : c.ids.define label (.block c.blocks.size) = .ok ids) :
      Takes i c .inFunction (.inBlock label []) { c with
          ids
          functions := c.functions.modify (c.functions.size - 1) fun f =>
            { f with blocks := f.blocks ++ [c.blocks.size] } }
  | code {label : Id} {code : List RawInstruction} (hend : i.isTerminator = false) :
      Takes i c (.inBlock label code) (.inBlock label (i :: code)) c
  | close {label : Id} {code : List RawInstruction} (hend : i.isTerminator = true) :
      Takes i c (.inBlock label code) .inFunction
        { c with blocks := c.blocks.push { label, code := code.reverse, terminator := i } }

variable {i : RawInstruction} {t : ScanState}

theorem takes_of_openFunction (hop : i.op = .opFunction) (h : openFunction i c = .ok t c') :
    Takes i c .outside t c' := by
  obtain ⟨_, -, h₁⟩ := Lower.peek_eq_ok.mp h
  obtain ⟨id, -, h₂⟩ := Lower.peek_eq_ok.mp h₁
  obtain ⟨_, -, h₃⟩ := Lower.peek_eq_ok.mp h₂
  obtain ⟨_, -, h₄⟩ := Lower.peek_eq_ok.mp h₃
  have h₅ := getBind_eq_ok.mp h₄
  obtain ⟨_, d₅, hmodify, h₆⟩ := bind_eq_ok.mp h₅
  obtain rfl := modify_eq_ok.mp hmodify
  obtain ⟨_, d₆, hdefine, hpure⟩ := bind_eq_ok.mp h₆
  obtain ⟨ids, hids, rfl⟩ := Lower.define_eq_ok.mp hdefine
  obtain ⟨rfl, rfl⟩ := pure_eq_ok.mp hpure
  exact .function hop hids

theorem takes_of_openBlock (hop : i.op = .opLabel) (h : openBlock i c = .ok t c') :
    Takes i c .inFunction t c' := by
  obtain ⟨label, d₁, hoperand, h₁⟩ := bind_eq_ok.mp h
  obtain ⟨hlabel, rfl⟩ := Lower.operand_eq_ok.mp hoperand
  have h₂ := getBind_eq_ok.mp h₁
  obtain ⟨_, d₂, hdefine, h₃⟩ := bind_eq_ok.mp h₂
  obtain ⟨ids, hids, rfl⟩ := Lower.define_eq_ok.mp hdefine
  obtain ⟨_, d₃, hmodify, hpure⟩ := bind_eq_ok.mp h₃
  obtain rfl := modify_eq_ok.mp hmodify
  obtain ⟨rfl, rfl⟩ := pure_eq_ok.mp hpure
  exact .label hop hlabel hids

theorem takes_of_step {s : ScanState} (h : step s i c = .ok t c') : Takes i c s t c' := by
  generalize hm : step s i = m at h
  unfold step at hm
  split at hm <;> subst hm
  case h_1 hop => exact takes_of_openFunction hop h
  case h_4 hop =>
    obtain ⟨rfl, rfl⟩ := pure_eq_ok.mp h
    exact .functionEnd hop
  case h_6 hop => exact takes_of_openBlock hop h
  case h_8 =>
    split at h
    · next hmerge =>
      split at h
      · obtain ⟨_, d, hmerges, hpure⟩ := bind_eq_ok.mp h
        obtain rfl := Lower.looks_ofExcept _ hmerges
        obtain ⟨rfl, rfl⟩ := pure_eq_ok.mp hpure
        exact .code (RawInstruction.isTerminator_eq_false_of_isMerge hmerge)
      · exact (throw_eq_ok.mp h).elim
    · split at h
      · next hend =>
        split at h
        · obtain ⟨_, d, hmodify, hpure⟩ := bind_eq_ok.mp h
          obtain rfl := modify_eq_ok.mp hmodify
          obtain ⟨rfl, rfl⟩ := pure_eq_ok.mp hpure
          exact .close hend
        · exact (throw_eq_ok.mp h).elim
      · next hend =>
        split at h
        · exact (throw_eq_ok.mp h).elim
        · exact (throw_eq_ok.mp h).elim
        · obtain ⟨rfl, rfl⟩ := pure_eq_ok.mp h
          exact .code (Bool.eq_false_iff.mpr hend)
  all_goals exact (throw_eq_ok.mp h).elim

theorem along_step (state : ScanState) (i : RawInstruction) : Along Scans (step state i) := by
  intro c t c' h
  cases takes_of_step h with
  | @function id result _ _ hids =>
    have hpush := Scans.single (.function (c := c) { id } (c.ids.name? id) result)
    exact hpush.tail (.define hids (.inl ⟨c.functions.size, by simp, rfl⟩))
  | label _ _ hids =>
    exact (Relation.ReflTransGen.single (.define hids (.inr ⟨_, rfl⟩))).tail (.label ..)
  | close => exact .single (.block _)
  | functionEnd | code => exact .refl

theorem along_steps (fault : Option Error) (stop : Nat) (state : ScanState)
    (is : List RawInstruction) : Along Scans (steps fault stop state is) := by
  induction is generalizing state with
  | nil =>
    unfold steps
    split <;> first | exact .throw _ | exact .pure _
  | cons i is ih => exact (along_step state i).bind fun state' => ih state'

end Scan

/-- The functions and blocks of a stream were found, and there is no code yet. -/
structure Outlined (c : Context) : Prop where
  size : c.module.functions.size = c.functions.size
  blank : ∀ f ∈ c.module.functions, f.IsBlank
  functionIds : ∀ id n, c.ids.get id = .ok (.function n) → n < c.functions.size
  placed : c.placed = []

theorem ScanStep.outlined (h : ScanStep c c') (hc : Outlined c) : Outlined c' := by
  cases h with
  | @define id _ _ hdefine hv =>
    refine ⟨hc.size, hc.blank, fun other n hget => ?_, hc.placed⟩
    rcases IdTable.eq_or_get_of_define hdefine hget with ⟨-, rfl⟩ | hget
    · simp_all
    · exact hc.functionIds other n hget
  | block => exact ⟨hc.size, hc.blank, hc.functionIds, hc.placed⟩
  | label => exact ⟨by simpa using hc.size, hc.blank, by simpa using hc.functionIds, hc.placed⟩
  | function source name result =>
    refine ⟨by simpa using hc.size, fun f hf => ?_, fun id n hget => ?_, hc.placed⟩
    · rcases Array.mem_push.mp hf with hf | rfl
      · exact hc.blank f hf
      · exact ⟨rfl, rfl⟩
    · rw [Array.size_push]
      exact Nat.lt_succ_of_lt (hc.functionIds id n hget)

theorem Scans.outlined (h : Scans c c') (hc : Outlined c) : Outlined c' := by
  induction h with
  | refl => exact hc
  | tail _ hstep ih => exact hstep.outlined ih

theorem DeclareStep.outlined (h : DeclareStep c c') (hc : Outlined c) : Outlined c' := by
  cases h with
  | record hids =>
    exact ⟨hc.size, hc.blank, fun id n hget => hc.functionIds id n ((hids id _).mp hget), hc.placed⟩
  | @define id _ _ hdefine _ hdeclares =>
    refine ⟨hc.size, hc.blank, fun other n hget => ?_, hc.placed⟩
    rcases IdTable.eq_or_get_of_define hdefine hget with ⟨-, rfl⟩ | hget
    · exact ((hdeclares n).1 rfl).elim
    · exact hc.functionIds other n hget
  | _ => exact ⟨hc.size, hc.blank, hc.functionIds, hc.placed⟩

theorem Declares.outlined (h : Declares c c') (hc : Outlined c) : Outlined c' := by
  induction h with
  | refl => exact hc
  | tail _ hstep ih => exact hstep.outlined ih

theorem IdTable.get_ofBound_ne_ok {bound : Nat} {id : Id} {v : Value} :
    (IdTable.ofBound bound).get id ≠ .ok v := by
  rw [Ne, IdTable.get_eq_ok]
  rintro ⟨slot, hslot, hv⟩
  rw [IdTable.ofBound, getElem?_toArray, getElem?_replicate] at hslot
  grind

/-! ### Constants -/

theorem DeclareStep.grounded (h : DeclareStep c c') (hc : c.Grounded) : c'.Grounded := by
  cases h with
  | record hids =>
    exact hc.of_extends (fun id k hget => (hids id _).mp hget) rfl (.refl _)
  | @define id _ ids hdefine hv =>
    refine ⟨fun other k hget => ?_, hc.children, hc.shaped⟩
    rcases IdTable.eq_or_get_of_define hdefine hget with ⟨-, rfl⟩ | hget
    · exact hv k rfl
    · exact hc.ids other k hget
  | types htypes => exact hc.of_extends (fun _ _ hget => hget) rfl htypes
  | @constant k hchildren hshape =>
    have hpush {k' : ConstantId} {constant : Constant} (hk' : (c.module.constants.push k)[k']? = some constant) :
        c.module.constants[k']? = some constant ∨ k' = c.module.constants.size ∧ constant = k := by
      grind
    refine ⟨fun id k' hget => ?_, fun k' constant children hk' hvalue child hchild => ?_,
      fun k' constant hk' => ?_⟩
    · rw [Array.size_push]
      exact Nat.lt_succ_of_lt (hc.ids id k' hget)
    · rcases hpush hk' with hk' | ⟨rfl, rfl⟩
      · exact hc.children k' constant children hk' hvalue child hchild
      · rcases hchildren children hvalue child hchild with hlt | ⟨id, hid⟩
        · exact hlt
        · exact hc.ids id child hid
    · rcases hpush hk' with hk' | ⟨rfl, rfl⟩
      · exact hc.shaped k' constant hk'
      · exact hshape
  | _ => exact ⟨hc.ids, hc.children, hc.shaped⟩

theorem Declares.grounded (h : Declares c c') (hc : c.Grounded) : c'.Grounded := by
  induction h with
  | refl => exact hc
  | tail _ hstep ih => exact hstep.grounded ih

theorem ScanStep.grounded (h : ScanStep c c') (hc : c.Grounded) : c'.Grounded := by
  cases h with
  | @define id _ _ hdefine hv =>
    refine hc.of_extends (fun other k hget => ?_) rfl (.refl _)
    rcases IdTable.eq_or_get_of_define hdefine hget with ⟨-, rfl⟩ | hget
    · rcases hv with ⟨_, _, hv⟩ | ⟨_, hv⟩ <;> cases hv
    · exact hget
  | _ => exact ⟨hc.ids, hc.children, hc.shaped⟩

theorem Scans.grounded (h : Scans c c') (hc : c.Grounded) : c'.Grounded := by
  induction h with
  | refl => exact hc
  | tail _ hstep ih => exact hstep.grounded ih

/-! ### Numbers of blocks -/

/-- The numbers of blocks are below a bound, and each belongs to one function. -/
structure Numbered (bound : Nat) (c : Context) : Prop where
  blocks : ∀ f ∈ c.functions, ∀ s ∈ f.blocks, s < bound
  apart : ∀ (n m : Nat) (f g : SourceFunction), c.functions[n]? = some f → c.functions[m]? = some g →
    ∀ s ∈ f.blocks, s ∈ g.blocks → n = m
  labels : ∀ id s, c.ids.get id = .ok (.block s) → s < bound

/-- How many blocks a scan has begun and not ended. -/
def ScanState.opened : ScanState → Nat
  | .inBlock .. => 1
  | _ => 0

theorem DeclareStep.numbered (h : DeclareStep c c') {bound : Nat}
    (hc : Numbered bound c) : Numbered bound c' := by
  cases h with
  | record hids => exact ⟨hc.blocks, hc.apart, fun id s hget => hc.labels id s ((hids id _).mp hget)⟩
  | @define id _ _ hdefine _ hdeclares =>
    refine ⟨hc.blocks, hc.apart, fun other s hget => ?_⟩
    rcases IdTable.eq_or_get_of_define hdefine hget with ⟨-, rfl⟩ | hget
    · exact ((hdeclares s).2 rfl).elim
    · exact hc.labels other s hget
  | _ => exact ⟨hc.blocks, hc.apart, hc.labels⟩

theorem Declares.numbered (h : Declares c c') {bound : Nat} (hc : Numbered bound c) : Numbered bound c' := by
  induction h with
  | refl => exact hc
  | tail _ hstep ih => exact hstep.numbered ih

namespace Scan

theorem Takes.numbered {s t : ScanState} {i : RawInstruction} (h : Takes i c s t c')
    (hc : Numbered (c.blocks.size + s.opened) c) : Numbered (c'.blocks.size + t.opened) c' := by
  cases h with
  | @function id _ _ _ hids =>
    -- the new function has no blocks yet
    have hpush {n : Nat} {f : SourceFunction} {s : Nat} (hf : (c.functions.push { id })[n]? = some f)
        (hs : s ∈ f.blocks) : c.functions[n]? = some f := by
      grind
    refine ⟨fun f hf s hs => ?_, fun n m f g hf hg s hs hs' => ?_, fun other s hget => ?_⟩
    · obtain ⟨n, hn⟩ := Array.getElem?_of_mem hf
      exact hc.blocks f (Array.mem_of_getElem? (hpush hn hs)) s hs
    · exact hc.apart n m f g (hpush hf hs) (hpush hg hs') s hs hs'
    · rcases IdTable.eq_or_get_of_define hids hget with ⟨-, heq⟩ | hget
      · cases heq
      · exact hc.labels other s hget
  | @label label _ _ _ hids =>
    -- a block is one from before, or the new one, which goes to the last function
    have hmodify {n : Nat} {f : SourceFunction} {s : Nat}
        (hf : (c.functions.modify (c.functions.size - 1) fun f =>
          { f with blocks := f.blocks ++ [c.blocks.size] })[n]? = some f) (hs : s ∈ f.blocks) :
        (∃ g, c.functions[n]? = some g ∧ s ∈ g.blocks) ∨ n = c.functions.size - 1 ∧ s = c.blocks.size := by
      grind
    have hold {n : Nat} {g : SourceFunction} {s : Nat} (hg : c.functions[n]? = some g)
        (hs : s ∈ g.blocks) : s < c.blocks.size := hc.blocks g (Array.mem_of_getElem? hg) s hs
    refine ⟨fun f hf s hs => ?_, fun n m f g hf hg s hs hs' => ?_, fun other s hget => ?_⟩
    · obtain ⟨n, hn⟩ := Array.getElem?_of_mem hf
      rcases hmodify hn hs with ⟨g, hg, hs⟩ | ⟨-, rfl⟩
      · exact Nat.lt_succ_of_lt (hold hg hs)
      · exact Nat.lt_succ_self _
    · rcases hmodify hf hs with ⟨f', hf', hs⟩ | ⟨rfl, rfl⟩
      · rcases hmodify hg hs' with ⟨g', hg', hs'⟩ | ⟨-, rfl⟩
        · exact hc.apart n m f' g' hf' hg' s hs hs'
        · exact absurd (hold hf' hs) (Nat.lt_irrefl _)
      grind
    · rcases IdTable.eq_or_get_of_define hids hget with ⟨-, heq⟩ | hget
      · cases heq
        exact Nat.lt_succ_self _
      · exact Nat.lt_succ_of_lt (hc.labels other s hget)
  | close =>
    change Numbered (c.blocks.push _).size _
    rw [Array.size_push]
    exact ⟨hc.blocks, hc.apart, hc.labels⟩
  | functionEnd | code => exact hc

theorem numbered_of_steps {fault : Option Error} {stop : Nat} {is : List RawInstruction} {state : ScanState}
    (h : steps fault stop state is c = .ok () c') (hc : Numbered (c.blocks.size + state.opened) c) :
    Numbered c'.blocks.size c' := by
  induction is generalizing state c with
  | nil =>
    unfold steps at h
    split at h
    · exact (throw_eq_ok.mp h).elim
    · obtain ⟨-, rfl⟩ := pure_eq_ok.mp h
      exact hc
    · exact (throw_eq_ok.mp h).elim
  | cons i is ih =>
    obtain ⟨state', d, hstep, hrest⟩ := bind_eq_ok.mp h
    exact ih hrest ((takes_of_step hstep).numbered hc)

end Scan

/-! ### The whole outline -/

section

variable {options : Options} {header : Header} {words : List Word} {c : Context}
  (h : readOutline words (.start options header) = .ok () c)
include h

theorem declares_of_readOutline : ∃ start d, Declares (.start options header) d ∧ scan words start d = .ok () c := by
  obtain ⟨start, d, hpreamble, hscan⟩ := bind_eq_ok.mp h
  exact ⟨start, d, along_handleAll Preamble.along_reported _ _ _ hpreamble, hscan⟩

theorem outlined_of_readOutline : Outlined c := by
  obtain ⟨start, d, hd, hscan⟩ := declares_of_readOutline h
  refine (Scan.along_steps _ _ _ _ hscan).outlined (hd.outlined ⟨rfl, fun f hf => ?_, fun id n hget => ?_, rfl⟩)
  · cases hf
    contradiction
  · exact (IdTable.get_ofBound_ne_ok hget).elim

theorem grounded_of_readOutline : c.Grounded := by
  obtain ⟨start, d, hd, hscan⟩ := declares_of_readOutline h
  refine (Scan.along_steps _ _ _ _ hscan).grounded (hd.grounded ⟨fun id k hget => ?_, ?_, ?_⟩)
  · exact (IdTable.get_ofBound_ne_ok hget).elim
  · simp [Context.start]
  · simp [Context.start]

theorem numbered_of_readOutline : Numbered c.blocks.size c := by
  obtain ⟨start, d, hd, hscan⟩ := declares_of_readOutline h
  have hstart : Numbered 0 (.start options header) := by
    refine ⟨?_, ?_, fun id s hget => (IdTable.get_ofBound_ne_ok hget).elim⟩
    · simp [Context.start]
    · simp [Context.start]
  refine Scan.numbered_of_steps hscan ⟨?_, (hd.numbered hstart).apart, ?_⟩
  · exact fun f hf s hs => absurd ((hd.numbered hstart).blocks f hf s hs) (Nat.not_lt_zero s)
  · exact fun id s hget => absurd ((hd.numbered hstart).labels id s hget) (Nat.not_lt_zero s)

end

end Spirv

end ShaderIR
