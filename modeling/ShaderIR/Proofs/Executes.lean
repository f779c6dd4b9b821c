import ShaderIR.Proofs.Computes

/-!
# What code does from any state

Code at the end of a block is told by what it does to the states that it may start from. Pieces of
code are put together by what they do, whatever instructions they consist of, and what one piece leaves
in registers is still there after the next, which has registers of its own.
-/

namespace ShaderIR

namespace Spirv

variable {b : BlockId} {is : List Instruction} {c c' c'' : Context} {s s' s'' : RunState}
  {pre pre' : RunState → Prop} {Q Q' : RunState → RunState → Prop} {r : Nat}

/-- A later state of a run has the registers that a function has so far as they were. -/
structure Keeps (c : Context) (s s' : RunState) : Prop where
  size : s'.registers.size = s.registers.size
  registers : ∀ q : Nat, q < c.function.instructions.size → s'.registers[q]? = s.registers[q]?

namespace Keeps

theorem value?_eq (h : Keeps c s s') (hr : r < c.fresh) :
    s'.value? r = s.value? r := RunState.value?_congr (h.registers r hr)

theorem lanes_eq (h : Keeps c s s') (hr : r < c.fresh) :
    s'.lanes r = s.lanes r := RunState.lanes_congr (h.registers r hr)

theorem resolve_eq {p : Place} (h : Keeps c s s')
    (hp : ∀ r ∈ p.registers, r < c.fresh) : s'.resolve p = s.resolve p :=
  RunState.resolve_congr fun r hr => h.registers r (hp r hr)

end Keeps

/-- Between two states of lowering, code was put at the end of a block and nothing but types and keys
was added else. From every state with `pre` that has room for its registers the code runs to its end,
and `Q` relates the states before and after. -/
def Executes (b : BlockId) (c c' : Context) (pre : RunState → Prop) (Q : RunState → RunState → Prop) : Prop :=
  ∃ is, Inserts (.append b) is c c' ∧ (∀ i ∈ is, i.IsPlain) ∧
    ∀ s, c'.function.instructions.size ≤ s.registers.size → pre s →
      ∃ s', performAll c.function.instructions.size is s = .ok () s' ∧ Q s s'

namespace Executes

section

variable (h : Executes b c c' pre Q)
include h

theorem inserts : ∃ is, Inserts (.append b) is c c' := by
  obtain ⟨is, hinserts, -⟩ := h
  exact ⟨is, hinserts⟩

theorem size_le : c.function.instructions.size ≤ c'.function.instructions.size := by
  obtain ⟨is, hinserts, -⟩ := h
  rw [hinserts.size]
  exact Nat.le_add_right ..

theorem getElem? (hr : r < c.fresh) :
    c'.function.instructions[r]? = c.function.instructions[r]? := by
  obtain ⟨is, hinserts, -⟩ := h
  rw [hinserts.function, Function.insertAll_instructions, Array.getElem?_append_left hr]

end

protected theorem refl (b : BlockId) (c : Context) (h : ∀ s, pre s → Q s s) : Executes b c c pre Q :=
  ⟨[], .refl _ c, by simp, fun s _ hs => ⟨s, rfl, h s hs⟩⟩

theorem withKey (h : Executes b c c' pre Q) (nextKey : Nat) : Executes b c { c' with nextKey } pre Q := by
  obtain ⟨is, hinserts, hrest⟩ := h
  refine ⟨is, ?_, hrest⟩
  simpa using hinserts.trans (.key _ c' nextKey)

theorem instruction (b : BlockId) {i : Instruction} (hi : i.IsPlain)
    (h : ∀ s, c.fresh < s.registers.size → pre s →
      ∃ s', i.perform c.fresh s = .ok () s' ∧ Q s s') :
    Executes b c (c.withFunction (c.function.insert (.append b) i).2) pre Q := by
  refine ⟨[i], .instruction _ c i, by simpa using hi, fun s hsize hs => ?_⟩
  have hroom : c.fresh + 1 ≤ s.registers.size := by
    simpa [Context.withFunction] using hsize
  obtain ⟨s', hperform, hQ⟩ := h s hroom hs
  exact ⟨s', performAll_singleton hperform, hQ⟩

variable (h : Executes b c c' pre Q)
include h

theorem mono (hpre : ∀ s, pre' s → pre s)
    (hQ : ∀ s s', pre' s → Keeps c s s' → Q s s' → Q' s s') : Executes b c c' pre' Q' := by
  obtain ⟨is, hinserts, hplain, hrun⟩ := h
  refine ⟨is, hinserts, hplain, fun s hsize hs => ?_⟩
  obtain ⟨s', hperform, hs'⟩ := hrun s hsize (hpre s hs)
  obtain ⟨hsame, hkeeps⟩ := performAll_keeps hperform
  exact ⟨s', hperform, hQ s s' hs ⟨hsame, fun q hq => hkeeps q (.inl hq)⟩ hs'⟩

protected theorem trans (h' : Executes b c' c'' pre' Q')
    (hpre : ∀ s s', pre s → Keeps c s s' → Q s s' → pre' s') :
    Executes b c c'' pre fun s s'' => ∃ s', Q s s' ∧ Q' s' s'' ∧ Keeps c s s' ∧ Keeps c' s' s'' := by
  obtain ⟨is, hinserts, hplain, hrun⟩ := h
  obtain ⟨js, hinserts', hplain', hrun'⟩ := h'
  refine ⟨is ++ js, hinserts.trans hinserts', ?_, fun s hsize hs => ?_⟩
  · grind
  have hgrow := hinserts'.size
  obtain ⟨s', hperform, hQ⟩ := hrun s (by omega) hs
  obtain ⟨hsame, hkeeps⟩ := performAll_keeps hperform
  have hs' : Keeps c s s' := ⟨hsame, fun q hq => hkeeps q (.inl hq)⟩
  obtain ⟨s'', hperform', hQ'⟩ := hrun' s' (by rwa [hsame]) (hpre s s' hs hs' hQ)
  obtain ⟨hsame', hkeeps'⟩ := performAll_keeps hperform'
  refine ⟨s'', ?_, s', hQ, hQ', hs', hsame', fun q hq => hkeeps' q (.inl hq)⟩
  rw [performAll_append hperform, ← hinserts.size]
  exact hperform'

/-- One piece of code after another, told as one. -/
theorem andThen {P : RunState → Prop} {R : RunState → RunState → Prop}
    (h' : Executes b c' c'' pre' Q') (hpre : ∀ s, P s → pre s)
    (hnext : ∀ s s', P s → Keeps c s s' → Q s s' → pre' s')
    (hR : ∀ s s' s'', P s → Keeps c s s' → Q s s' → Keeps c' s' s'' → Q' s' s'' → R s s'') :
    Executes b c c'' P R := by
  have hfirst : Executes b c c' P Q := h.mono hpre fun _ _ _ _ hQ => hQ
  refine (hfirst.trans h' hnext).mono (fun _ hs => hs) ?_
  grind

theorem run (hb : b < c.function.blocks.size)
    (hsize : c'.fresh ≤ s.registers.size) (hs : pre s) :
    ∃ s', runSince c c' b s = .ok none s' ∧ Q s s' ∧ Keeps c s s' := by
  obtain ⟨is, hinserts, hplain, hrun⟩ := h
  obtain ⟨s', hperform, hQ⟩ := hrun s hsize hs
  obtain ⟨hsame, hkeeps⟩ := performAll_keeps hperform
  refine ⟨s', ?_, hQ, hsame, fun q hq => hkeeps q (.inl hq)⟩
  rw [runSince_eq hb hinserts hplain]
  exact EStateM.bind_of_ok hperform

end Executes

theorem HasLanes.later {n : Nat} (h : HasLanes c r n) (he : Executes b c c' pre Q) : HasLanes c' r n := by
  obtain ⟨i, hr, hn⟩ := h
  exact ⟨i, (he.getElem? (Array.getElem?_eq_some_iff.mp hr).1).trans hr, hn⟩

/-! ### Single instructions -/

/-- An instruction that defines its register and leaves memory alone is put in and carried out. -/
theorem Emit.instruction_executes (b : BlockId) (c : Context) {i : Instruction} {value : RunState → Lanes}
    (hi : i.IsPlain)
    (h : ∀ s, pre s → i.perform c.fresh s =
      .ok () (s.define c.fresh (value s))) :
    ∃ c', Emit.instruction i (.append b) c = .ok c.fresh c' ∧
      HasLanes c' c.fresh i.lanes ∧ c'.nextKey = c.nextKey ∧
      Executes b c c' pre fun s s' => s'.memory = s.memory ∧
        s'.value? c.fresh = some (value s) := by
  refine ⟨_, Emit.instruction_eq i, ⟨i, by simp [Context.withFunction], rfl⟩, rfl, ?_⟩
  refine .instruction b hi fun s hroom hs => ⟨_, h s hs, rfl, ?_⟩
  exact RunState.value?_define_self hroom

/-- An operation over defined registers. -/
theorem Emit.aluWith_executes (b : BlockId) (c : Context) (op : AluOp) (sources : List Source) (n : Nat) :
    ∃ c', Emit.aluWith op sources n (.append b) c = .ok c.fresh c' ∧
      HasLanes c' c.fresh n ∧ c'.nextKey = c.nextKey ∧
      Executes b c c' (fun s => ∀ source ∈ sources, (s.value? source.value).isSome) fun s s' =>
        s'.memory = s.memory ∧ s'.value? c.fresh = some (s.result op sources n) :=
  Emit.instruction_executes b c ⟨rfl, rfl⟩ fun _ hs => Instruction.perform_alu hs

end Spirv

end ShaderIR
