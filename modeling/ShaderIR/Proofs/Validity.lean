import ShaderIR.Proofs.Paths
import ShaderIR.Proofs.Problems
import ShaderIR.Proofs.Progress

/-!
# Structure is valid

Whatever module a stream is read as, its control flow is sound: jumps end their blocks, only loops are
left by a break or a continue, every entry point has its function, and what is recorded of the edges
is what computing them again would give. So the checks find nothing wrong with it.
-/

namespace ShaderIR

open EStateM List

/-- What the control flow of a finished function is like. -/
structure Function.IsStructured (f : Function) : Prop where
  jumpsLast : f.JumpsLast
  /-- A break or a continue stands in the body of a loop. -/
  jumpsInLoops : ∀ b r j, r ∈ f.code b → f.jumpAt r = some j →
    j = .return ∨ ∃ loop ∈ f.body.loops, b ∈ loop.2.blocks
  /-- Every region starts and ends with a block. -/
  regions : ∀ ref region, f.body.find? ref = some region →
    ∃ first last, region.nodes.head? = some (.block first) ∧ region.nodes.getLast? = some (.block last)
  /-- What is recorded of the edges is current. -/
  current : f.withFlow = f

/-- Whether a problem is one of jumps or entry points. -/
def Problem.isFlow : Problem → Bool
  | .jumpNotLast .. | .jumpOutsideLoop .. | .missingEntryFunction _ => true
  | .dangling .. | .phiNotLeading .. | .phiSourceMismatch .. => false

namespace Spirv

open PhiSources (Settles)

/-! ### Jumps -/

theorem Laid.exit?_of_mem_outside {v : Chart} {scope : Scope} {s : Nat} {chain : List Nat}
    {region : Region} (h : Laid v scope s chain region) (hscope : ∀ t, scope.jump? t = none)
    {b : BlockId} (hb : b ∈ region.outside) :
    v.function.exit? b = none ∨ v.function.exit? b = some .return := by
  induction h with
  | stop _ hexit =>
    obtain rfl := mem_singleton.mp hb
    exact .inl hexit
  | jump hjump => cases (hscope _).symm.trans hjump
  | branch _ _ ih => exact ih hscope hb
  | leave _ hexit =>
    obtain rfl := mem_singleton.mp hb
    exact .inr hexit
  | cond _ hexit _ _ _ _ _ _ _ ihtrue ihfalse ihrest =>
    simp only [Region.outside, mem_cons, mem_append] at hb
    rcases hb with rfl | (hb | hb) | hb
    · exact .inl hexit
    · exact ihtrue hscope hb
    · exact ihfalse hscope hb
    · exact ihrest hscope hb
  | loop hexit _ _ _ _ _ ihrest =>
    simp only [Region.outside, mem_cons] at hb
    grind

variable {t : Tour} {d : Context}

theorem Tour.Sound.leavesLast (h : t.Sound) : t.finish.function.LeavesLast := by
  obtain ⟨log, hwalks⟩ := h.walks
  refine hwalks.leavesLast h.isOpen fun b r hr => ?_
  have hcode : t.start.function.code b = [] := by
    cases b <;> simp [Function.code, h.blank.blocks]
  simp [hcode] at hr

theorem Tour.Sound.inRange (h : t.Sound) : t.arranged.function.InRange := by
  obtain ⟨log, hwalks⟩ := h.walks
  exact inRange_arranged (hwalks.builds.inRange h.isOpen.inRange)

theorem Tour.jump?_arranged (t : Tour) (b : BlockId) : t.arranged.function.jump? b = t.finish.function.jump? b :=
  Function.jump?_congr (t.code_arranged b) fun _ _ => rfl

theorem Tour.jumpsLast_arranged (h : t.finish.function.JumpsLast) : t.arranged.function.JumpsLast := by
  intro b r hr
  rw [t.code_arranged] at hr
  exact h b r hr

section

variable (h : t.Sound)
include h

theorem Tour.Sound.mem_blocks_iff (hs : Settles t.arranged d) {b : BlockId} :
    b ∈ d.function.body.blocks ↔ b < d.function.blocks.size := by
  obtain ⟨log, hwalks⟩ := h.walks
  have hbody : d.function.body = t.body := hs.function.body
  have hsize : d.function.blocks.size = t.finish.function.blocks.size :=
    hs.function.size.trans Function.withFlow_size
  have hstart : t.start.function.blocks.size = 1 := by simp [h.blank.blocks]
  have hle := hwalks.builds.size
  rw [hbody, hwalks.mem_blocks_iff, hsize]
  lia

theorem Tour.Sound.jumpsLast (hs : Settles t.arranged d) : d.function.JumpsLast :=
  hs.function.jumpsLast h.inRange (jumpsLast_arranged h.leavesLast.jumpsLast)

theorem Tour.Sound.jump?_eq (hs : Settles t.arranged d) (b : BlockId) :
    d.function.jump? b = t.finish.function.jump? b :=
  (hs.function.jump h.inRange b).trans (t.jump?_arranged b)

theorem Tour.Sound.eq_return (hs : Settles t.arranged d) {b : BlockId} {r : Register}
    {j : Jump} (hb : b ∈ d.function.body.outside) (hr : r ∈ d.function.code b)
    (hj : d.function.jumpAt r = some j) : j = .return := by
  have hexit : d.function.exit? b = some j := by
    have hend := h.leavesLast.exit?_eq ((h.jump?_eq hs b).symm.trans ((h.jumpsLast hs).jump?_eq hr hj))
    rw [hs.function.exit h.inRange, t.exit?_arranged, hend]
  rcases (h.laid hs).exit?_of_mem_outside (fun _ => rfl) hb with hnone | hreturn
  · cases hnone.symm.trans hexit
  · exact Option.some_inj.mp (hexit.symm.trans hreturn)

theorem Tour.Sound.isStructured (hs : Settles t.arranged d) : d.function.IsStructured := by
  refine ⟨h.jumpsLast hs, fun b r j hr hj => ?_, fun ref region _ => ⟨_, _, region.nodes_eq⟩, ?_⟩
  · have hlt : b < d.function.blocks.size := by
      by_contra hge
      rw [Function.code_of_size_le (Nat.not_lt.mp hge)] at hr
      cases hr
    exact (Region.mem_outside_or_loops ((h.mem_blocks_iff hs).mpr hlt)).imp (h.eq_return hs · hr hj) id
  · -- filling in phis changes neither the jumps nor the region, so it changes no edge
    have hedges : d.function.edges = { t.finish.function with body := t.body }.edges := by
      have hbody : d.function.body = t.body := hs.function.body
      rw [Function.edges, Function.edges, hbody, funext (h.jump?_eq hs)]
      rfl
    exact Function.withFlow_eq_self hedges (hs.function.size.trans Function.withFlow_size)
      hs.function.preds hs.function.succs

end

/-! ### Entry points -/

theorem IdTable.get_of_function {ids : IdTable} {id : Id} {n : Nat} (h : ids.function id = .ok n) :
    ids.get id = .ok (.function n) := by
  unfold function at h
  cases hv : ids.get id with
  | error e => simp [hv, bind, Except.bind] at h
  | ok v =>
    rw [hv] at h
    cases v <;> simp [bind, Except.bind] at h
    rw [h]

theorem exists_of_mem_entryPoints {c c' : Context} (h : readEntryPoints c = .ok () c') {e : EntryPoint}
    (he : e ∈ c'.module.entryPoints) : ∃ id, c.ids.get id = .ok (.function e.function) := by
  have h₁ := getBind_eq_ok.mp h
  obtain ⟨entryPoints, d, hmap, hmodify⟩ := bind_eq_ok.mp h₁
  obtain rfl := modify_eq_ok.mp hmodify
  have hpending := EStateM.Looks.forall₂_of_mapM (fun e => (Lower.looks_lookup _).bind fun _ => .pure _) hmap
  obtain ⟨k, hk⟩ := List.mem_iff_getElem?.mp he
  obtain ⟨pending, -, hlookup⟩ := Ensures.exists_of_forall₂ hpending hk
  obtain ⟨n, c₃, hn, hpure⟩ := bind_eq_ok.mp hlookup
  obtain ⟨hfunction, rfl⟩ := Lower.lookup_eq_ok.mp hn
  obtain ⟨rfl, -⟩ := pure_eq_ok.mp hpure
  exact ⟨pending.function, IdTable.get_of_function hfunction⟩

theorem entryPoint_lt {options : Options} {words : List Word} {m : Module}
    (hread : (readModule options words).result = .ok m) {e : EntryPoint} (he : e ∈ m.entryPoints) :
    e.function < m.functions.size := by
  obtain ⟨header, c, d, c', -, houtline, hforM, hentries, rfl⟩ := readModule_eq_ok hread
  have houtlined := outlined_of_readOutline houtline
  obtain ⟨-, hsize, -⟩ := functions_of_forM hforM
  rw [functions_of_readEntryPoints hentries, hsize, houtlined.size]
  obtain ⟨id, hid⟩ := exists_of_mem_entryPoints hentries he
  exact houtlined.functionIds id _ ((carries_of_forM hforM).get_of_not_isLocal hid (by simp [Value.IsLocal]))

/-! ### Problems -/

theorem Tour.Sound.isFlow_eq_false (h : t.Sound) (hs : Settles t.arranged d) {name : String} {p : Problem}
    (hp : p ∈ d.function.regionProblems name false d.function.body) : p.isFlow = false := by
  obtain ⟨b, -, inside, hp, hinside⟩ := Function.mem_regionProblems hp
  rw [Function.blockProblems_eq] at hp
  rcases Function.mem_orderProblems hp with hjump | hphi
  · cases hjump with
    | notLast hr hj => cases (h.jumpsLast hs b _ hr).symm.trans hj
    | outsideLoop hr hj hreturn hloop => exact (hreturn (h.eq_return hs (hinside hloop).2 hr hj)).elim
  · cases hphi <;> rfl

/-- Whatever stream is read as a module, all functions of the module have sound control flow, its entry
points have their functions, and no problem of jumps or entry points is found in it. -/
theorem isStructured_of_readModule {options : Options} {words : List Word} {m : Module}
    (hread : (readModule options words).result = .ok m) :
    (∀ f ∈ m.functions, f.IsStructured) ∧ (∀ e ∈ m.entryPoints, e.function < m.functions.size) ∧
      ∀ p ∈ m.problems, p.isFlow = false := by
  have htour {f : Function} (hf : f ∈ m.functions) :
      ∃ t d, Tour.Sound t ∧ Settles t.arranged d ∧ d.function = f := by
    obtain ⟨index, hlt, hf⟩ := Array.getElem_of_mem hf
    obtain ⟨t, d, htour, hresolves, hd⟩ := exists_tour hread (Array.getElem?_eq_some_iff.mpr ⟨hlt, hf⟩)
    exact ⟨t, d, sound_of_tour? htour, hresolves.settles, hd⟩
  refine ⟨fun f hf => ?_, fun e he => entryPoint_lt hread he, fun p hp => ?_⟩
  · obtain ⟨t, d, hsound, hs, rfl⟩ := htour hf
    exact hsound.isStructured hs
  · rcases Module.mem_problems hp with ⟨what, index, size, rfl⟩ | ⟨e, he, hsize, -⟩ | ⟨f, hf, name, hp⟩
    · rfl
    · exact absurd (entryPoint_lt hread he) (Nat.not_lt.mpr hsize)
    · obtain ⟨t, d, hsound, hs, rfl⟩ := htour hf
      exact hsound.isFlow_eq_false hs hp

/-- An entry point whose function breaks out of a loop from its head and from inside a selection, and
continues it where the selection comes together. -/
def twoBreaks : List Word := [0x07230203, 99, 0, 12, 0, 0x0005000f, 4, 5, 0x6e69616d, 0,
   0x00020013, 1, 0x00030021, 2, 1, 0x00020014, 3, 0x00030029, 3, 4,
   0x00050036, 1, 5, 0, 2,
   0x000200f8, 6, 0x000200f9, 7,
   0x000200f8, 7, 0x000400f6, 11, 10, 0, 0x000400fa, 4, 8, 11,
   0x000200f8, 8, 0x000300f7, 10, 0, 0x000400fa, 4, 9, 10,
   0x000200f8, 9, 0x000200f9, 11,
   0x000200f8, 10, 0x000200f9, 7,
   0x000200f8, 11, 0x000100fd, 0x00010038]

theorem isStructured_of_readModule_twoBreaks :
    ∃ m f, (readModule {} twoBreaks).result = .ok m ∧ m.functions[0]? = some f ∧ f.IsStructured ∧
      (∀ e ∈ m.entryPoints, e.function < m.functions.size) ∧ ∀ p ∈ m.problems, p.isFlow = false := by
  have h : hasFunction {} twoBreaks 0 := by decide +kernel
  obtain ⟨m, f, hread, hf⟩ := exists_of_hasFunction h
  obtain ⟨hfunctions, hrest⟩ := isStructured_of_readModule hread
  grind

end Spirv

end ShaderIR
