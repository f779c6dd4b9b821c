import ShaderIR.Proofs.Outline
import ShaderIR.Proofs.Progress
import ShaderIR.Proofs.Resolution
import ShaderIR.Proofs.Trace

/-!
# How a function comes about

A module that was read holds each function as it was finished: its code was made in a walk that
started in a function without code, and then its edges and phis were filled in. The tour of a
function is what is known about its walk.
-/

namespace ShaderIR.Spirv

open EStateM List Lower

open PhiSources (Settles)

/-- What is known about the walk in which a function was made. -/
structure Tour where
  source : SourceFunction
  /-- The first block of the function in the stream. -/
  entry : Nat
  /-- The state before the walk. -/
  start : Context
  body : Region
  /-- The state after the walk. -/
  finish : Context

/-- Makes the code of the function with number `index` and keeps what is known about the walk. -/
def tourFrom (index : Nat) (source : SourceFunction) : Lower Tour := do
  let some entry := source.blocks.head? | Lower.meaningless (.noBlocks source.id)
  beginFunction index source
  let start ← get
  let body ← Structure.walk entry
  return { source, entry, start, body, finish := ← get }

/-- Reads everything before the code of the function with number `index`. -/
def readBefore (words : List Word) (index : Nat) : Lower Unit := do
  readOutline words
  ((← get).functions.toList.take index).zipIdx.forM fun (source, index) => readFunction index source

/-- The tour of the function of a stream with number `index`. -/
def tour? (options : Options) (words : List Word) (index : Nat) : Option Tour :=
  match Header.read words with
  | .error _ => none
  | .ok header =>
    match readBefore words index (.start options header) with
    | .error .. => none
    | .ok _ c =>
      match c.functions[index]? with
      | none => none
      | some source =>
        match tourFrom index source c with
        | .error .. => none
        | .ok tour _ => some tour

/-- The first block of the function of a stream with number `index`, and the state before its walk. -/
def start? (options : Options) (words : List Word) (index : Nat) : Option (Nat × Context) :=
  match Header.read words with
  | .error _ => none
  | .ok header =>
    match readBefore words index (.start options header) with
    | .error .. => none
    | .ok _ c =>
      match c.functions[index]? with
      | none => none
      | some source =>
        match source.blocks.head?, beginFunction index source c with
        | some entry, .ok _ d => some (entry, d)
        | _, _ => none

/-- The functions and blocks of a stream, before any code is made. -/
def outline? (options : Options) (words : List Word) : Option Context :=
  match Header.read words with
  | .error _ => none
  | .ok header =>
    match readOutline words (.start options header) with
    | .error .. => none
    | .ok _ c => some c

/-- Where the code of which block of the stream was made, in order. -/
def Tour.log (t : Tour) : List (Nat × BlockId) :=
  (t.finish.placed.take (t.finish.placed.length - t.start.placed.length)).reverse

/-- The finished function beside its tour. -/
def Tour.chart (t : Tour) (f : Function) : Chart := { context := t.finish, log := t.log, function := f }

/-! ### Beginning a function -/

/-- What holds of the states before and after a function is begun. -/
structure Begins (index : Nat) (c d : Context) : Prop where
  blocks : d.blocks = c.blocks
  functions : d.functions = c.functions
  ids : d.ids = c.ids
  placed : d.placed = c.placed
  types : d.module.types = c.module.types
  constants : d.module.constants = c.module.constants
  moduleFunctions : d.module.functions = c.module.functions
  ends : d.ends = []
  pendingPhis : d.pendingPhis = []
  conditionals : d.conditionals = 0
  loops : d.loops = 0
  instructions : d.function.instructions = ((c.module.functions[index]?).getD {}).instructions
  functionBlocks : d.function.blocks = ((c.module.functions[index]?).getD {}).blocks
  rooted : c.Rooted → d.Rooted

variable {options : Options} {words : List Word} {index : Nat} {source : SourceFunction} {t : Tour}
  {c c' d : Context}

theorem begins_of_beginFunction (h : beginFunction index source c = .ok () d) : Begins index c d := by
  unfold beginFunction at h
  replace h := getBind_eq_ok.mp h
  rw [bind_eq_ok] at h
  obtain ⟨_, c₃, hreport, h⟩ := h
  obtain rfl := report_eq_ok.mp hreport
  rw [bind_eq_ok] at h
  obtain ⟨_, c₄, hmodify, h⟩ := h
  rw [modify_eq_ok] at hmodify
  have hc₄ : Begins index c c₄ := by
    subst hmodify
    refine ⟨rfl, rfl, rfl, rfl, rfl, rfl, rfl, rfl, rfl, rfl, rfl, rfl, rfl, fun hc => ?_⟩
    refine ⟨hc.pointers, hc.constants, hc.initials, hc.functions, ?_⟩
    cases hf : c.module.functions[index]? with
    | none => exact .blank _ none none
    | some f => exact hc.functions f (Array.mem_of_getElem? hf)
  cases hresult : ((c.module.functions[index]?).getD {}).result with
  | none =>
    simp only [hresult] at h
    obtain ⟨-, rfl⟩ := pure_eq_ok.mp h
    exact hc₄
  | some ty =>
    simp only [hresult] at h
    rw [bind_eq_ok] at h
    obtain ⟨v, c₅, hvar, h⟩ := h
    obtain rfl := modify_eq_ok.mp h
    obtain ⟨rfl, rfl⟩ := addVariable_eq_ok.mp hvar
    refine { hc₄ with rooted := fun hc => ?_ }
    have hc₅ : (c₄.withVariable { name := some "return_value", ty, mode := .functionLocal } true).Rooted :=
      (hc₄.rooted hc).withVariable (by simp) fun _ => rfl
    refine hc₅.withFunction { hc₅.function with returnVar := fun v hv => ?_ }
    obtain rfl := Option.some_inj.mp hv
    simp [Context.withVariable]

/-! ### Making a function -/

/-- The state after a walk, with the region and the edges of the function in place. -/
def Tour.arranged (t : Tour) : Context := t.finish.withFunction { t.finish.function with body := t.body }.withFlow

/-- A tour was taken from a state. -/
structure Tour.Taken (t : Tour) (index : Nat) (c : Context) : Prop where
  entry : t.source.blocks.head? = some t.entry
  begins : Begins index c t.start
  walks : ∃ log, Structure.Walks 0 t.entry none {} t.start t.body t.finish log

theorem readFunction_eq_ok (h : readFunction index source c = .ok () c') :
    ∃ (t : Tour) (d : Context), tourFrom index source c = .ok t t.finish ∧ t.source = source ∧
      t.Taken index c ∧ PhiSources.ResolvesAll (PhiSources.phisOf t.finish source) t.arranged d ∧
      c' = { d with
        module := { d.module with
          functions := d.module.functions.setIfInBounds index d.function } } := by
  unfold readFunction at h
  cases hentry : source.blocks.head? with
  | none =>
    simp only [hentry] at h
    exact (throw_eq_ok.mp h).elim
  | some entry =>
    simp only [hentry] at h
    obtain ⟨_, start, hbegin, h₁⟩ := bind_eq_ok.mp h
    obtain ⟨body, finish, hwalk, h₂⟩ := bind_eq_ok.mp h₁
    obtain ⟨_, c₁, hmodify, h₃⟩ := bind_eq_ok.mp h₂
    obtain ⟨_, d, hresolve, hstore⟩ := bind_eq_ok.mp h₃
    obtain rfl := modify_eq_ok.mp hmodify
    obtain rfl := modify_eq_ok.mp hstore
    refine ⟨⟨source, entry, start, body, finish⟩, d, ?_, rfl, ⟨hentry, begins_of_beginFunction hbegin, ?_⟩,
      PhiSources.resolvesAll_of_resolveAll hresolve, rfl⟩
    · unfold tourFrom
      simp only [hentry]
      exact bind_eq_ok.mpr ⟨_, _, hbegin, bind_eq_ok.mpr ⟨_, _, rfl,
        bind_eq_ok.mpr ⟨_, _, hwalk, bind_eq_ok.mpr ⟨_, _, rfl, rfl⟩⟩⟩⟩
    · obtain ⟨log, -, hwalks⟩ := Structure.walks_of_walk hwalk
      exact ⟨log, hwalks⟩

theorem functions_of_readFunction (h : readFunction index source c = .ok () c') :
    c'.functions = c.functions ∧ c'.module.functions.size = c.module.functions.size ∧
      ∀ j, j ≠ index → c'.module.functions[j]? = c.module.functions[j]? := by
  obtain ⟨t, d, -, -, htaken, hresolves, rfl⟩ := readFunction_eq_ok h
  obtain ⟨log, hwalks⟩ := htaken.walks
  have hs := hresolves.settles
  have hfunctions : d.module.functions = c.module.functions :=
    hs.moduleFunctions.trans (hwalks.builds.moduleFunctions.trans htaken.begins.moduleFunctions)
  refine ⟨hs.functions.trans (hwalks.builds.functions.trans htaken.begins.functions), ?_, fun j hj => ?_⟩
  · simp [hfunctions]
  grind

theorem functions_of_forM {l : List (SourceFunction × Nat)}
    (h : (l.forM fun (source, index) => readFunction index source) c = .ok () c') :
    c'.functions = c.functions ∧ c'.module.functions.size = c.module.functions.size ∧
      ∀ j, (∀ p ∈ l, p.2 ≠ j) → c'.module.functions[j]? = c.module.functions[j]? := by
  induction l generalizing c with
  | nil =>
    obtain ⟨-, rfl⟩ := pure_eq_ok.mp h
    exact ⟨rfl, rfl, fun _ _ => rfl⟩
  | cons p l ih =>
    obtain ⟨_, d, hp, hrest⟩ := bind_eq_ok.mp h
    obtain ⟨hf, hsize, hj⟩ := functions_of_readFunction hp
    grind

namespace Carries

theorem grounded (h : Carries c c') (hc : c.Grounded) : c'.Grounded :=
  hc.of_extends (fun _ _ hget => h.get_of_not_isLocal hget (by simp [Value.IsLocal])) h.constants h.types

theorem block_eq_ok (h : Carries c c') {id : Id} {n : Nat} :
    c'.ids.block id = .ok n ↔ c.ids.block id = .ok n := by
  rw [IdTable.block_eq_ok, IdTable.block_eq_ok]
  exact ⟨fun hget => h.get_of_not_isLocal hget (by simp [Value.IsLocal]), h.ids id _⟩

end Carries

theorem Begins.carries (h : Begins index c d) : Carries c d where
  blocks := h.blocks
  functions := h.functions
  ids := by rw [h.ids]
  newIds := fun _ _ hget => .inl (by rwa [h.ids] at hget)
  types := by rw [h.types]
  constants := h.constants

theorem Tour.Taken.carries (h : t.Taken index c) : Carries c t.start ∧ Carries t.start t.finish := by
  obtain ⟨log, hwalks⟩ := h.walks
  exact ⟨h.begins.carries, hwalks.carries⟩

theorem carries_of_settles (h : Settles c c') : Carries c c' :=
  ⟨h.blocks, h.functions, by rw [h.ids], fun _ _ hget => .inl (by rwa [h.ids] at hget), h.types, h.constants⟩

theorem carries_of_readFunction (h : readFunction index source c = .ok () c') : Carries c c' := by
  obtain ⟨t, d, -, -, htaken, hresolves, rfl⟩ := readFunction_eq_ok h
  have harranged : Carries t.finish t.arranged := { Carries.refl t.finish with }
  have hd := ((htaken.carries.1.trans htaken.carries.2).trans harranged).trans
    (carries_of_settles hresolves.settles)
  exact { hd with }

theorem carries_of_forM {l : List (SourceFunction × Nat)}
    (h : (l.forM fun (source, index) => readFunction index source) c = .ok () c') : Carries c c' :=
  forM_keeps (fun _ _ _ hp hc => hc.trans (carries_of_readFunction hp)) h (.refl c)

/-! ### Reading a module -/

/-- What every tour of a function of a stream is like. -/
structure Tour.Sound (t : Tour) : Prop where
  entry : t.source.blocks.head? = some t.entry
  /-- The walk starts in a function without code. -/
  blank : t.start.function.IsBlank
  ends : t.start.ends = []
  pendingPhis : t.start.pendingPhis = []
  walks : ∃ log, Structure.Walks 0 t.entry none {} t.start t.body t.finish log

theorem Tour.Sound.carries (h : t.Sound) : Carries t.start t.finish := by
  obtain ⟨log, hwalks⟩ := h.walks
  exact hwalks.carries

theorem blank_of_readBefore {header : Header} (h : readBefore words index (.start options header) = .ok () c) :
    ((c.module.functions[index]?).getD {}).IsBlank := by
  obtain ⟨_, c₁, houtline, h₁⟩ := bind_eq_ok.mp h
  have hforM := getBind_eq_ok.mp h₁
  have houtlined := outlined_of_readOutline houtline
  obtain ⟨-, -, hj⟩ := functions_of_forM hforM
  rw [hj index]
  · cases hf : c₁.module.functions[index]? with
    | none => exact ⟨rfl, rfl⟩
    | some f => exact houtlined.blank f (Array.mem_of_getElem? hf)
  grind

theorem Tour.Taken.sound (h : t.Taken index c)
    (hblank : ((c.module.functions[index]?).getD {}).IsBlank) : t.Sound where
  entry := h.entry
  blank := ⟨h.begins.instructions.trans hblank.instructions, h.begins.functionBlocks.trans hblank.blocks⟩
  ends := h.begins.ends
  pendingPhis := h.begins.pendingPhis
  walks := h.walks

theorem taken_of_tourFrom (h : tourFrom index source c = .ok t c') : t.source = source ∧ t.Taken index c := by
  unfold tourFrom at h
  cases hentry : source.blocks.head? with
  | none =>
    simp only [hentry] at h
    exact (throw_eq_ok.mp h).elim
  | some entry =>
    simp only [hentry] at h
    obtain ⟨_, start, hbegin, h₁⟩ := bind_eq_ok.mp h
    have h₂ := getBind_eq_ok.mp h₁
    obtain ⟨body, finish, hwalk, h₃⟩ := bind_eq_ok.mp h₂
    have hpure := getBind_eq_ok.mp h₃
    obtain ⟨rfl, rfl⟩ := pure_eq_ok.mp hpure
    obtain ⟨log, -, hwalks⟩ := Structure.walks_of_walk hwalk
    exact ⟨rfl, hentry, begins_of_beginFunction hbegin, log, hwalks⟩

theorem sound_of_tour? (h : tour? options words index = some t) : t.Sound := by
  unfold tour? at h
  split at h
  · cases h
  · split at h
    · cases h
    · split at h
      · cases h
      · split at h
        · cases h
        · cases h
          exact (taken_of_tourFrom ‹_›).2.sound (blank_of_readBefore ‹_›)

/-- What a tour has to do with the functions and blocks of its stream. -/
structure Tour.Of (t : Tour) (c : Context) (index : Nat) : Prop where
  outlined : Outlined c
  numbered : Numbered c.blocks.size c
  grounded : c.Grounded
  source : c.functions[index]? = some t.source
  carries : Carries c t.start
  /-- The functions before were made before. -/
  before : ∃ d, ((c.functions.toList.take index).zipIdx.forM fun (source, index) =>
    readFunction index source) c = .ok () d ∧ Begins index d t.start

theorem exists_outline
    (h : tour? options words index = some t) : ∃ c, outline? options words = some c ∧ t.Of c index := by
  unfold tour? at h
  split at h
  · cases h
  · rename_i header hheader
    split at h
    · cases h
    · rename_i d hbefore
      obtain ⟨_, c, houtline, h₁⟩ := bind_eq_ok.mp hbefore
      have hforM := getBind_eq_ok.mp h₁
      refine ⟨c, by simp only [outline?, hheader, houtline], ?_⟩
      split at h
      · cases h
      · rename_i source hsource
        split at h
        · cases h
        · rename_i tour c' htour
          cases h
          obtain ⟨rfl, htaken⟩ := taken_of_tourFrom htour
          have hcarries := carries_of_forM hforM
          rw [hcarries.functions] at hsource
          exact ⟨outlined_of_readOutline houtline, numbered_of_readOutline houtline,
            grounded_of_readOutline houtline, hsource, hcarries.trans htaken.carries.1, d, hforM,
            htaken.begins⟩

/-- What the state before the walk of a function has to do with the functions and blocks of its stream. -/
structure Starts (c : Context) (index entry : Nat) (d : Context) : Prop where
  outlined : Outlined c
  numbered : Numbered c.blocks.size c
  entry : ∃ f, c.functions[index]? = some f ∧ f.blocks.head? = some entry
  /-- The functions before were made before. -/
  before : ∃ d₀, ((c.functions.toList.take index).zipIdx.forM fun (source, index) =>
    readFunction index source) c = .ok () d₀ ∧ Begins index d₀ d

theorem Starts.carries {index entry : Nat} (h : Starts c index entry d) : Carries c d := by
  obtain ⟨d₀, hforM, hbegins⟩ := h.before
  exact (carries_of_forM hforM).trans hbegins.carries

theorem starts_of_start? {index entry : Nat} (houtline : outline? options words = some c)
    (h : start? options words index = some (entry, d)) : Starts c index entry d := by
  unfold outline? at houtline
  unfold start? at h
  split at h
  · cases h
  · rename_i header hheader
    simp only [hheader] at houtline
    split at h
    · cases h
    · rename_i d₀ hbefore
      obtain ⟨_, c₀, hreadOutline, h₁⟩ := bind_eq_ok.mp hbefore
      have hforM := getBind_eq_ok.mp h₁
      simp only [hreadOutline, Option.some.injEq] at houtline
      subst houtline
      split at h
      · cases h
      · rename_i source hsource
        split at h
        · rename_i hentry hbegin
          cases h
          rw [(carries_of_forM hforM).functions] at hsource
          exact ⟨outlined_of_readOutline hreadOutline, numbered_of_readOutline hreadOutline,
            ⟨source, hsource, hentry⟩, d₀, hforM, begins_of_beginFunction hbegin⟩
        · cases h

theorem module_of_readEntryPoints (h : readEntryPoints c = .ok () c') :
    ∃ entryPoints, c'.module = { c.module with entryPoints } := by
  have h₁ := getBind_eq_ok.mp h
  obtain ⟨entryPoints, d, hmap, hmodify⟩ := bind_eq_ok.mp h₁
  obtain rfl : d = c := EStateM.Looks.mapM (fun e => (looks_lookup _).bind fun _ => .pure _) _ hmap
  obtain rfl := modify_eq_ok.mp hmodify
  exact ⟨entryPoints, rfl⟩

theorem functions_of_readEntryPoints (h : readEntryPoints c = .ok () c') :
    c'.module.functions = c.module.functions := by
  obtain ⟨entryPoints, hmodule⟩ := module_of_readEntryPoints h
  rw [hmodule]

/-- A module is read in passes, each of which goes on from the one before. -/
theorem readModule_eq_ok {m : Module} (h : (readModule options words).result = .ok m) :
    ∃ header c d c', Header.read words = .ok header ∧ readOutline words (.start options header) = .ok () c ∧
      (c.functions.toList.zipIdx.forM fun (source, index) => readFunction index source) c = .ok () d ∧
      readEntryPoints d = .ok () c' ∧ c'.module = m := by
  unfold readModule at h
  split at h
  · cases h
  · rename_i header hheader
    cases hbody : readBody words (.start options header) with
    | error e c =>
      rw [hbody] at h
      cases h
    | ok m' c' =>
      rw [hbody] at h
      cases h
      obtain ⟨_, c, houtline, h₁⟩ := bind_eq_ok.mp hbody
      have h₂ := getBind_eq_ok.mp h₁
      obtain ⟨_, d, hforM, h₃⟩ := bind_eq_ok.mp h₂
      obtain ⟨_, d', hentries, h₄⟩ := bind_eq_ok.mp h₃
      have hpure := getBind_eq_ok.mp h₄
      obtain ⟨rfl, rfl⟩ := pure_eq_ok.mp hpure
      simp_all

theorem exists_outline_of_readModule {m : Module}
    (h : (readModule options words).result = .ok m) : ∃ c, outline? options words = some c := by
  obtain ⟨header, c, -, -, hheader, houtline, -⟩ := readModule_eq_ok h
  exact ⟨c, by simp only [outline?, hheader, houtline]⟩

theorem index_lt_of_tour? (houtline : outline? options words = some c)
    (h : tour? options words index = some t) : index < c.functions.size := by
  obtain ⟨c', houtline', hof⟩ := exists_outline h
  obtain rfl : c' = c := Option.some_inj.mp (houtline'.symm.trans houtline)
  exact (Array.getElem?_eq_some_iff.mp hof.source).1

theorem exists_tour {m : Module} {f : Function}
    (hread : (readModule options words).result = .ok m) (hf : m.functions[index]? = some f) :
    ∃ t d, tour? options words index = some t ∧
      PhiSources.ResolvesAll (PhiSources.phisOf t.finish t.source) t.arranged d ∧ d.function = f := by
  obtain ⟨header, c, c', c'', hheader, houtline, hforM, hentries, rfl⟩ := readModule_eq_ok hread
  rw [functions_of_readEntryPoints hentries] at hf
  have houtlined := outlined_of_readOutline houtline
  have hlt : index < c.functions.toList.length := by
    obtain ⟨hlt, -⟩ := Array.getElem?_eq_some_iff.mp hf
    obtain ⟨-, hsize, -⟩ := functions_of_forM hforM
    rw [hsize, houtlined.size] at hlt
    simpa using hlt
  -- the functions before this one, this one, and those after it
  have hsplit : c.functions.toList.zipIdx = (c.functions.toList.take index).zipIdx ++
      (c.functions.toList[index], index) :: (c.functions.toList.drop (index + 1)).zipIdx (index + 1) := by
    conv_lhs => rw [← take_append_drop index c.functions.toList]
    rw [zipIdx_append, length_take, Nat.min_eq_left (Nat.le_of_lt hlt), Nat.zero_add,
      ← getElem_cons_drop hlt, zipIdx_cons]
  rw [hsplit] at hforM
  obtain ⟨d₁, hbefore, hforM⟩ := forM_append_eq_ok.mp hforM
  obtain ⟨_, d₂, hthis, hafter⟩ := bind_eq_ok.mp hforM
  obtain ⟨t, d, htour, hsource, htaken, hresolves, rfl⟩ := readFunction_eq_ok hthis
  refine ⟨t, d, ?_, hsource ▸ hresolves, ?_⟩
  · have hreadBefore : readBefore words index (.start options header) = .ok () d₁ :=
      bind_eq_ok.mpr ⟨_, _, houtline, bind_eq_ok.mpr ⟨_, _, rfl, hbefore⟩⟩
    have hfunctions : d₁.functions[index]? = some c.functions.toList[index] := by
      rw [(functions_of_forM hbefore).1, ← Array.getElem?_toList, getElem?_eq_getElem hlt]
    unfold tour?
    simp only [hheader, hreadBefore, hfunctions, htour]
  · obtain ⟨-, -, hkeeps⟩ := functions_of_forM hafter
    grind

/-- Whether a stream is read as a module that has a function with number `index`. -/
def hasFunction (options : Options) (words : List Word) (index : Nat) : Bool :=
  match (readModule options words).result with
  | .ok m => index < m.functions.size
  | .error _ => false

theorem exists_of_hasFunction (h : hasFunction options words index) :
    ∃ m f, (readModule options words).result = .ok m ∧ m.functions[index]? = some f := by
  unfold hasFunction at h
  cases hread : (readModule options words).result with
  | error e => simp [hread] at h
  | ok m =>
    simp_all

/-- What a reading failed with. -/
def Reading.error? (r : Reading) : Option Error :=
  match r.result with
  | .ok _ => none
  | .error e => some e

/-- Runs the first function of a stream on a memory: how the run ends, and the memory it leaves. -/
def runFirst (words : List Word) (memory : Memory) : Option (Option EvalError × Memory) := do
  let m ← (readModule {} words).result.toOption
  let f ← m.functions[0]?
  let (e, machine) := ({ memory } : Machine).run f
  return (e, machine.memory)

end ShaderIR.Spirv
