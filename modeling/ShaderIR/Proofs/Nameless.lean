import ShaderIR.Proofs.TwinReadings

/-!
# Streams without names

Names of ids and of members are for people. A stream without them is read as the same code: types that
differed in names become one, and every number of a type changes with that, but what stands behind
the numbers is the same once names are left out.
-/

namespace ShaderIR

open List

open Spirv

/-! ### Types without names -/

/-- A type without names, with everything it is made of. -/
inductive PlainType where
  /-- A type that is not made of others. -/
  | simple (shape : Shape)
  | array (base : PlainType) (length : Nat)
  /-- The members with what they say besides their types and names. -/
  | struct (members : List (Member × PlainType))
  | function (result : PlainType) (params : List PlainType)

/-- What a type stands for once names are left out, if its parts go at most `depth` deep. -/
def Types.plain? (types : Types) : (depth : Nat) → TypeId → Option PlainType
  | 0, _ => none
  | depth + 1, ty =>
    match types.shape? ty with
    | none => none
    | some (.array base length) => do return .array (← types.plain? depth base) length
    | some (.struct members) => do
      let members ← members.mapM fun m => do
        return ({ m with ty := 0, name := none }, ← types.plain? depth m.ty)
      return .struct members
    | some (.function result params) => do
      return .function (← types.plain? depth result) (← params.mapM (types.plain? depth))
    | some shape => return .simple shape

/-- Types of two tables that stand for the same once names are left out. -/
def Types.SameBehindNames (types types' : Types) (ty ty' : TypeId) : Prop :=
  ∃ depth t, types.plain? depth ty = some t ∧ types'.plain? depth ty' = some t

theorem mapM_eq_some_of_forall₂ {α β γ : Type} {f : α → Option γ} {g : β → Option γ} {l : List α}
    {l' : List β} (h : List.Forall₂ (fun a b => ∃ c, f a = some c ∧ g b = some c) l l') :
    ∃ cs, l.mapM f = some cs ∧ l'.mapM g = some cs := by
  induction h with
  | nil => exact ⟨[], rfl, rfl⟩
  | cons hab _ ih =>
    grind

theorem Types.Alike.plain?_eq {L : Latitude} {w : TypeMap} {types types' : Types}
    (h : types.Alike L w types') {depth : Nat} {i j : TypeId} (hij : w.Maps i j) (hj : j < depth) :
    ∃ t, types.plain? depth i = some t ∧ types'.plain? depth j = some t := by
  induction depth generalizing i j with
  | zero => exact absurd hj (Nat.not_lt_zero j)
  | succ depth ih =>
    obtain ⟨s, s', hs, hs', hss⟩ := h.shape? hij
    have hearlier (k : TypeId) (hk : k ∈ s'.mentions) : k < depth := by
      obtain ⟨t', ht', rfl⟩ := Option.map_eq_some_iff.mp hs'
      exact Nat.lt_of_lt_of_le (h.earlier j t' ht' k hk) (Nat.le_of_lt_succ hj)
    rw [Types.plain?, Types.plain?, hs, hs']
    cases s with
    | array base length =>
      obtain ⟨base', hbase, rfl⟩ := hss
      obtain ⟨t, ht, ht'⟩ := ih hbase (hearlier _ (by simp [Shape.mentions]))
      exact ⟨.array t length, by simp [ht], by simp [ht']⟩
    | struct members =>
      obtain ⟨members', hmembers, rfl⟩ := hss
      have hmem : ∀ m' ∈ members', m'.ty < depth := fun m' hm' =>
        hearlier _ (mem_map_of_mem hm')
      obtain ⟨parts, hparts, hparts'⟩ := mapM_eq_some_of_forall₂ (f := fun m : Member => do
          return (({ m with ty := 0, name := none } : Member), ← types.plain? depth m.ty))
        (g := fun m : Member => do
          return (({ m with ty := 0, name := none } : Member), ← types'.plain? depth m.ty))
        ((forall₂_and_right hmembers hmem).imp fun m m' hm => by
          obtain ⟨⟨hty, hrest⟩, hlt⟩ := hm
          obtain ⟨t, ht, ht'⟩ := ih hty hlt
          refine ⟨({ m with ty := 0, name := none }, t), by simp [ht], ?_⟩
          rw [ht', hrest]
          rfl)
      simp_all
    | function result params =>
      obtain ⟨result', params', hresult, hparams, rfl⟩ := hss
      obtain ⟨t, ht, ht'⟩ := ih hresult (hearlier _ (by simp [Shape.mentions]))
      have hmem : ∀ k ∈ params', k < depth := fun k hk => hearlier k (by simp [Shape.mentions, hk])
      obtain ⟨ts, hts, hts'⟩ := mapM_eq_some_of_forall₂ (f := types.plain? depth)
        (g := types'.plain? depth) ((forall₂_and_right hparams hmem).imp fun k k' hk => ih hk.1 hk.2)
      simp_all
    | void | scalar | vector | matrix | sampler =>
      obtain rfl := hss
      exact ⟨_, rfl, rfl⟩

theorem Types.Alike.sameBehindNames {L : Latitude} {w : TypeMap} {types types' : Types}
    (h : types.Alike L w types') {i j : TypeId} (hij : w.Maps i j) :
    types.SameBehindNames types' i j :=
  ⟨j + 1, h.plain?_eq hij (Nat.lt_succ_self j)⟩

/-! ### Modules -/

/-- Modules that differ in names, and in numbers of types that stand for the same. -/
structure Module.SameButNames (m m' : Module) : Prop where
  functions : m.functions.Pointwise (fun f f' =>
    f' = { f with name := f'.name, result := f'.result } ∧
      Option.Rel (m.types.SameBehindNames m'.types) f.result f'.result) m'.functions
  vars : m.vars.Pointwise (fun v v' =>
    v' = { v with name := v'.name, ty := v'.ty } ∧ m.types.SameBehindNames m'.types v.ty v'.ty) m'.vars
  constants : m.constants.Pointwise (fun k k' =>
    k'.value = k.value ∧ m.types.SameBehindNames m'.types k.ty k'.ty) m'.constants
  entryPoints : m'.entryPoints = m.entryPoints

theorem Module.Alike.sameButNames {L : Latitude} (hL : L.second = L.first) {w : TypeMap}
    {made : List (List Mark)} {m m' : Module} (h : m.Alike L w made m') : m.SameButNames m' where
  functions := fun k => (h.functions k).mono fun f f' hf => by
    refine ⟨?_, hf.result.mono fun _ _ => h.types.sameBehindNames⟩
    have hinstructions := hf.instructions_eq hL
    obtain ⟨name, result, locals, returnVar, instructions, blocks, body⟩ := f
    obtain ⟨name', result', locals', returnVar', instructions', blocks', body'⟩ := f'
    obtain rfl : locals' = locals := hf.locals
    obtain rfl : returnVar' = returnVar := hf.returnVar
    obtain rfl : instructions' = instructions := hinstructions
    obtain rfl : blocks' = blocks := hf.blocks
    obtain rfl : body' = body := hf.body
    rfl
  vars := h.vars.mono fun _ _ hv => ⟨hv.rest, h.types.sameBehindNames hv.ty⟩
  constants := h.constants.mono fun _ _ hk => ⟨hk.value, h.types.sameBehindNames hk.ty⟩
  entryPoints := h.entryPoints

namespace Spirv

/-! ### Streams -/

/-- A stream without the instructions that give names. -/
def withoutNames (words : List Word) : List Word := words.take headerLength ++
    ((Tiling.ofStream words headerLength words.length).instructions.filter (!·.isName)).flatMap
      RawInstruction.words

/-- The latitude of names that are left out. -/
def namelessLatitude (expansion : FwidthExpansion) : Latitude where
  rename := fun _ => none
  rename_none := rfl
  first := expansion
  second := expansion
  Strict := False
  rename_of_strict := fun h => h.elim

theorem edited_filter_names (expansion : FwidthExpansion) (z : Zone) (offset : Nat) (is : List RawInstruction) :
    Edited (namelessLatitude expansion) z is (Tiling.place offset (is.filter (!·.isName))) := by
  induction is generalizing z offset with
  | nil => exact .nil
  | cons i is ih =>
    cases hi : i.isName with
    | true =>
      rw [filter_cons_of_neg (by simp [hi])]
      exact .name (fun h => h) (fun _ => rfl) hi (ih z offset)
    | false =>
      rw [filter_cons_of_pos (by simp [hi]), Tiling.place]
      exact .both rfl (fun h => h.elim) (fun h => by rw [hi] at h; cases h) (ih _ _)

theorem streamsAlike_withoutNames (expansion : FwidthExpansion) {words : List Word}
    (hlength : headerLength ≤ words.length)
    (hfault : (Tiling.ofStream words headerLength words.length).fault = none) :
    StreamsAlike (namelessLatitude expansion) words (withoutNames words) := by
  obtain ⟨hencodable, -⟩ := Tiling.words_of_ofStream hfault
  obtain ⟨stop, hcut⟩ := Tiling.ofStream_append hlength
    fun i (hi : i ∈ (Tiling.ofStream words headerLength words.length).instructions.filter
      (!·.isName)) => hencodable i (mem_filter.mp hi).1
  unfold withoutNames
  refine ⟨?_, fun _ => ?_, fun h => h.elim⟩
  · rw [hcut]
    exact edited_filter_names expansion _ _ _
  · rw [hcut]

/-- Names do not influence the code: without its names, a stream that is read is read too, with the
same code and with types that stand for the same. -/
theorem names_leave_code {options : Options} {words : List Word} {m : Module}
    (h : (readModule options words).result = .ok m) :
    ∃ m', (readModule options (withoutNames words)).result = .ok m' ∧ m.SameButNames m' := by
  obtain ⟨header, -, -, -, hheader, -⟩ := readModule_eq_ok h
  obtain ⟨hlength, hheader'⟩ := Header.read_append hheader
    (((Tiling.ofStream words headerLength words.length).instructions.filter (!·.isName)).flatMap
      RawInstruction.words)
  have hstreams := streamsAlike_withoutNames options.fwidth hlength (fault_of_readModule h)
  have hboth := readings_abreast hstreams (hheader'.trans hheader.symm) options options rfl rfl
  rw [h] at hboth
  obtain ⟨m', w, made, hread, hm, -, -⟩ := hboth
  exact ⟨m', hread, hm.sameButNames rfl⟩

/-- Variables of two structures that differ in their names. -/
def namedStructs : List Word := [0x07230203, 99, 0, 12, 0,
   0x00030005, 5, 0x61, 0x00030005, 6, 0x62, 0x00040006, 5, 0, 0x78,
   0x00020013, 1, 0x00040015, 3, 32, 1, 0x0003001e, 5, 3, 0x0003001e, 6, 3,
   0x00040020, 7, 6, 5, 0x00040020, 8, 6, 6, 0x0004003b, 7, 9, 6, 0x0004003b, 8, 10, 6,
   0x00030021, 2, 1, 0x00050036, 1, 4, 0, 2, 0x000200f8, 11, 0x000100fd, 0x00010038]

/-- Without their names, the structures are one type, and the module has a type less. -/
theorem names_leave_code_namedStructs : ∃ m m', (readModule {} namedStructs).result = .ok m ∧
      (readModule {} (withoutNames namedStructs)).result = .ok m' ∧ m.SameButNames m' ∧
      m.types.size = 5 ∧ m'.types.size = 4 := by
  have h : hasFunction {} namedStructs 0 := by decide +kernel
  obtain ⟨m, -, hread, -⟩ := exists_of_hasFunction h
  obtain ⟨m', hread', hsame⟩ := names_leave_code hread
  have hsize : ∀ m ∈ (readModule {} namedStructs).result.toOption, m.types.size = 5 := by
    decide +kernel
  have hsize' : ∀ m ∈ (readModule {} (withoutNames namedStructs)).result.toOption,
      m.types.size = 4 := by decide +kernel
  rw [hread] at hsize
  rw [hread'] at hsize'
  exact ⟨m, m', hread, hread', hsame, hsize m rfl, hsize' m' rfl⟩

end Spirv

end ShaderIR
