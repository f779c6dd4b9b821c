import ShaderIR.Proofs.Computes
import ShaderIR.Proofs.Handlers
import ShaderIR.Proofs.Lanes

/-!
# Transposes in straight-line code

A transpose is made by gathering the lanes of each row, and it is remembered both ways. In
straight-line code the gathers have run by the time a remembered transpose is used, so its lanes are
those of the matrix across.
-/

namespace ShaderIR

open EStateM List

theorem VectorSize.exists_ofLanes? {n : Nat} (h : 2 ≤ n ∧ n ≤ 4) : ∃ size, ofLanes? n = some size := by
  obtain ⟨h₂, h₄⟩ := h
  interval_cases n
  · exact ⟨two, rfl⟩
  · exact ⟨three, rfl⟩
  · exact ⟨four, rfl⟩

/-- A matrix type can be had for one to four columns of two to four lanes. -/
theorem Types.exists_matrix? (types : Types) (scalar : Scalar) {columns rows : Nat}
    (hcolumns : 1 ≤ columns ∧ columns ≤ 4) (hrows : 2 ≤ rows ∧ rows ≤ 4) :
    ∃ ty types' shape, types.matrix? scalar columns rows = some (ty, types') ∧
      types'.shape? ty = some shape ∧ shape.scalar? = some scalar ∧
      (columns ≠ 1 → types'.childShape? shape 0 ≠ none) := by
  obtain ⟨height, hheight⟩ := VectorSize.exists_ofLanes? hrows
  by_cases hone : columns = 1
  · refine ⟨_, _, .vector height scalar, ?_, Types.shape?_insertShape types _, rfl, by simp [hone]⟩
    simp [matrix?, vector?, hone, hheight, show rows ≠ 1 by omega]
  · obtain ⟨width, hwidth⟩ := VectorSize.exists_ofLanes? (show 2 ≤ columns ∧ columns ≤ 4 by omega)
    refine ⟨_, _, .matrix width height scalar, ?_, Types.shape?_insertShape types _, rfl, ?_⟩
    · simp [matrix?, hone, hwidth, hheight]
    · simp [childShape?]

/-- A lane of a vector put together from one lane of each of several registers. -/
theorem get_result_gather {s : RunState} {registers : List Register} {j : UInt8} {k : Nat}
    {r : Register} (h : 2 ≤ registers.length ∧ registers.length ≤ 4)
    (hk : registers[k]? = some r) :
    (s.result (.ofLanes registers.length) (registers.map (.lane · j)) registers.length).get k =
      (s.lanes r).get (j &&& 3).toNat := by
  obtain ⟨hlt, rfl⟩ := List.getElem?_eq_some_iff.mp hk
  match registers, h with
  | [_, _], _ | [_, _, _], _ | [_, _, _, _], _ =>
    simp only [List.length_cons, List.length_nil] at hlt
    interval_cases k <;> rfl
  | _ :: _ :: _ :: _ :: _ :: _, h =>
    simp only [List.length_cons] at h
    omega

namespace Spirv

/-- The registers of the columns of a matrix; a vector is a single column. -/
def Tree.columns? : Tree → Option (List Register)
  | .leaf _ _ r => some [r]
  | .node _ _ children => children.mapM register?

/-- A tree is a matrix of floats with given columns of `rows` lanes. -/
structure IsMatrix (c : Context) (t : Tree) (columns : List Register) (rows : Nat) : Prop where
  columns?_eq : t.columns? = some columns
  lanes : ∀ r ∈ columns, HasLanes c r rows
  float : ∃ scalar : Scalar, (c.module.types.shape? t.ty).bind Shape.scalar? = some scalar ∧ scalar.kind = .float

variable {b : BlockId} {is : List Instruction} {c c' : Context} {t : Tree} {columns : List Register} {rows : Nat}

theorem IsMatrix.mono (h : IsMatrix c t columns rows) (happends : Appends b is c c') :
    IsMatrix c' t columns rows where
  columns?_eq := h.columns?_eq
  lanes := fun r hr => (h.lanes r hr).mono happends
  float := by
    obtain ⟨scalar, hscalar, hfloat⟩ := h.float
    obtain ⟨shape, hshape, hs⟩ := Option.bind_eq_some_iff.mp hscalar
    exact ⟨scalar, Option.bind_eq_some_iff.mpr ⟨shape, happends.types.shape? hshape, hs⟩, hfloat⟩

namespace Code

/-! ### Looking at a matrix -/

theorem columns_of_columns? (h : t.columns? = some columns) (c : Context) : Code.columns t c = .ok columns c := by
  cases t with
  | leaf key ty r =>
    cases h
    rfl
  | node key ty children =>
    change children.mapM Tree.register? = some columns at h
    change children.mapM Lower.register c = .ok columns c
    induction children generalizing columns with
    | nil =>
      rw [mapM_nil] at h
      cases h
      rfl
    | cons t ts ih =>
      rw [mapM_cons] at h
      obtain ⟨r, hr, h⟩ := Option.bind_eq_some_iff.mp h
      obtain ⟨rs, hrs, h⟩ := Option.bind_eq_some_iff.mp h
      cases h
      have hregister : Lower.register t c = .ok r c := by
        simp only [Lower.register, hr]
        rfl
      rw [mapM_cons, bind_of_ok hregister, bind_of_ok (ih hrs)]
      rfl

theorem scalarOfTree_eq {scalar : Scalar} (h : (c.module.types.shape? t.ty).bind Shape.scalar? = some scalar) :
    scalarOfTree t c = .ok scalar c := by
  obtain ⟨shape, hshape, hscalar⟩ := Option.bind_eq_some_iff.mp h
  refine (bind_of_ok (Lower.shape_of_shape? hshape)).trans ?_
  simp only [hscalar]
  rfl

theorem knownTranspose?_eq {known : Option Tree} (h : c.transposes.lookup t.key = known) :
    knownTranspose? t c = .ok known c := by
  rw [← h]
  rfl

/-! ### Putting columns together -/

theorem mapM_leaf (ty : TypeId) (columns : List Register) (c : Context) :
    ∃ ts, columns.mapM (Lower.leaf ty) c = .ok ts { c with nextKey := c.nextKey + columns.length } ∧
      ts.mapM Tree.register? = some columns := by
  induction columns generalizing c with
  | nil => exact ⟨[], rfl, rfl⟩
  | cons r rs ih =>
    obtain ⟨ts, hts, hregisters⟩ := ih { c with nextKey := c.nextKey + 1 }
    have hleaf : Lower.leaf ty r c = .ok (.leaf c.nextKey ty r) { c with nextKey := c.nextKey + 1 } := rfl
    refine ⟨.leaf c.nextKey ty r :: ts, ?_, ?_⟩
    · rw [mapM_cons, bind_of_ok hleaf, bind_of_ok hts]
      simp only [length_cons, Nat.add_right_comm, ← Nat.add_assoc]
      rfl
    · simp [mapM_cons, hregisters, Tree.register?]

/-- Columns that exist can be put together to a matrix with a key of its own. -/
theorem matrixOfColumns_eq (b : BlockId) {scalar : Scalar} (hcolumns : 1 ≤ columns.length ∧ columns.length ≤ 4)
    (hrows : 2 ≤ rows ∧ rows ≤ 4) (hlanes : ∀ r ∈ columns, HasLanes c r rows)
    (hfloat : scalar.kind = .float) :
    ∃ t c', matrixOfColumns scalar columns rows c = .ok t c' ∧ Appends b [] c c' ∧
      IsMatrix c' t columns rows ∧ c.nextKey ≤ t.key ∧ t.key < c'.nextKey ∧
      c'.transposes = c.transposes ∧ (t.register?.isSome ↔ columns.length = 1) := by
  obtain ⟨ty, types, shape, hmatrix, hshape, hscalar, hchild⟩ :=
    c.module.types.exists_matrix? scalar hcolumns hrows
  have hext := Types.extends_of_matrix? hmatrix
  set c₁ : Context := { c with module := { c.module with types } } with hc₁
  have hkeep : Lower.keepTypes (c.module.types.matrix? scalar columns.length rows)
      (.noMatrixType columns.length rows) c = .ok ty c₁ := by
    rw [hmatrix]
    rfl
  have hinserts : Appends b [] c c₁ := { Appends.refl b c with types := hext }
  have hlanes₁ : ∀ r ∈ columns, HasLanes c₁ r rows := fun r hr => (hlanes r hr).mono hinserts
  have htype : (c₁.module.types.shape? ty).bind Shape.scalar? = some scalar :=
    Option.bind_eq_some_iff.mpr ⟨shape, hshape, hscalar⟩
  unfold matrixOfColumns
  rw [get_bind, bind_of_ok hkeep]
  match columns, hcolumns with
  | [column], _ =>
    refine ⟨_, _, rfl, ?_, ⟨rfl, ?_, scalar, htype, hfloat⟩, Nat.le_refl _, Nat.lt_succ_self _, rfl, ?_⟩
    · exact { hinserts with nextKey := Nat.le_succ _ }
    · exact hlanes₁
    · simp [Tree.register?]
  | column :: column' :: rest, _ =>
    obtain ⟨child, hchild⟩ := Option.ne_none_iff_exists'.mp (hchild (by simp))
    obtain ⟨columnType, types₂, hcolumn, -⟩ := Types.exists_child? hshape hchild
    have hext₂ := Types.extends_of_child? hcolumn
    have hchildType : Lower.childType ty 0 c₁ =
        .ok columnType { c₁ with module := { c₁.module with types := types₂ } } := by
      refine get_bind.trans ?_
      rw [hcolumn]
      rfl
    obtain ⟨ts, hts, hregisters⟩ := mapM_leaf columnType (column :: column' :: rest)
      { c₁ with module := { c₁.module with types := types₂ } }
    refine ⟨_, _, (bind_of_ok hchildType).trans ((bind_of_ok hts).trans rfl),
      ?_, ⟨hregisters, ?_, scalar, ?_, hfloat⟩, Nat.le_add_right .., Nat.lt_succ_self _, rfl, ?_⟩
    · exact { hinserts with types := hext.trans hext₂, nextKey := by simp only [hc₁]; omega }
    · exact hlanes₁
    · exact Option.bind_eq_some_iff.mpr ⟨shape, hext₂.shape? hshape, hscalar⟩
    · simp [Tree.register?]

end Code

/-! ### Gathered lanes -/

/-- Columns numbered from `base` on, each of which gathers one lane of every column of a matrix. -/
def Gathers (base : Nat) (c : Context) (columns transposed : List Register) : Prop :=
  ∀ (row : Nat) (q : Register), transposed[row]? = some q →
    IsResult base c q (.ofLanes columns.length) (columns.map (.lane · row.toUInt32.toUInt8)) columns.length

/-- The lanes of one matrix are those of another across. -/
def Mirrors (s : RunState) (columns transposed : List Register) : Prop :=
  ∀ (k row : Nat) (p q : Register), columns[k]? = some p → transposed[row]? = some q →
    (s.lanes q).get k = (s.lanes p).get row

theorem Mirrors.symm {s : RunState} {transposed : List Register} (h : Mirrors s columns transposed) :
    Mirrors s transposed columns := by
  intro row k q p hq hp
  exact (h k row p q hp hq).symm

namespace Gathers

variable {base : Nat} {transposed : List Register}

theorem mono (h : Gathers base c columns transposed) (happends : Appends b is c c') :
    Gathers base c' columns transposed := by
  intro row q hq
  exact (h row q hq).mono happends

variable {s : RunState} (h : Gathers base c columns transposed) (hs : s.Solves c.function base)

include h hs

theorem isSome : ∀ q ∈ transposed, (s.value? q).isSome := by
  intro q hq
  obtain ⟨row, hrow⟩ := mem_iff_getElem?.mp hq
  rw [(h row q hrow).value hs]
  rfl

theorem isSome_source (hpos : transposed ≠ []) : ∀ p ∈ columns, (s.value? p).isSome := by
  intro p hp
  obtain ⟨q, rest, rfl⟩ := exists_cons_of_ne_nil hpos
  exact (h 0 q rfl).isSome_source hs (mem_map_of_mem hp)

theorem mirrors (hcolumns : 2 ≤ columns.length ∧ columns.length ≤ 4) (hrows : transposed.length ≤ 4) :
    Mirrors s columns transposed := by
  intro k row p q hp hq
  have hrow : row < 4 := by
    grind
  have hlane : (row.toUInt32.toUInt8 &&& 3).toNat = row := by
    interval_cases row <;> rfl
  rw [RunState.lanes_of_value? ((h row q hq).value hs), get_result_gather hcolumns hp, hlane]

end Gathers

/-! ### Making a transpose -/

/-- A transpose that is not known can be made, and it is then known both ways. -/
theorem Site.transpose {base : Nat} {P : Nat → Prop} (h : Site b base P c)
    (hm : IsMatrix c t columns rows) (hcolumns : 2 ≤ columns.length ∧ columns.length ≤ 4)
    (hrows : 2 ≤ rows ∧ rows ≤ 4) (hP : ∀ r ∈ columns, P r)
    (hunknown : c.transposes.lookup t.key = none) :
    ∃ t' c₁ is transposed, Code.transpose t (.append b) c =
        .ok t' { c₁ with transposes := (t.key, t') :: (t'.key, t) :: c₁.transposes } ∧
      Appends b is c c₁ ∧ c₁.transposes = c.transposes ∧
      Arithmetic P c.fresh is ∧
      IsMatrix c₁ t' transposed columns.length ∧ transposed.length = rows ∧
      Gathers base c₁ columns transposed ∧ (∀ q ∈ transposed, P q) ∧
      c.nextKey ≤ t'.key ∧ t'.key < c₁.nextKey ∧ t'.register? = none := by
  obtain ⟨scalar, hscalar, hfloat⟩ := hm.float
  obtain ⟨first, others, rfl⟩ := exists_cons_of_length_pos (show 0 < columns.length by omega)
  have hgather : Computes b P c ((List.range rows).mapM fun row =>
      Emit.gather ((first :: others).map fun column => (column, row.toUInt32)))
      fun c' transposed => List.Forall₂ (fun row q =>
        IsResult base c' q (.ofLanes (first :: others).length)
          ((first :: others).map (.lane · row.toUInt32.toUInt8)) (first :: others).length ∧ P q)
        (List.range rows) transposed := by
    apply Computes.mapM
    · rintro c₁ c₂ is row q happends ⟨hq, hPq⟩
      exact ⟨hq.mono happends, hPq⟩
    · intro row _ c' is happends
      apply (h.mono happends).gather
      intro r hr
      exact ⟨((hm.lanes r hr).mono happends).lt, hP r hr⟩
  obtain ⟨transposed, c₁, is, hmapM, happends, hknown, harith, hresults⟩ := hgather
  have hlength : transposed.length = rows := by simpa using hresults.length_eq.symm
  have hgathers : Gathers base c₁ (first :: others) transposed := by
    intro row q hq
    exact (Ensures.of_forall₂_range hresults hq).1
  have hreadable : ∀ q ∈ transposed, P q := by
    intro q hq
    obtain ⟨row, hrow⟩ := mem_iff_getElem?.mp hq
    exact (Ensures.of_forall₂_range hresults hrow).2
  have hlanes : ∀ q ∈ transposed, HasLanes c₁ q (first :: others).length := by
    intro q hq
    obtain ⟨row, hrow⟩ := mem_iff_getElem?.mp hq
    exact .of_isResult (hgathers row q hrow)
  obtain ⟨t', c₂, hmatrix, happends₂, ht', hkey, hlt, hknown₂, hregister⟩ :=
    Code.matrixOfColumns_eq b (by omega) hcolumns hlanes hfloat
  have hmade : Code.transpose t (.append b) c =
      .ok t' { c₂ with transposes := (t.key, t') :: (t'.key, t) :: c₂.transposes } := by
    unfold Code.transpose
    refine (Emit.lift_of_ok (Code.knownTranspose?_eq hunknown)).trans ?_
    refine (Emit.lift_of_ok (Code.columns_of_columns? hm.columns?_eq c)).trans ?_
    refine (Emit.lift_of_ok (a := first) rfl).trans ?_
    refine (Emit.lift_of_ok (hm.lanes first (mem_cons_self ..)).registerLanes).trans ?_
    refine (Emit.lift_of_ok (Code.scalarOfTree_eq hscalar)).trans ?_
    exact (Emit.bind_of_ok hmapM).trans (Emit.lift_of_ok hmatrix)
  have hnone : t'.register? = none := by
    rw [← Option.not_isSome_iff_eq_none, hregister]
    omega
  have hcode := happends.trans happends₂
  rw [append_nil] at hcode
  refine ⟨t', c₂, is, transposed, hmade, hcode, hknown₂.trans hknown, harith, ht', hlength, hgathers.mono happends₂,
    hreadable, Nat.le_trans happends.nextKey hkey, hlt, hnone⟩

/-! ### Straight-line lowering -/

/-- Straight-line lowering at the end of a block, from a state `c₀` on. Plain code is put there, trees
come into play, each with a key of its own and no transpose known, and transposes of matrices are
taken. -/
inductive Straight (b : BlockId) (c₀ : Context) : List Tree → Context → Prop
  | start : (∀ k, (c₀.transposes.lookup k).isSome → k < c₀.nextKey) → Straight b c₀ [] c₀
  | code {ts c c' is} : Straight b c₀ ts c → Appends b is c c' → (∀ i ∈ is, i.IsPlain) →
      c'.transposes = c.transposes → Straight b c₀ ts c'
  | tree {ts c t} : Straight b c₀ ts c → t.key < c.nextKey → (∀ t' ∈ ts, t'.key ≠ t.key) →
      c.transposes.lookup t.key = none → Straight b c₀ (t :: ts) c
  | transpose {ts c c' t t' columns rows} : Straight b c₀ ts c → t ∈ ts →
      IsMatrix c t columns rows → (2 ≤ columns.length ∧ columns.length ≤ 4) →
      (2 ≤ rows ∧ rows ≤ 4) → Code.transpose t (.append b) c = .ok t' c' →
      Straight b c₀ (t' :: ts) c'

/-- One of two matrices was gathered from the other. -/
def Transposed (base : Nat) (c : Context) (m t : Tree) : Prop :=
  ∃ columns transposed, IsMatrix c m columns transposed.length ∧
    IsMatrix c t transposed columns.length ∧ (2 ≤ columns.length ∧ columns.length ≤ 4) ∧
    (2 ≤ transposed.length ∧ transposed.length ≤ 4) ∧
    (Gathers base c columns transposed ∨ Gathers base c transposed columns)

theorem Transposed.mono {base : Nat} {m : Tree} (h : Transposed base c m t)
    (happends : Appends b is c c') : Transposed base c' m t := by
  obtain ⟨columns, transposed, hm, ht, hcolumns, htransposed, hgathers⟩ := h
  exact ⟨columns, transposed, hm.mono happends, ht.mono happends, hcolumns, htransposed,
    hgathers.imp (·.mono happends) (·.mono happends)⟩

/-- Keys tell the trees in play apart, and a transpose that is known of one of them is another, made
from it or the source of it. -/
structure Ledger (base : Nat) (ts : List Tree) (c : Context) : Prop where
  keys : ∀ t ∈ ts, t.key < c.nextKey
  distinct : ∀ t ∈ ts, ∀ t' ∈ ts, t.key = t'.key → t = t'
  used : ∀ k, (c.transposes.lookup k).isSome → k < c.nextKey
  known : ∀ m ∈ ts, ∀ t, c.transposes.lookup m.key = some t → t ∈ ts ∧ Transposed base c m t

namespace Ledger

variable {base : Nat} {ts : List Tree} (h : Ledger base ts c)
include h

theorem code (happends : Appends b is c c')
    (hknown : c'.transposes = c.transposes) : Ledger base ts c' where
  keys := fun t ht => Nat.lt_of_lt_of_le (h.keys t ht) happends.nextKey
  distinct := h.distinct
  used := by
    intro k hk
    rw [hknown] at hk
    exact Nat.lt_of_lt_of_le (h.used k hk) happends.nextKey
  known := by
    intro m hm t ht
    rw [hknown] at ht
    obtain ⟨hmem, htransposed⟩ := h.known m hm t ht
    exact ⟨hmem, htransposed.mono happends⟩

theorem lookup_eq_none {k : Nat} (hk : c.nextKey ≤ k) : c.transposes.lookup k = none := by
  rw [← Option.not_isSome_iff_eq_none]
  intro hsome
  exact Nat.not_lt.mpr hk (h.used k hsome)

theorem tree (hkey : t.key < c.nextKey) (hnew : ∀ t' ∈ ts, t'.key ≠ t.key)
    (hnone : c.transposes.lookup t.key = none) : Ledger base (t :: ts) c where
  keys := by
    intro t' ht'
    rcases mem_cons.mp ht' with rfl | ht'
    · exact hkey
    · exact h.keys t' ht'
  distinct := by
    intro x hx y hy hxy
    rcases mem_cons.mp hx with rfl | hx <;> rcases mem_cons.mp hy with rfl | hy
    · rfl
    · exact (hnew y hy hxy.symm).elim
    · exact (hnew x ‹x ∈ ts› hxy).elim
    · exact h.distinct x hx y hy hxy
  used := h.used
  known := by
    intro m hm t' ht'
    rcases mem_cons.mp hm with rfl | hm
    · cases hnone.symm.trans ht'
    · obtain ⟨hmem, htransposed⟩ := h.known m hm t' ht'
      exact ⟨mem_cons_of_mem _ hmem, htransposed⟩

theorem again (ht : t ∈ ts) : Ledger base (t :: ts) c := by
  have hmem : ∀ t' ∈ t :: ts, t' ∈ ts := by
    simp_all
  constructor
  · intro t' ht'
    exact h.keys t' (hmem t' ht')
  · intro x hx y hy hxy
    exact h.distinct x (hmem x hx) y (hmem y hy) hxy
  · exact h.used
  · intro m hm t' ht'
    obtain ⟨ht', htransposed⟩ := h.known m (hmem m hm) t' ht'
    exact ⟨mem_cons_of_mem _ ht', htransposed⟩

theorem remember {t' : Tree} (ht : t ∈ ts) (ht' : t' ∈ ts)
    (htransposed : Transposed base c t t') (hback : Transposed base c t' t) :
    Ledger base ts { c with transposes := (t.key, t') :: (t'.key, t) :: c.transposes } := by
  have happends := Appends.remember 0 c ((t.key, t') :: (t'.key, t) :: c.transposes)
  have hlookup : ∀ k, ((t.key, t') :: (t'.key, t) :: c.transposes).lookup k =
      if k = t.key then some t' else if k = t'.key then some t else c.transposes.lookup k := by
    grind
  constructor
  · exact h.keys
  · exact h.distinct
  · intro k hk
    rw [hlookup] at hk
    split at hk
    · rename_i hkey
      exact hkey ▸ h.keys t ht
    · split at hk
      · rename_i hkey
        exact hkey ▸ h.keys t' ht'
      · exact h.used k hk
  · intro m hm x hx
    rw [hlookup] at hx
    split at hx
    · rename_i hkey
      cases hx
      rw [h.distinct m hm t ht hkey]
      exact ⟨ht', htransposed.mono happends⟩
    · split at hx
      · rename_i hkey
        cases hx
        rw [h.distinct m hm t' ht' hkey]
        exact ⟨ht, hback.mono happends⟩
      · obtain ⟨hmem, hold⟩ := h.known m hm x hx
        exact ⟨hmem, hold.mono happends⟩

end Ledger

theorem Transposed.symm {base : Nat} {m : Tree} (h : Transposed base c m t) : Transposed base c t m := by
  obtain ⟨columns, transposed, hm, ht, hcolumns, htransposed, hgathers⟩ := h
  exact ⟨transposed, columns, ht, hm, htransposed, hcolumns, hgathers.symm⟩

namespace Straight

variable {c₀ : Context} {ts : List Tree} (h : Straight b c₀ ts c)
include h

theorem appends (hb : b < c₀.function.blocks.size) :
    (∃ is, Appends b is c₀ c ∧ ∀ i ∈ is, i.IsPlain) ∧ Ledger c₀.function.instructions.size ts c := by
  induction h with
  | start hused => exact ⟨⟨[], .refl b c₀, by simp⟩, by simp, by simp, hused, by simp⟩
  | @code _ _ _ is _ happends hplain hknown ih =>
    obtain ⟨⟨js, hcode, hjs⟩, hledger⟩ := ih
    refine ⟨⟨js ++ is, hcode.trans happends, ?_⟩, hledger.code happends hknown⟩
    grind
  | tree _ hkey hnew hnone ih => exact ⟨ih.1, ih.2.tree hkey hnew hnone⟩
  | @transpose ts c _ t t' columns _ _ ht hm hcolumns hrows hmade ih =>
    obtain ⟨⟨js, hcode, hjs⟩, hledger⟩ := ih
    cases hlookup : c.transposes.lookup t.key with
    | some known =>
      have hmem := (hledger.known t ht known hlookup).1
      have hsame : Code.transpose t (.append b) c = .ok known c :=
        Emit.lift_of_ok (Code.knownTranspose?_eq hlookup)
      cases hmade.symm.trans hsame
      exact ⟨⟨js, hcode, hjs⟩, hledger.again hmem⟩
    | none =>
      have hsite : Site b c₀.function.instructions.size (fun _ => True) c :=
        ⟨hcode.blocks ▸ hb, by rw [hcode.size]; omega, fun _ _ => trivial⟩
      obtain ⟨t₁, c₁, is, transposed, hmade₁, happends, hknown, harith, ht₁, hlength, hgathers, -,
        hkey, hlt, -⟩ := hsite.transpose hm hcolumns hrows (fun _ _ => trivial) hlookup
      cases hmade.symm.trans hmade₁
      have hm₁ := hm.mono happends
      rw [← hlength] at hm₁ hrows
      have htransposed : Transposed c₀.function.instructions.size c₁ t t' :=
        ⟨columns, transposed, hm₁, ht₁, hcolumns, hrows, .inl hgathers⟩
      have hledger₁ : Ledger c₀.function.instructions.size (t' :: ts) c₁ := by
        apply (hledger.code happends hknown).tree hlt
        · intro x hx hxkey
          have := hledger.keys x hx
          omega
        · rw [hknown]
          exact hledger.lookup_eq_none hkey
      constructor
      · refine ⟨js ++ is, ?_, ?_⟩
        · simpa using (hcode.trans happends).trans (.remember b c₁ _)
        · intro i hi
          exact (mem_append.mp hi).elim (hjs i) (harith.isPlain i)
      · exact hledger₁.remember (mem_cons_of_mem _ ht) (mem_cons_self ..) htransposed htransposed.symm

/-- Arithmetic at the end of straight-line code runs to its end if what it reads is defined, and the
state then solves the equations of all of the code. -/
theorem runs (hb : b < c₀.function.blocks.size) {P : Nat → Prop}
    (happends : Appends b is c c') (harith : Arithmetic P c.function.instructions.size is)
    {s₀ s : RunState} (hsize : c'.function.instructions.size ≤ s₀.registers.size)
    (hrun : runSince c₀ c b s₀ = .ok none s)
    (hP : ∀ q < c.function.instructions.size, P q → (s.value? q).isSome) :
    ∃ s', runSince c c' b s = .ok none s' ∧ runSince c₀ c' b s₀ = .ok none s' ∧
      s'.Solves c'.function c₀.function.instructions.size ∧
      ∀ q < c.function.instructions.size, s'.registers[q]? = s.registers[q]? := by
  obtain ⟨⟨js, hcode, hjs⟩, -⟩ := h.appends hb
  have hperform := (hcode.runSince_eq_ok hjs).mp hrun
  have hkeeps := (performAll_keeps hperform).1
  have hlength := happends.size
  obtain ⟨s', hs', -⟩ := harith.performAll hP (by omega)
  have hall : performAll c₀.function.instructions.size (js ++ is) s₀ = .ok () s' := by
    rw [performAll_append hperform, ← hcode.size, hs']
  have hplain : ∀ i ∈ js ++ is, i.IsPlain := by
    intro i hi
    exact (mem_append.mp hi).elim (hjs i) (harith.isPlain i)
  refine ⟨s', (happends.runSince_eq_ok harith.isPlain).mpr hs',
    ((hcode.trans happends).runSince_eq_ok hplain).mpr hall, (hcode.trans happends).solves hall hsize, ?_⟩
  intro q hq
  exact (performAll_keeps hs').2 q (.inl hq)

theorem solves (hb : b < c₀.function.blocks.size) {s₀ s : RunState}
    (hsize : c.fresh ≤ s₀.registers.size)
    (hrun : runSince c₀ c b s₀ = .ok none s) :
    s.Solves c.function c₀.fresh := by
  obtain ⟨⟨js, hcode, hjs⟩, -⟩ := h.appends hb
  exact hcode.solves ((hcode.runSince_eq_ok hjs).mp hrun) hsize

end Straight

end Spirv

end ShaderIR
