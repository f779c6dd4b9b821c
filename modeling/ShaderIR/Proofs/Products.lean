import ShaderIR.Proofs.FloatSum
import ShaderIR.Proofs.Transposes

/-!
# Products of matrices

A column of a product is a sum of the columns of the left side, or it is made of dot products with
the rows of the left side where a transpose is known; if both transposes are known, the product of
these in reverse is transposed. All of these ways give the same lanes, bit by bit.
-/

namespace ShaderIR

open List

/-- A lane of a product of float matrices: the sum over the columns of the left side, from left to
right, of their lane `row` times the matching lane of a column of the right side. -/
def productLane (left : List Lanes) (right : Lanes) (row : Nat) : Word :=
  FloatLane.sumLanes (left.zipIdx.map fun (column, k) =>
    AluOp.floatBinary (· * ·) (column.get row) (right.get k))

/-! ### Lanes of the operations of a product -/

section

variable {s : RunState} {p q : Register} {n r : Nat}

theorem get_result_dot (hn : 2 ≤ n ∧ n ≤ 4) :
    (s.result (.dot n) [.fit p n, .fit q n] 1).get 0 = FloatLane.sumLanes ((List.range n).map
      fun k => AluOp.floatBinary (· * ·) ((s.lanes p).get k) ((s.lanes q).get k)) := by
  have hdot : (s.result (.dot n) [.fit p n, .fit q n] 1).get 0 = AluOp.dotProduct n
      ((Source.fit p n).select (s.lanes p)) ((Source.fit q n).select (s.lanes q)) := by
    obtain ⟨h₂, h₄⟩ := hn
    interval_cases n <;> rfl
  rw [hdot, AluOp.dotProduct_eq (by omega) hn.2]
  congr 1
  apply map_congr_left
  intro k hk
  have hlt := mem_range.mp hk
  rw [Source.get_select_fit hn.2 hlt, Source.get_select_fit hn.2 hlt]

theorem get_result_fmul {j : Nat} (hn : n ≤ 4) (hr : r < n) (hj : j < 4) :
    (s.result .fmul [.whole p, .lane q j.toUInt8] n).get r =
      AluOp.floatBinary (· * ·) ((s.lanes p).get r) ((s.lanes q).get j) := by
  have hlane : (j.toUInt8 &&& 3).toNat = j := by
    interval_cases j <;> rfl
  rw [RunState.result, AluOp.get_eval rfl hn hr]
  simp only [map_cons, getElem?_cons_zero, getElem?_cons_succ, Option.getD_some,
    Source.get_select_whole (show r < 4 by omega), Source.get_select_lane, hlane]
  rfl

theorem get_result_fadd (hn : n ≤ 4) (hr : r < n) :
    (s.result .fadd [.fit p n, .fit q n] n).get r =
      AluOp.floatBinary (· + ·) ((s.lanes p).get r) ((s.lanes q).get r) := by
  rw [RunState.result, AluOp.get_eval rfl hn hr]
  simp only [map_cons, getElem?_cons_zero, getElem?_cons_succ, Option.getD_some,
    Source.get_select_fit hn hr]
  rfl

end

namespace Spirv

variable {b : BlockId} {is : List Instruction} {c c' : Context} {base : Nat} {P : Nat → Prop}
  {s : RunState} {columns left : List Register}

theorem Appends.solves_of_solves (h : Appends b is c c') (hs : s.Solves c'.function base) :
    s.Solves c.function base := by
  intro q op sources n hq hi hsources
  exact hs q op sources n hq (h.getElem? hi) hsources

/-- A register of `n` lanes that hold what `lane` gives whenever the code has run. -/
structure Delivers (base : Nat) (c : Context) (q : Register) (n : Nat)
    (lane : RunState → Nat → Word) : Prop where
  lanes : HasLanes c q n
  isSome : ∀ s : RunState, s.Solves c.function base → (s.value? q).isSome
  value : ∀ s : RunState, s.Solves c.function base → ∀ r < n, (s.lanes q).get r = lane s r

namespace Delivers

variable {q n : Nat} {lane lane' : RunState → Nat → Word}

theorem mono (h : Delivers base c q n lane) (happends : Appends b is c c') :
    Delivers base c' q n lane where
  lanes := h.lanes.mono happends
  isSome := fun s hs => h.isSome s (happends.solves_of_solves hs)
  value := fun s hs => h.value s (happends.solves_of_solves hs)

theorem of_isResult {op : AluOp} {sources : List Source} (h : IsResult base c q op sources n)
    (hlane : ∀ s : RunState, s.Solves c.function base → ∀ r < n,
      (s.result op sources n).get r = lane s r) : Delivers base c q n lane := by
  refine ⟨.of_isResult h, ?_, ?_⟩
  · intro s hs
    rw [h.value hs]
    rfl
  · intro s hs r hr
    rw [RunState.lanes_of_value? (h.value hs), hlane s hs r hr]

end Delivers

/-! ### A column by rows -/

/-- Dot products with the rows of a matrix are the lanes of a product. -/
theorem Mirrors.productLane_eq {rows : List Register} (h : Mirrors s left rows) {r : Nat}
    {row column : Register} (hr : rows[r]? = some row) :
    FloatLane.sumLanes ((List.range left.length).map fun k =>
      AluOp.floatBinary (· * ·) ((s.lanes row).get k) ((s.lanes column).get k)) =
      productLane (left.map s.lanes) (s.lanes column) r := by
  unfold productLane
  congr 1
  apply ext_getElem
  · simp
  · intro k hk hk'
    have hlt : k < left.length := by simpa using hk
    simp [h k r _ row (getElem?_eq_getElem hlt) hr]

namespace Site

variable {left rows others : List Register} {first column : Register} {n : Nat}

/-- A column of dot products. -/
theorem columnByRows (h : Site b base P c) (hleft : 2 ≤ left.length ∧ left.length ≤ 4)
    (hlength : 2 ≤ rows.length ∧ rows.length ≤ 4)
    (hmirrors : ∀ s : RunState, s.Solves c.function base → Mirrors s left rows)
    (hrows : ∀ row ∈ rows, HasLanes c row left.length ∧ P row)
    (hcolumn : HasLanes c column left.length) (hP : P column) :
    Computes b P c (Code.columnByRows left.length rows column) fun c' q =>
      Delivers base c' q rows.length (fun s => productLane (left.map s.lanes) (s.lanes column)) ∧
        P q := by
  have hdots : Computes b P c (rows.mapM fun row => do
      return (← Emit.alu (.dot left.length) [row, column] 1, (0 : Word))) fun c' lanes =>
      List.Forall₂ (fun row l => IsResult base c' l.1 (.dot left.length)
        [.fit row left.length, .fit column left.length] 1 ∧ P l.1 ∧ l.2 = 0) rows lanes := by
    apply Computes.mapM
    · rintro c₁ c₂ is row l happends ⟨hl, hrest⟩
      exact ⟨hl.mono happends, hrest⟩
    · intro row hrow c' is happends
      obtain ⟨hlanes, hProw⟩ := hrows row hrow
      apply ((h.mono happends).alu (hlanes.mono happends) (hcolumn.mono happends) ⟨hProw, hP⟩).bind
      rintro q c'' js - ⟨hq, hPq⟩
      exact .pure ⟨hq, hPq, rfl⟩
  apply hdots.bind
  intro lanes c₁ is happends hlanes
  obtain ⟨dots, rfl⟩ : ∃ dots : List Register, lanes = dots.map (·, 0) := by
    have hzero : ∀ l ∈ lanes, l.2 = 0 := Ensures.forall_of_forall₂ (hlanes.imp fun _ _ hl => hl.2.2)
    refine ⟨lanes.map Prod.fst, ?_⟩
    rw [map_map]
    nth_rewrite 1 [← map_id lanes]
    apply map_congr_left
    intro l hl
    exact Prod.ext rfl (hzero l hl)
  rw [List.forall₂_map_right_iff] at hlanes
  have hcount : dots.length = rows.length := hlanes.length_eq.symm
  have hreadable : ∀ d ∈ dots, HasLanes c₁ d 1 ∧ P d :=
    Ensures.forall_of_forall₂ (hlanes.imp fun _ _ hd => ⟨.of_isResult hd.1, hd.2.1⟩)
  have hgather := (h.mono happends).gather 0 fun d hd =>
    ⟨(hreadable d hd).1.lt, (hreadable d hd).2⟩
  obtain ⟨q, c₂, js, hmade, happends₂, hknown, harith, hq, hPq⟩ := hgather
  refine ⟨q, c₂, js, hmade, happends₂, hknown, harith, ?_, hPq⟩
  rw [← hcount]
  apply Delivers.of_isResult hq
  intro s hs r hr
  have hsolves := happends₂.solves_of_solves hs
  have hr' : r < rows.length := hcount ▸ hr
  have hdot : IsResult base c₁ dots[r] (.dot left.length)
      [.fit rows[r] left.length, .fit column left.length] 1 := (hlanes.get hr' hr).1
  rw [get_result_gather (hcount ▸ hlength) (getElem?_eq_getElem hr)]
  change (s.lanes dots[r]).get 0 = _
  rw [RunState.lanes_of_value? (hdot.value hsolves), get_result_dot hleft]
  exact (hmirrors s (happends.solves_of_solves hsolves)).productLane_eq
    (getElem?_eq_getElem hr')

/-! ### A column by columns -/

/-- A column times a lane of another. -/
theorem scaleColumn (h : Site b base P c) {j : Nat} {other : Register} (hn : n ≤ 4) (hj : j < 4)
    (hother : HasLanes c other n ∧ P other) (hcolumn : column < c.fresh) (hP : P column) :
    Computes b P c (Emit.aluWith .fmul [.whole other, .lane column j.toUInt8] n) fun c' q =>
      Delivers base c' q n (fun s r =>
        AluOp.floatBinary (· * ·) ((s.lanes other).get r) ((s.lanes column).get j)) ∧ P q := by
  refine (h.aluWith fun source hsource => ?_).mono fun q c' is _ hq =>
    ⟨.of_isResult hq.1 fun s _ r hr => get_result_fmul hn hr hj, hq.2⟩
  rcases mem_pair.mp hsource with rfl | rfl
  · exact ⟨hother.1.lt, hother.2⟩
  · exact ⟨hcolumn, hP⟩

/-- Further columns are added to a sum one after another. -/
theorem addColumns (h : Site b base P c) {sum j : Nat} {lane : RunState → Nat → Word} (hn : n ≤ 4)
    (hsum : Delivers base c sum n lane) (hPsum : P sum)
    (hothers : ∀ other ∈ others, HasLanes c other n ∧ P other)
    (hcolumn : column < c.function.instructions.size) (hP : P column) (hj : j + others.length ≤ 4) :
    Computes b P c ((others.zipIdx j).foldlM (fun sum (other, j) => do
      let term ← Emit.aluWith .fmul [.whole other, .lane column j.toUInt8] n
      Emit.alu .fadd [sum, term] n) sum) fun c' q =>
        Delivers base c' q n (fun s r => (others.zipIdx j).foldl (fun acc (other, k) =>
          AluOp.floatBinary (· + ·) acc (AluOp.floatBinary (· * ·) ((s.lanes other).get r)
            ((s.lanes column).get k))) (lane s r)) ∧ P q := by
  induction others generalizing c sum j lane with
  | nil => exact .pure ⟨hsum, hPsum⟩
  | cons other others ih =>
    rw [length_cons] at hj
    rw [zipIdx_cons, foldlM_cons]
    refine Computes.bind (Q := fun c' q => Delivers base c' q n (fun s r =>
      AluOp.floatBinary (· + ·) (lane s r) (AluOp.floatBinary (· * ·) ((s.lanes other).get r)
        ((s.lanes column).get j))) ∧ P q) ?_ ?_
    · apply (h.scaleColumn hn (by omega) (hothers other (mem_cons_self ..)) hcolumn hP).bind
      rintro term c₁ is happends ⟨hterm, hPterm⟩
      apply ((h.mono happends).alu (hsum.lanes.mono happends) hterm.lanes ⟨hPsum, hPterm⟩).mono
      rintro q c₂ js happends₂ ⟨hq, hPq⟩
      refine ⟨.of_isResult hq ?_, hPq⟩
      intro s hs r hr
      have hsolves := happends₂.solves_of_solves hs
      rw [get_result_fadd hn hr, hsum.value s (happends.solves_of_solves hsolves) r hr, hterm.value s hsolves r hr]
    · rintro q c₁ is happends ⟨hq, hPq⟩
      apply ih (h.mono happends) hq hPq
      · intro o ho
        obtain ⟨hlanes, hPo⟩ := hothers o (mem_cons_of_mem _ ho)
        exact ⟨hlanes.mono happends, hPo⟩
      · rw [happends.size]
        exact Nat.lt_add_right _ hcolumn
      · omega

/-- A column that is a sum of columns. -/
theorem columnByColumns (h : Site b base P c) (hn : n ≤ 4)
    (hcount : (first :: others).length ≤ 4)
    (hleft : ∀ r ∈ first :: others, HasLanes c r n ∧ P r)
    (hcolumn : column < c.fresh) (hP : P column) :
    Computes b P c (Code.columnByColumns first others n column) fun c' q =>
      Delivers base c' q n (fun s =>
        productLane ((first :: others).map s.lanes) (s.lanes column)) ∧ P q := by
  rw [length_cons] at hcount
  apply (h.scaleColumn (j := 0) hn (by omega) (hleft first (mem_cons_self ..)) hcolumn hP).bind
  rintro start c₁ is happends ⟨hstart, hPstart⟩
  apply ((h.mono happends).addColumns hn hstart hPstart _ _ hP (j := 1) (by omega)).mono
  · rintro q c₂ js - ⟨hq, hPq⟩
    refine ⟨⟨hq.lanes, hq.isSome, ?_⟩, hPq⟩
    intro s hs r hr
    rw [hq.value s hs r hr]
    simp only [productLane, map_cons, zipIdx_cons, FloatLane.sumLanes, foldl_map,
      zipIdx_map]
    rfl
  · intro o ho
    obtain ⟨hlanes, hPo⟩ := hleft o (mem_cons_of_mem _ ho)
    exact ⟨hlanes.mono happends, hPo⟩
  · rw [happends.size]
    exact Nat.lt_add_right _ hcolumn

end Site

/-! ### A product column by column -/

/-- A tree whose columns are those of a product, one for each column of the right side. -/
structure IsProduct (base : Nat) (c : Context) (p : Tree) (columns left right : List Register)
    (n : Nat) : Prop where
  matrix : IsMatrix c p columns n
  register : p.register?.isSome ↔ right.length = 1
  delivers : List.Forall₂ (fun q q' =>
    Delivers base c q' n fun s => productLane (left.map s.lanes) (s.lanes q)) right columns

/-- A tree that has the rows of a matrix as columns whenever the code has run. -/
structure HasRows (base : Nat) (c : Context) (left : List Register) (n : Nat) (t : Tree) (rows : List Register) :
    Prop where
  matrix : IsMatrix c t rows left.length
  length : rows.length = n
  mirrors : ∀ s : RunState, s.Solves c.function base → Mirrors s left rows

namespace Site

variable {left right : List Register} {n : Nat} {a x : Tree}

/-- The product of two matrices, column by column. -/
theorem multiplyColumns (h : Site b base P c) (ha : IsMatrix c a left n)
    (hx : IsMatrix c x right left.length) (hleft : 2 ≤ left.length ∧ left.length ≤ 4)
    (hright : 1 ≤ right.length ∧ right.length ≤ 4) (hn : 2 ≤ n ∧ n ≤ 4)
    (hPleft : ∀ r ∈ left, P r) (hPright : ∀ r ∈ right, P r)
    (hknown : ∀ t, c.transposes.lookup a.key = some t → ∃ rows, HasRows base c left n t rows ∧ ∀ r ∈ rows, P r) :
    Computes b P c (Code.multiplyColumns a x) fun c' p => ∃ columns,
      IsProduct base c' p columns left right n ∧ (∀ q ∈ columns, P q) ∧ c.nextKey ≤ p.key ∧
        p.key < c'.nextKey := by
  obtain ⟨scalar, hscalar, hfloat⟩ := ha.float
  obtain ⟨first, others, rfl⟩ := exists_cons_of_length_pos (show 0 < left.length by omega)
  obtain ⟨first', others', rfl⟩ := exists_cons_of_length_pos (show 0 < right.length by omega)
  -- whichever way a column is made, the columns are put together in the end
  have hcolumns {f : Register → Emit Register} (hf : ∀ q ∈ first' :: others', ∀ c' is,
      Appends b is c c' → Computes b P c' (f q) fun c'' q' => Delivers base c'' q' n
        (fun s => productLane ((first :: others).map s.lanes) (s.lanes q)) ∧ P q') :
      Computes b P c ((first' :: others').mapM f >>= fun product =>
        liftM (Code.matrixOfColumns scalar product n)) fun c' p => ∃ columns,
          IsProduct base c' p columns (first :: others) (first' :: others') n ∧
            (∀ q ∈ columns, P q) ∧ c.nextKey ≤ p.key ∧ p.key < c'.nextKey := by
    apply (Computes.mapM ?_ hf).bind
    · intro columns c₁ is happends hdelivers
      have hlength := hdelivers.length_eq
      have hlanes : ∀ q ∈ columns, HasLanes c₁ q n :=
        Ensures.forall_of_forall₂ (hdelivers.imp fun _ _ hq => hq.1.lanes)
      obtain ⟨p, c₂, hmade, happends₂, hp, hkey, hlt, hsame, hregister⟩ :=
        Code.matrixOfColumns_eq b (hlength ▸ hright) hn hlanes hfloat
      apply Computes.lift hmade happends₂ hsame
      refine ⟨columns, ⟨hp, hlength ▸ hregister, ?_⟩, ?_, Nat.le_trans happends.nextKey hkey, hlt⟩
      · exact hdelivers.imp fun _ _ hq => hq.1.mono happends₂
      · exact Ensures.forall_of_forall₂ (hdelivers.imp fun _ _ hq => hq.2)
    · rintro c₁ c₂ is q q' happends ⟨hq, hPq⟩
      exact ⟨hq.mono happends, hPq⟩
  unfold Code.multiplyColumns
  apply Computes.look (Code.scalarOfTree_eq hscalar)
  apply Computes.look (Code.columns_of_columns? ha.columns?_eq c)
  apply Computes.look (Code.columns_of_columns? hx.columns?_eq c)
  apply Computes.look (m := Code.firstColumn (first :: others)) (a := first) rfl
  apply Computes.look (ha.lanes first (mem_cons_self ..)).registerLanes
  apply Computes.look (m := Code.firstColumn (first' :: others')) (a := first') rfl
  apply Computes.look (hx.lanes first' (mem_cons_self ..)).registerLanes
  simp only [ne_eq, not_true_eq_false, if_false]
  apply Computes.look (Code.knownTranspose?_eq rfl)
  cases hlookup : c.transposes.lookup a.key with
  | none =>
    simp only [pure_bind]
    apply hcolumns
    intro q hq c' is happends
    apply (h.mono happends).columnByColumns hn.2 hleft.2
    · intro r hr
      exact ⟨(ha.lanes r hr).mono happends, hPleft r hr⟩
    · exact ((hx.lanes q hq).mono happends).lt
    · exact hPright q hq
  | some t =>
    obtain ⟨rows, ⟨ht, rfl, hmirrors⟩, hProws⟩ := hknown t hlookup
    simp only [hfloat, if_true, bind_map_left]
    apply Computes.look (Code.columns_of_columns? ht.columns?_eq c)
    apply hcolumns
    intro q hq c' is happends
    apply (h.mono happends).columnByRows hleft hn
    · intro s hs
      exact hmirrors s (happends.solves_of_solves hs)
    · intro r hr
      exact ⟨(ht.lanes r hr).mono happends, hProws r hr⟩
    · exact (hx.lanes q hq).mono happends
    · exact hPright q hq

end Site

/-! ### Known transposes of the factors -/

theorem HasLanes.unique {q : Register} {m n : Nat} (h : HasLanes c q m) (h' : HasLanes c q n) :
    m = n := by
  obtain ⟨i, hi, rfl⟩ := h
  obtain ⟨j, hj, rfl⟩ := h'
  cases hi.symm.trans hj
  rfl

/-- A transpose that is known of a matrix in play has its rows as columns. -/
theorem Ledger.rows {ts : List Tree} {a t : Tree} {n : Nat} (h : Ledger base ts c) (ha : a ∈ ts)
    (hleft : IsMatrix c a left n) (hlookup : c.transposes.lookup a.key = some t) :
    t ∈ ts ∧ (2 ≤ left.length ∧ left.length ≤ 4) ∧ (2 ≤ n ∧ n ≤ 4) ∧ ∃ rows, HasRows base c left n t rows := by
  obtain ⟨ht, columns, rows, hcolumns, hrows, hwidth, hheight, hgathers⟩ := h.known a ha t hlookup
  cases hcolumns.columns?_eq.symm.trans hleft.columns?_eq
  obtain ⟨first, others, rfl⟩ := exists_cons_of_length_pos (show 0 < left.length by omega)
  obtain rfl := (hcolumns.lanes first (mem_cons_self ..)).unique
    (hleft.lanes first (mem_cons_self ..))
  refine ⟨ht, hwidth, hheight, rows, hrows, rfl, ?_⟩
  intro s hs
  rcases hgathers with hgathers | hgathers
  · exact hgathers.mirrors hs hwidth hheight.2
  · exact (hgathers.mirrors hs hheight hwidth.2).symm

theorem Ledger.isSome {ts : List Tree} {m t : Tree} {rows : List Register} (h : Ledger base ts c)
    (hm : m ∈ ts) (hlookup : c.transposes.lookup m.key = some t) (hrows : t.columns? = some rows)
    (hs : s.Solves c.function base) : ∀ q ∈ rows, (s.value? q).isSome := by
  obtain ⟨-, columns, rows', -, hrows', hwidth, -, hgathers⟩ := h.known m hm t hlookup
  cases hrows'.columns?_eq.symm.trans hrows
  rcases hgathers with hgathers | hgathers
  · exact hgathers.isSome hs
  · apply hgathers.isSome_source hs
    rintro rfl
    simp at hwidth

/-- The product of the transposes in reverse has the lanes of the product across. -/
theorem productLane_swap {right rows : List Register} {j r : Nat} {p q : Register}
    (hrows : Mirrors s left rows) (hcolumns : Mirrors s right columns)
    (hlength : columns.length = left.length) (hp : right[j]? = some p) (hq : rows[r]? = some q) :
    productLane (columns.map s.lanes) (s.lanes q) j = productLane (left.map s.lanes) (s.lanes p) r := by
  unfold productLane
  congr 1
  apply ext_getElem
  · simp [hlength]
  · intro k hk hk'
    have hlt : k < columns.length := by simpa using hk
    have hlt' : k < left.length := by simpa using hk'
    simp only [getElem_map, getElem_zipIdx, Nat.zero_add]
    rw [hcolumns j k p _ hp (getElem?_eq_getElem hlt),
      hrows k r _ q (getElem?_eq_getElem hlt') hq]
    exact congrArg Float32.toBits (FloatLane.mul_comm _ _)

/-- A product can be made, by arithmetic alone. -/
def Multiplies (b : BlockId) (base : Nat) (P : Nat → Prop) (c : Context) (a x : Tree)
    (left right : List Register) (n : Nat) : Prop :=
  ∃ p c₁ is known columns, Code.multiply a x (.append b) c = .ok p { c₁ with transposes := known } ∧
    Appends b is c c₁ ∧ Arithmetic P c.function.instructions.size is ∧ IsProduct base c₁ p columns left right n

namespace Site

variable {left right : List Register} {n : Nat} {a x : Tree} {ts : List Tree}

variable (h : Site b base P c) (hl : Ledger base ts c) (ha : a ∈ ts) (hx : x ∈ ts)
  (hleft : IsMatrix c a left n) (hright : IsMatrix c x right left.length)
  (hPknown : ∀ m ∈ ts, ∀ t rows, c.transposes.lookup m.key = some t → t.columns? = some rows →
    ∀ r ∈ rows, P r)

include h hl ha hx hleft hright hPknown

theorem multiply_of_known {t y : Tree} (ht : c.transposes.lookup a.key = some t)
    (hy : c.transposes.lookup x.key = some y) : Multiplies b base P c a x left right n := by
  obtain ⟨hts, hinner, hn, rows, hrows, hheight, hmirrors⟩ := hl.rows ha hleft ht
  obtain ⟨hys, hcount, -, columns, hcolumns, hwidth, hmirrors'⟩ := hl.rows hx hright hy
  have hknown : ∀ z, c.transposes.lookup y.key = some z →
      ∃ rows', HasRows base c columns right.length z rows' ∧ ∀ r ∈ rows', P r := by
    intro z hz
    obtain ⟨-, -, -, rows', hz'⟩ := hl.rows hys hcolumns hz
    exact ⟨rows', hz', hPknown y hys z rows' hz hz'.matrix.columns?_eq⟩
  obtain ⟨p, c₁, is, hmade, happends, hsame, harith, product, hproduct, hPproduct, hkey, -⟩ :=
    h.multiplyColumns hcolumns (hwidth ▸ hrows) (hwidth ▸ hinner)
      (show 1 ≤ rows.length ∧ rows.length ≤ 4 by omega) hcount
      (hPknown x hx y columns hy hcolumns.columns?_eq) (hPknown a ha t rows ht hrows.columns?_eq)
      hknown
  have hunknown : c₁.transposes.lookup p.key = none := by
    rw [hsame]
    exact hl.lookup_eq_none hkey
  have hlength : rows.length = product.length := hproduct.delivers.length_eq
  obtain ⟨p', c₂, js, transposed, hmade', happends', -, harith', hp', hcount', hgathers, -, -, -,
    hregister⟩ := (h.mono happends).transpose hproduct.matrix
      (show 2 ≤ product.length ∧ product.length ≤ 4 by omega) hcount hPproduct hunknown
  rw [← hlength, hheight] at hp'
  refine ⟨p', c₂, is ++ js, (p.key, p') :: (p'.key, p) :: c₂.transposes, transposed, ?_,
    happends.trans happends', ?_, hp', ?_, ?_⟩
  · refine (Emit.lift_of_ok (Code.knownTranspose?_eq ht)).trans ?_
    refine (Emit.lift_of_ok (Code.knownTranspose?_eq hy)).trans ?_
    exact (Emit.bind_of_ok hmade).trans hmade'
  · apply harith.append
    rwa [← happends.size]
  · grind
  · rw [List.forall₂_iff_get]
    refine ⟨hcount'.symm, ?_⟩
    intro j hj hj'
    refine ⟨hp'.lanes _ (get_mem ..), fun s hs => hgathers.isSome hs _ (get_mem ..), ?_⟩
    intro s hs r hr
    have hsolves := happends'.solves_of_solves hs
    have hsolves₀ := happends.solves_of_solves hsolves
    have hmirrors'' := hgathers.mirrors hs (by omega) (by omega)
    have hr' : r < product.length := by omega
    have hr'' : r < rows.length := by omega
    rw [get_eq_getElem, get_eq_getElem, hmirrors'' r j _ _ (getElem?_eq_getElem hr')
      (getElem?_eq_getElem hj')]
    have hlane := (hproduct.delivers.get hr'' hr').value s hsolves j hj
    rw [get_eq_getElem, get_eq_getElem] at hlane
    rw [hlane]
    exact productLane_swap (hmirrors s hsolves₀) (hmirrors' s hsolves₀) hwidth
      (getElem?_eq_getElem hj) (getElem?_eq_getElem hr'')

theorem multiply (hinner : 2 ≤ left.length ∧ left.length ≤ 4)
    (hcount : 1 ≤ right.length ∧ right.length ≤ 4) (hn : 2 ≤ n ∧ n ≤ 4) (hPleft : ∀ r ∈ left, P r)
    (hPright : ∀ r ∈ right, P r) : Multiplies b base P c a x left right n := by
  have hplain : Code.multiply a x (.append b) c = Code.multiplyColumns a x (.append b) c →
      Multiplies b base P c a x left right n := by
    intro heq
    have hknown : ∀ t, c.transposes.lookup a.key = some t →
        ∃ rows, HasRows base c left n t rows ∧ ∀ r ∈ rows, P r := by
      intro t ht
      obtain ⟨-, -, -, rows, hrows⟩ := hl.rows ha hleft ht
      exact ⟨rows, hrows, hPknown a ha t rows ht hrows.matrix.columns?_eq⟩
    obtain ⟨p, c₁, is, hmade, happends, -, harith, columns, hproduct, -⟩ :=
      h.multiplyColumns hleft hright hinner hcount hn hPleft hPright hknown
    exact ⟨p, c₁, is, c₁.transposes, columns, heq.trans hmade, happends, harith, hproduct⟩
  cases ht : c.transposes.lookup a.key with
  | none =>
    apply hplain
    exact (Emit.lift_of_ok (Code.knownTranspose?_eq ht)).trans
      (Emit.lift_of_ok (Code.knownTranspose?_eq rfl))
  | some t =>
    cases hy : c.transposes.lookup x.key with
    | none =>
      apply hplain
      exact (Emit.lift_of_ok (Code.knownTranspose?_eq ht)).trans
        (Emit.lift_of_ok (Code.knownTranspose?_eq hy))
    | some y => exact h.multiply_of_known hl ha hx hleft hright hPknown ht hy

end Site

/-! ### Products in straight-line code -/

/-- Once the code since `c₀` has run and left `inputs` defined, the code from `c` on to `c'` runs to
its end, and `Q` relates the states before and after. -/
def Performs (b : BlockId) (c₀ c c' : Context) (inputs : List Register)
    (Q : RunState → RunState → Prop) : Prop :=
  ∀ s₀ s : RunState, c'.function.instructions.size ≤ s₀.registers.size →
    runSince c₀ c b s₀ = .ok none s → (∀ q ∈ inputs, (s.value? q).isSome) →
    ∃ s', runSince c c' b s = .ok none s' ∧ Q s s'

namespace Straight

variable {c₀ : Context} {ts : List Tree} {a x : Tree} {left right : List Register} {n : Nat}

/-- Registers that arithmetic may read: new ones, given ones, and those of known transposes of trees
in play. -/
def Reads (c : Context) (ts : List Tree) (given : List Register) (q : Nat) : Prop :=
  c.function.instructions.size ≤ q ∨ q ∈ given ∨ ∃ m ∈ ts, ∃ t rows,
    c.transposes.lookup m.key = some t ∧ t.columns? = some rows ∧ q ∈ rows

variable (h : Straight b c₀ ts c) (hb : b < c₀.function.blocks.size)
include h hb

theorem isSome_of_reads
    {given : List Register} {s₀ : RunState}
    (hsize : c.function.instructions.size ≤ s₀.registers.size)
    (hrun : runSince c₀ c b s₀ = .ok none s) (hgiven : ∀ q ∈ given, (s.value? q).isSome) :
    ∀ q < c.function.instructions.size, Reads c ts given q → (s.value? q).isSome := by
  rintro q hq (hnew | hmem | ⟨m, hm, t, rows, hlookup, hrows, hmem⟩)
  · exact absurd hq (Nat.not_lt.mpr hnew)
  · exact hgiven q hmem
  · exact (h.appends hb).2.isSome hm hlookup hrows (h.solves hb hsize hrun) q hmem

theorem site (given : List Register) :
    Site b c₀.fresh (Reads c ts given) c := by
  obtain ⟨⟨is, hcode, -⟩, -⟩ := h.appends hb
  refine ⟨hcode.blocks ▸ hb, ?_, fun q hq => .inl hq⟩
  rw [hcode.size]
  exact Nat.le_add_right ..

/-- A product in straight-line code. -/
theorem multiply (ha : a ∈ ts)
    (hx : x ∈ ts) (hleft : IsMatrix c a left n) (hright : IsMatrix c x right left.length)
    (hinner : 2 ≤ left.length ∧ left.length ≤ 4) (hcount : 1 ≤ right.length ∧ right.length ≤ 4)
    (hn : 2 ≤ n ∧ n ≤ 4) :
    ∃ p c' is columns, Code.multiply a x (.append b) c = .ok p c' ∧ Appends b is c c' ∧
      (∀ i ∈ is, i.IsPlain) ∧ IsMatrix c' p columns n ∧
      (p.register?.isSome ↔ right.length = 1) ∧
      Performs b c₀ c c' (left ++ right) fun s s' => List.Forall₂ (fun q q' =>
        ∃ l, s'.value? q' = some l ∧
          ∀ r < n, l.get r = productLane (left.map s.lanes) (s.lanes q) r) right columns := by
  obtain ⟨p, c₁, is, known, columns, hmade, happends, harith, hproduct⟩ :=
    (h.site hb (left ++ right)).multiply (h.appends hb).2 ha hx hleft hright
      (fun m hm t rows ht hrows q hq => .inr (.inr ⟨m, hm, t, rows, ht, hrows, hq⟩)) hinner hcount hn
      (fun q hq => .inr (.inl (mem_append_left _ hq)))
      (fun q hq => .inr (.inl (mem_append_right _ hq)))
  have hremember := Appends.remember b c₁ known
  have happends' := happends.trans hremember
  rw [append_nil] at happends'
  refine ⟨p, _, is, columns, hmade, happends', harith.isPlain, hproduct.matrix.mono hremember,
    hproduct.register, ?_⟩
  intro s₀ s hsize hrun hdefined
  have hsize₀ : c.function.instructions.size ≤ s₀.registers.size := by
    have := happends'.size
    omega
  obtain ⟨s', hs', -, hsolves, hkeeps⟩ := h.runs hb happends' harith hsize hrun
    (h.isSome_of_reads hb hsize₀ hrun hdefined)
  refine ⟨s', hs', ?_⟩
  have hsame {q k : Nat} (hq : HasLanes c q k) : s'.lanes q = s.lanes q :=
    RunState.lanes_congr (hkeeps q hq.lt)
  have hmap : left.map s'.lanes = left.map s.lanes := by
    apply map_congr_left
    intro q hq
    exact hsame (hleft.lanes q hq)
  apply ((List.forall₂_and_left right columns).mpr ⟨hright.lanes, hproduct.delivers⟩).imp
  rintro q q' ⟨hq, hq'⟩
  refine ⟨_, RunState.value?_of_isSome (hq'.isSome s' hsolves), ?_⟩
  intro r hr
  rw [hq'.value s' hsolves r hr, hmap, hsame hq]

/-- The transpose of a matrix in straight-line code, made or known. -/
theorem transpose_eq {m : Tree}
    (hm : m ∈ ts) (hcolumns : IsMatrix c m columns n)
    (hcount : 2 ≤ columns.length ∧ columns.length ≤ 4) (hn : 2 ≤ n ∧ n ≤ 4) :
    ∃ t c' is rows, Code.transpose m (.append b) c = .ok t c' ∧ Appends b is c c' ∧
      Arithmetic (Reads c ts columns) c.fresh is ∧
      c'.transposes.lookup m.key = some t ∧ HasRows c₀.fresh c' columns n t rows := by
  cases hlookup : c.transposes.lookup m.key with
  | some t =>
    obtain ⟨-, -, -, rows, hrows⟩ := (h.appends hb).2.rows hm hcolumns hlookup
    exact ⟨t, c, [], rows, Emit.lift_of_ok (Code.knownTranspose?_eq hlookup), .refl b c, .nil, hlookup, hrows⟩
  | none =>
    obtain ⟨t, c₁, is, rows, hmade, happends, -, harith, hrows, hlength, hgathers, -⟩ :=
      (h.site hb columns).transpose hcolumns hcount hn (fun q hq => .inr (.inl hq)) hlookup
    have hremember := Appends.remember b c₁ ((m.key, t) :: (t.key, m) :: c₁.transposes)
    have happends' := happends.trans hremember
    rw [append_nil] at happends'
    refine ⟨t, _, is, rows, hmade, happends', harith, by simp, hrows.mono hremember, hlength, ?_⟩
    intro s hs
    exact hgathers.mirrors (hremember.solves_of_solves hs) hcount (by omega)

/-- A product of a vector with a matrix, by way of the transpose. -/
theorem vectorTimesMatrix {m v : Tree}
    {vector : Register} (hm : m ∈ ts) (hv : v ∈ ts) (hcolumns : IsMatrix c m columns n)
    (hvector : IsMatrix c v [vector] n) (hcount : 2 ≤ columns.length ∧ columns.length ≤ 4)
    (hn : 2 ≤ n ∧ n ≤ 4) :
    ∃ p c' q, (Code.transpose m >>= fun t => Code.multiply t v) (.append b) c = .ok p c' ∧
      p.register? = some q ∧ HasLanes c' q columns.length ∧
      Performs b c₀ c c' (vector :: columns) fun s s' => ∃ l, s'.value? q = some l ∧
        ∀ (k : Nat) (column : Register), columns[k]? = some column →
          l.get k = FloatLane.sumLanes ((List.range n).map fun r =>
            AluOp.floatBinary (· * ·) ((s.lanes column).get r) ((s.lanes vector).get r)) := by
  obtain ⟨t, c₁, is, rows, hmade, happends, harith, hlookup, hrows, rfl, hmirrors⟩ :=
    h.transpose_eq hb hm hcolumns hcount hn
  have h₁ := h.transpose hm hcolumns hcount hn hmade
  obtain ⟨p, c₂, js, outs, hproduct, happends₂, hjs, hp, hregister, hperforms⟩ :=
    h₁.multiply hb (List.mem_cons_self ..) (List.mem_cons_of_mem _ hv) hrows (hvector.mono happends)
      hn (by simp) hcount
  obtain ⟨q, hq⟩ := Option.isSome_iff_exists.mp (hregister.mpr rfl)
  obtain rfl : outs = [q] := by
    cases p with
    | leaf key ty r =>
      cases hq
      cases hp.columns?_eq
      rfl
    | node => cases hq
  refine ⟨p, c₂, q, (Emit.bind_of_ok hmade).trans hproduct, hq, hp.lanes q (List.mem_cons_self ..), ?_⟩
  intro s₀ s hsize hrun hdefined
  have hsize₁ := happends.size
  have hsize₂ := happends₂.size
  obtain ⟨s₁, hs₁, hrun₁, hsolves, hkeeps⟩ := h.runs hb happends harith (by omega) hrun
    (h.isSome_of_reads hb (by omega) hrun fun q hq => hdefined q (List.mem_cons_of_mem _ hq))
  have hvectorLt := (hvector.lanes vector (List.mem_cons_self ..)).lt
  have hdefined₁ : ∀ q ∈ rows ++ [vector], (s₁.value? q).isSome := by
    intro q hq
    rcases List.mem_append.mp hq with hq | hq
    · exact (h₁.appends hb).2.isSome (List.mem_cons_of_mem _ hm) hlookup hrows.columns?_eq hsolves q hq
    · rw [List.mem_singleton.mp hq, RunState.value?_congr (hkeeps vector hvectorLt)]
      exact hdefined vector (List.mem_cons_self ..)
  obtain ⟨s₂, hs₂, houts⟩ := hperforms s₀ s₁ hsize hrun₁ hdefined₁
  obtain ⟨l, hl, hlanes⟩ := (List.forall₂_cons.mp houts).1
  refine ⟨s₂, happends.runSince_trans happends₂ harith.isPlain hjs hs₁ hs₂, l, hl, ?_⟩
  intro k column hk
  obtain ⟨hlt, -⟩ := List.getElem?_eq_some_iff.mp hk
  have hcolumnLt := (hcolumns.lanes column (List.mem_of_getElem? hk)).lt
  rw [hlanes k hlt, ← (hmirrors s₁ hsolves).symm.productLane_eq hk,
    RunState.lanes_congr (hkeeps column hcolumnLt), RunState.lanes_congr (hkeeps vector hvectorLt)]

end Straight

/-- All ways to multiply matrices give the same product. In straight-line code, whichever transposes
are known, a product can be made; its code then runs to its end if the columns of the factors are
defined, and lane `r` of a column is the sum, from left to right, of the products of lane `r` of the
columns of the left side with the lanes of the matching column of the right side. Likewise a product of
a vector with a matrix has, lane by lane, the sum of the products of the vector with a column. -/
theorem products_agree {b : BlockId} {c₀ c : Context} {ts : List Tree}
    (hb : b < c₀.function.blocks.size) (h : Straight b c₀ ts c) :
    (∀ (a x : Tree) (left right : List Register) (n : Nat), a ∈ ts → x ∈ ts →
      IsMatrix c a left n → IsMatrix c x right left.length →
      (2 ≤ left.length ∧ left.length ≤ 4) → (1 ≤ right.length ∧ right.length ≤ 4) →
      (2 ≤ n ∧ n ≤ 4) →
      ∃ p c' columns, Code.multiply a x (.append b) c = .ok p c' ∧ IsMatrix c' p columns n ∧
        (p.register?.isSome ↔ right.length = 1) ∧
        Performs b c₀ c c' (left ++ right) fun s s' => List.Forall₂ (fun q q' =>
          ∃ l, s'.value? q' = some l ∧
            ∀ r < n, l.get r = productLane (left.map s.lanes) (s.lanes q) r) right columns) ∧
    ∀ (i : RawInstruction) (ty : TypeId) (c₁ : Context) (m v : Tree) (columns : List Register)
      (vector : Register) (n : Nat), i.op = .opVectorTimesMatrix →
      Emit.treeOperand i 3 (.append b) c₁ = .ok m c → m ∈ ts → v ∈ ts → IsMatrix c m columns n →
      IsMatrix c v [vector] n → (2 ≤ columns.length ∧ columns.length ≤ 4) → (2 ≤ n ∧ n ≤ 4) →
      ∃ p c' q, Code.matrixValue i ty v (.append b) c₁ = .ok p c' ∧ p.register? = some q ∧
        HasLanes c' q columns.length ∧
        Performs b c₀ c c' (vector :: columns) fun s s' => ∃ l, s'.value? q = some l ∧
          ∀ (k : Nat) (column : Register), columns[k]? = some column →
            l.get k = FloatLane.sumLanes ((List.range n).map fun r =>
              AluOp.floatBinary (· * ·) ((s.lanes column).get r) ((s.lanes vector).get r)) := by
  constructor
  · intro a x left right n ha hx hleft hright hinner hcount hn
    obtain ⟨p, c', -, columns, hmade, -, -, hp, hregister, hperforms⟩ :=
      h.multiply hb ha hx hleft hright hinner hcount hn
    exact ⟨p, c', columns, hmade, hp, hregister, hperforms⟩
  · intro i ty c₁ m v columns vector n hop hoperand hm hv hcolumns hvector hcount hn
    obtain ⟨p, c', q, hmade, hp, hlanes, hperforms⟩ :=
      h.vectorTimesMatrix hb hm hv hcolumns hvector hcount hn
    refine ⟨p, c', q, ?_, hp, hlanes, hperforms⟩
    unfold Code.matrixValue
    simp only [hop]
    exact (Emit.bind_of_ok hoperand).trans hmade

/-- A matrix of three columns with two lanes. -/
def wideFactor : Tree := .node 3 2 [.leaf 0 0 0, .leaf 1 0 1, .leaf 2 0 2]

/-- A matrix of two columns with three lanes. -/
def tallFactor : Tree := .node 6 3 [.leaf 4 1 3, .leaf 5 1 4]

/-- A vector of two lanes. -/
def vectorFactor : Tree := .leaf 7 0 0

/-- The columns of three factors at hand. -/
def factors : Context where
  options := {}
  ids := .ofBound 0
  module :=
    { types := ⟨#[{ shape := .vector .two .f32 }, { shape := .vector .three .f32 },
        { shape := .matrix .three .two .f32 }, { shape := .matrix .two .three .f32 }]⟩ }
  function :=
    { instructions := #[.loadConst [0x3F800000, 0x40000000], .loadConst [0x40400000, 0x40800000],
        .loadConst [0x40A00000, 0x40C00000], .loadConst [0x40E00000, 0x41000000, 0x41100000],
        .loadConst [0x41200000, 0x41300000, 0x41400000]]
      blocks := #[{ instructions := [0, 1, 2, 3, 4] }] }
  nextKey := 8

/-- The registers of `factors`, with room for products. -/
def factorRegisters : RunState where
  registers := #[some (.ofWords [0x3F800000, 0x40000000]), some (.ofWords [0x40400000, 0x40800000]),
    some (.ofWords [0x40A00000, 0x40C00000]), some (.ofWords [0x40E00000, 0x41000000, 0x41100000]),
    some (.ofWords [0x41200000, 0x41300000, 0x41400000])] ++ Array.replicate 15 none

/-- `factors` with both transposes taken, and an id for the first matrix. -/
def knownFactors : Context :=
  { ((do
      let _ ← Code.transpose wideFactor
      Code.transpose tallFactor : Emit Tree) (.append 0) factors).state with
    ids := ⟨#[{ value := some (.tree wideFactor) }]⟩ }

theorem isMatrix_wideFactor : IsMatrix factors wideFactor [0, 1, 2] 2 :=
  ⟨rfl, by decide, .f32, rfl, rfl⟩

theorem isMatrix_tallFactor : IsMatrix factors tallFactor [3, 4] 3 := ⟨rfl, by decide, .f32, rfl, rfl⟩

theorem isMatrix_vectorFactor : IsMatrix factors vectorFactor [0] 2 := ⟨rfl, by decide, .f32, rfl, rfl⟩

theorem straight_knownFactors : ∃ ts, Straight 0 factors ts knownFactors ∧ wideFactor ∈ ts ∧
    tallFactor ∈ ts ∧ vectorFactor ∈ ts := by
  have h : Straight 0 factors [wideFactor, tallFactor, vectorFactor] factors :=
    .tree (.tree (.tree (.start (by simp [factors])) (by decide) (by simp) rfl) (by decide)
      (by decide) rfl) (by decide) (by decide) rfl
  obtain ⟨t, c₁, is, -, hmade, happends, -⟩ :=
    h.transpose_eq (by decide) (by simp) isMatrix_wideFactor (by decide) (by decide)
  have h₁ := h.transpose (by simp) isMatrix_wideFactor (by decide) (by decide) hmade
  have htall := isMatrix_tallFactor.mono happends
  obtain ⟨t', c₂, -, -, hmade', -⟩ :=
    h₁.transpose_eq (by decide) (by simp) htall (by decide) (by decide)
  have h₂ := h₁.transpose (by simp) htall (by decide) (by decide) hmade'
  have hknown : knownFactors = { c₂ with ids := ⟨#[{ value := some (.tree wideFactor) }]⟩ } := by
    unfold knownFactors
    rw [Emit.bind_of_ok hmade, hmade']
    rfl
  refine ⟨[t', t, wideFactor, tallFactor, vectorFactor], ?_, by simp, by simp, by simp⟩
  rw [hknown]
  exact h₂.code { Appends.refl 0 c₂ with } (by simp) rfl

theorem products_agree_knownFactors :
    (∃ p c' q s s' l, Code.multiply wideFactor tallFactor (.append 0) knownFactors = .ok p c' ∧
      runSince factors knownFactors 0 factorRegisters = .ok none s ∧
      runSince knownFactors c' 0 s = .ok none s' ∧ (p.columns?.bind (·[0]?)) = some q ∧
      s'.value? q = some l ∧ l.x = 0x42980000) ∧
    ∃ p c' q s s' l, Code.matrixValue ⟨.opVectorTimesMatrix, 0, [0, 0, 0, 0]⟩ 1 vectorFactor
        (.append 0) knownFactors = .ok p c' ∧
      runSince factors knownFactors 0 factorRegisters = .ok none s ∧
      runSince knownFactors c' 0 s = .ok none s' ∧ p.register? = some q ∧
      s'.value? q = some l ∧ l.x = 0x40A00000 := by
  obtain ⟨ts, h, hwide, htall, hvector⟩ := straight_knownFactors
  obtain ⟨⟨is, happends, -⟩, -⟩ := h.appends (by decide)
  obtain ⟨hmultiply, hvectorTimes⟩ := products_agree (by decide) h
  obtain ⟨s, hrun, hdefined, hproduct, hsum⟩ :
      ∃ s, runSince factors knownFactors 0 factorRegisters = .ok none s ∧
        (∀ q ∈ ([0, 1, 2, 3, 4] : List Register), (s.value? q).isSome) ∧
        productLane ([0, 1, 2].map s.lanes) (s.lanes 3) 0 = 0x42980000 ∧
        FloatLane.sumLanes ((List.range 2).map fun r =>
          AluOp.floatBinary (· * ·) ((s.lanes 0).get r) ((s.lanes 0).get r)) = 0x40A00000 := by
    have hcheck : (match runSince factors knownFactors 0 factorRegisters with
        | .ok none s => decide ((∀ q ∈ ([0, 1, 2, 3, 4] : List Register), (s.value? q).isSome) ∧
          productLane ([0, 1, 2].map s.lanes) (s.lanes 3) 0 = 0x42980000 ∧
          FloatLane.sumLanes ((List.range 2).map fun r =>
            AluOp.floatBinary (· * ·) ((s.lanes 0).get r) ((s.lanes 0).get r)) = 0x40A00000)
        | _ => false) = true := by decide +kernel
    grind
  constructor
  · obtain ⟨p, c', columns, hmade, hp, -, hperforms⟩ := hmultiply wideFactor tallFactor [0, 1, 2]
      [3, 4] 2 hwide htall (isMatrix_wideFactor.mono happends) (isMatrix_tallFactor.mono happends)
      (by decide) (by decide) (by decide)
    obtain ⟨s', hs', hcolumns⟩ := hperforms factorRegisters s
      (Emit.size_le_of_ok hmade (by decide +kernel)) hrun hdefined
    cases hcolumns with
    | @cons _ q _ _ hq =>
      obtain ⟨l, hl, hlanes⟩ := hq
      refine ⟨p, c', q, s, s', l, hmade, hrun, hs', by rw [hp.columns?_eq]; rfl, hl, ?_⟩
      exact (hlanes 0 (by decide)).trans hproduct
  · obtain ⟨p, c', q, hmade, hp, -, hperforms⟩ := hvectorTimes
      ⟨.opVectorTimesMatrix, 0, [0, 0, 0, 0]⟩ 1 knownFactors wideFactor vectorFactor [0, 1, 2] 0 2 rfl
      rfl hwide hvector (isMatrix_wideFactor.mono happends) (isMatrix_vectorFactor.mono happends)
      (by decide) (by decide)
    have hsubset : ([0, 0, 1, 2] : List Register) ⊆ [0, 1, 2, 3, 4] := by decide
    obtain ⟨s', hs', l, hl, hlanes⟩ := hperforms factorRegisters s
      (Emit.size_le_of_ok hmade (by decide +kernel)) hrun fun q hq => hdefined q (hsubset hq)
    exact ⟨p, c', q, s, s', l, hmade, hrun, hs', hp, hl, (hlanes 0 0 rfl).trans hsum⟩

end Spirv

end ShaderIR
