import ShaderIR.Proofs.Updates
import ShaderIR.Spirv.Code.Memory

/-!
# Lanes in memory

A pointer to one lane of a vector is a cell of its own: a store through it changes the lane and nothing
else, and a load through it gives the lane. This holds however the number of the lane is given. Where
it is known, the lane is named in the code; where it is in a register, the code compares it with the
number of every lane.
-/

namespace ShaderIR

open List

/-! ### Lanes that are read and written -/

theorem Word.ofBool_ne_zero {p : Bool} : Word.ofBool p ≠ 0 ↔ p = true := by
  cases p <;> decide

theorem Source.x_select_fit (r : Register) (n : Nat) (l : Lanes) : ((fit r n).select l).x = l.x := by
  have hlane : ((0 : UInt8) &&& 3).toNat = 0 := by decide
  change ((fit r n).select l).get 0 = l.get 0
  rw [get_select]
  exact congrArg l.get hlane

theorem Source.x_select_whole (r : Register) (l : Lanes) : ((whole r).select l).x = l.x :=
  get_select_whole (i := 0) (by decide)

theorem Source.x_select_lane {r : Register} {k : Nat} (hk : k < 4) (l : Lanes) :
    ((lane r k.toUInt8).select l).x = l.get k := by
  change ((lane r k.toUInt8).select l).get 0 = _
  rw [get_select_lane]
  interval_cases k <;> rfl

variable {n : Nat} {index : Index}

theorem get_maskedLanes_of_le {i : Nat} (hi : i < 4) (hni : n ≤ i) (new old : Lanes) :
    (maskedLanes (Spirv.Code.laneMask n) new old).get i = old.get i := by
  interval_cases i <;> interval_cases n <;> rfl

namespace Spirv

variable {b : BlockId} {c c' : Context} {s s' : RunState}

/-! ### Choices -/

namespace Code

/-- Chooses between two sources by whether a register holds a number. -/
def pick (index : Register) (number : Word) (yes no : Source) : Emit Register := do
  let r ← Emit.loadConst [number]
  let hit ← Emit.alu .ieq [index, r] 1
  Emit.aluWith .bcsel [.whole hit, yes, no] 1

theorem x_result_ieq (s : RunState) (p q : Register) (m n : Nat) :
    (s.result .ieq [.fit p m, .fit q n] 1).x = .ofBool ((s.lanes p).x = (s.lanes q).x) := by
  change (AluOp.eval .ieq [(Source.fit p m).select (s.lanes p),
    (Source.fit q n).select (s.lanes q)] 1).get 0 = _
  rw [AluOp.get_eval rfl (by decide) (by decide), ← Source.x_select_fit p m (s.lanes p),
    ← Source.x_select_fit q n (s.lanes q)]
  rfl

theorem x_result_bcsel (s : RunState) (hit : Register) (yes no : Source) :
    (s.result .bcsel [.whole hit, yes, no] 1).x =
      if (s.lanes hit).x ≠ 0 then (yes.select (s.lanes yes.value)).x
      else (no.select (s.lanes no.value)).x := by
  change (AluOp.eval .bcsel [(Source.whole hit).select (s.lanes hit), yes.select (s.lanes yes.value),
    no.select (s.lanes no.value)] 1).get 0 = _
  rw [AluOp.get_eval rfl (by decide) (by decide)]
  simp only [getElem?_cons_zero, getElem?_cons_succ, Option.getD_some,
    Source.get_select_whole (show 0 < 4 by decide)]
  rfl

theorem alu_pair_eq {op : AluOp} {p q : Register} {m l : Nat} (hp : HasLanes c p m)
    (hq : HasLanes c q n) : Emit.alu op [p, q] l (.append b) c =
      Emit.aluWith op [.fit p m, .fit q n] l (.append b) c := by
  obtain ⟨i, hi, rfl⟩ := hp
  obtain ⟨j, hj, rfl⟩ := hq
  exact Emit.alu_pair hi hj

theorem pick_executes (b : BlockId) (c : Context) {index : Nat} (number : Word) (yes no : Source)
    (hindex : index < c.fresh) (hyes : yes.value < c.fresh)
    (hno : no.value < c.fresh) :
    ∃ q c', pick index number yes no (.append b) c = .ok q c' ∧ HasLanes c' q 1 ∧
      Executes b c c' (fun s => (s.value? index).isSome ∧ (s.value? yes.value).isSome ∧
        (s.value? no.value).isSome) fun s s' => s'.memory = s.memory ∧ ∃ l, s'.value? q = some l ∧
          l.x = if (s.lanes index).x = number then (yes.select (s.lanes yes.value)).x
            else (no.select (s.lanes no.value)).x := by
  obtain ⟨c₁, hnumber, hone, -, hfirst⟩ := Emit.instruction_executes b c
    (i := .loadConst [number]) ⟨rfl, rfl⟩ fun s (_ : True) => Instruction.perform_loadConst [number]
  have hindex₁ := (hasLanes_of_lt hindex).later hfirst
  obtain ⟨c₂, hhit, -, -, hsecond⟩ := Emit.aluWith_executes b c₁ .ieq
    [.fit index (laneCount c index), .fit c.fresh 1] 1
  obtain ⟨c₃, hpicked, hlanes, -, hthird⟩ := Emit.aluWith_executes b c₂ .bcsel
    [.whole c₁.fresh, yes, no] 1
  refine ⟨_, c₃, ?_, hlanes, ?_⟩
  · refine (Emit.bind_of_ok hnumber).trans ?_
    refine (Emit.bind_of_ok ((alu_pair_eq hindex₁ hone).trans hhit)).trans ?_
    exact hpicked
  · have hcompared : Executes b c c₂ (fun s => (s.value? index).isSome) fun s s₂ =>
        s₂.memory = s.memory ∧ ∃ l, s₂.value? c₁.fresh = some l ∧
          l.x = .ofBool ((s.lanes index).x = number) := by
      refine hfirst.andThen hsecond (fun _ _ => trivial) ?_ ?_
      · rintro s s₁ hs hkeeps ⟨-, hnumber⟩ source hsource
        rcases mem_pair.mp hsource with rfl | rfl
        · exact (hkeeps.value?_eq hindex).symm ▸ hs
        · exact Option.isSome_of_eq_some hnumber
      · rintro s s₁ s₂ - hkeeps ⟨hmemory₁, hnumber⟩ - ⟨hmemory₂, hhit⟩
        refine ⟨hmemory₂.trans hmemory₁, _, hhit, ?_⟩
        rw [x_result_ieq, RunState.lanes_of_value? hnumber, hkeeps.lanes_eq hindex]
        rfl
    refine hcompared.andThen hthird (fun s hs => hs.1) ?_ ?_
    · rintro s s₂ ⟨-, hsyes, hsno⟩ hkeeps ⟨-, l, hhit, -⟩ source hsource
      simp only [mem_cons, not_mem_nil, or_false] at hsource
      rcases hsource with rfl | rfl | rfl
      · exact Option.isSome_of_eq_some hhit
      · rwa [hkeeps.value?_eq hyes]
      · rwa [hkeeps.value?_eq hno]
    · rintro s s₂ s₃ - hkeeps ⟨hmemory₂, l, hhit, hl⟩ - ⟨hmemory₃, hvalue⟩
      refine ⟨hmemory₃.trans hmemory₂, _, hvalue, ?_⟩
      rw [x_result_bcsel, RunState.lanes_of_value? hhit, hl, hkeeps.lanes_eq hyes, hkeeps.lanes_eq hno]
      simp only [Word.ofBool_ne_zero, decide_eq_true_eq]

/-! ### Lanes by number -/

section

variable {vector index value : Nat}

theorem eq_toUInt32_iff {w : Word} {k : Nat} (h : k < 4) : w = k.toUInt32 ↔ w.toNat = k := by
  rw [← UInt32.toNat_inj, toNat_toUInt32_of_lt h]

/-- Lanes are tried one after the other. The result is the lane with the number in `index`, where it is
among those that are tried, and otherwise what was chosen before. -/
theorem tryLanes_executes (b : BlockId) (m : Nat) {j result : Nat} (hj : j + m ≤ 4)
    (hvector : vector < c.function.instructions.size) (hindex : index < c.function.instructions.size)
    (hresult : result < c.function.instructions.size) :
    ∃ q c', (List.range' j m).foldlM (fun result lane => pick index lane.toUInt32
        (.lane vector lane.toUInt8) (.whole result)) result (.append b) c = .ok q c' ∧
      q < c'.function.instructions.size ∧
      Executes b c c' (fun s => (s.value? vector).isSome ∧ (s.value? index).isSome ∧
        (s.value? result).isSome) fun s s' => s'.memory = s.memory ∧ ∃ l, s'.value? q = some l ∧
          l.x = if j ≤ (s.lanes index).x.toNat ∧ (s.lanes index).x.toNat < j + m then
              (s.lanes vector).get (s.lanes index).x.toNat
            else (s.lanes result).x := by
  induction m generalizing c j result with
  | zero =>
    refine ⟨result, c, rfl, hresult, .refl b c ?_⟩
    rintro s ⟨-, -, hs⟩
    refine ⟨rfl, _, RunState.value?_of_isSome hs, (if_neg ?_).symm⟩
    omega
  | succ m ih =>
    obtain ⟨q, c₁, hq, hone, hfirst⟩ := pick_executes b c j.toUInt32
      (.lane vector j.toUInt8) (.whole result) hindex hvector hresult
    have hle := hfirst.size_le
    obtain ⟨q', c₂, hq', hlt, hrest⟩ := ih (c := c₁) (j := j + 1) (by omega) (by omega)
      (by omega) hone.lt
    refine ⟨q', c₂, (Emit.bind_of_ok hq).trans hq', hlt, ?_⟩
    refine hfirst.andThen hrest (fun s hs => ⟨hs.2.1, hs.1, hs.2.2⟩) ?_ ?_
    · rintro s s₁ ⟨hsvector, hsindex, -⟩ hkeeps ⟨-, l, hl, -⟩
      rw [hkeeps.value?_eq hvector, hkeeps.value?_eq hindex]
      exact ⟨hsvector, hsindex, Option.isSome_of_eq_some hl⟩
    · rintro s s₁ s₂ - hkeeps ⟨hmemory₁, l, hl, hx⟩ - ⟨hmemory₂, l', hl', hx'⟩
      refine ⟨hmemory₂.trans hmemory₁, l', hl', ?_⟩
      rw [hkeeps.lanes_eq hvector, hkeeps.lanes_eq hindex, RunState.lanes_of_value? hl, hx] at hx'
      rw [hx', Source.x_select_lane (by omega)]
      simp only [eq_toUInt32_iff (show j < 4 by omega), Source.x_select_whole]
      generalize (s.lanes index).x.toNat = k
      split_ifs <;> first | rfl | omega | (subst k; rfl)

theorem extractDynamic_executes (b : BlockId) (c : Context) (hn : n ≤ 4)
    (hvector : vector < c.fresh)
    (hindex : index < c.fresh) :
    ∃ q c', extractDynamic vector n index (.append b) c = .ok q c' ∧
      Executes b c c' (fun s => (s.value? vector).isSome ∧ (s.value? index).isSome) fun s s' =>
        s'.memory = s.memory ∧ ∃ l, s'.value? q = some l ∧
          l.x = (s.lanes vector).get
            (if (s.lanes index).x.toNat < n then (s.lanes index).x.toNat else 0) := by
  obtain ⟨c₁, hlane, hone, -, hfirst⟩ := lane_executes b c (r := vector) (w := 0) (by decide)
  have hle := hfirst.size_le
  obtain ⟨q, c₂, hq, -, hrest⟩ := tryLanes_executes b (n - 1) (j := 1) (by omega)
    (Nat.lt_of_lt_of_le hvector hle) (Nat.lt_of_lt_of_le hindex hle) hone.lt
  refine ⟨q, c₂, (Emit.bind_of_ok hlane).trans hq, hfirst.andThen hrest (fun s hs => hs.1) ?_ ?_⟩
  · rintro s s₁ ⟨hsvector, hsindex⟩ hkeeps ⟨-, l, hl, -⟩
    rw [hkeeps.value?_eq hvector, hkeeps.value?_eq hindex]
    exact ⟨hsvector, hsindex, Option.isSome_of_eq_some hl⟩
  · rintro s s₁ s₂ - hkeeps ⟨hmemory₁, l, hl, hx⟩ - ⟨hmemory₂, l', hl', hx'⟩
    refine ⟨hmemory₂.trans hmemory₁, l', hl', ?_⟩
    rw [hx', hkeeps.lanes_eq hvector, hkeeps.lanes_eq hindex, RunState.lanes_of_value? hl, hx]
    grind

/-- For every lane a register is made that holds the lane, or the replacement if `index` holds its
number. -/
theorem replaceLanes_executes (b : BlockId) (m : Nat) {j : Nat} (hj : j + m ≤ 4)
    (hvector : vector < c.function.instructions.size) (hindex : index < c.function.instructions.size)
    (hvalue : value < c.function.instructions.size) :
    ∃ (rs : List Nat) (c' : Context), (List.range' j m).mapM (fun lane => (do
        let r ← pick index lane.toUInt32 (.lane value 0) (.lane vector lane.toUInt8)
        return (r, 0) : Emit (Register × Word))) (.append b) c = .ok (rs.map (·, 0)) c' ∧
      rs.length = m ∧
      Executes b c c' (fun s => (s.value? vector).isSome ∧ (s.value? index).isSome ∧
        (s.value? value).isSome) fun s s' => s'.memory = s.memory ∧
          ∀ k r, rs[k]? = some r → ∃ l, s'.value? r = some l ∧
            l.x = if (s.lanes index).x.toNat = j + k then (s.lanes value).x
              else (s.lanes vector).get (j + k) := by
  induction m generalizing c j with
  | zero => exact ⟨[], c, rfl, rfl, .refl b c fun s _ => ⟨rfl, by simp⟩⟩
  | succ m ih =>
    obtain ⟨q, c₁, hq, hone, hfirst⟩ := pick_executes b c j.toUInt32
      (.lane value 0) (.lane vector j.toUInt8) hindex hvalue hvector
    have hle := hfirst.size_le
    obtain ⟨rs, c₂, hrs, hlength, hrest⟩ := ih (c := c₁) (j := j + 1) (by omega) (by omega)
      (by omega) (by omega)
    refine ⟨q :: rs, c₂, ?_, by simp [hlength], ?_⟩
    · rw [List.range'_succ, mapM_cons, bind_assoc]
      refine (Emit.bind_of_ok hq).trans ?_
      exact (Emit.bind_of_ok hrs).trans rfl
    · refine hfirst.andThen hrest (fun s hs => ⟨hs.2.1, hs.2.2, hs.1⟩) ?_ ?_
      · rintro s s₁ ⟨hsvector, hsindex, hsvalue⟩ hkeeps -
        rw [hkeeps.value?_eq hvector, hkeeps.value?_eq hindex, hkeeps.value?_eq hvalue]
        exact ⟨hsvector, hsindex, hsvalue⟩
      · rintro s s₁ s₂ - hkeeps ⟨hmemory₁, l, hl, hx⟩ hkeeps' ⟨hmemory₂, hvalues⟩
        refine ⟨hmemory₂.trans hmemory₁, fun k r hr => ?_⟩
        cases k with
        | zero =>
          obtain rfl := Option.some.inj hr
          refine ⟨l, (hkeeps'.value?_eq hone.lt).trans hl, ?_⟩
          have hfirst : ((Source.lane value 0).select (s.lanes value)).x = (s.lanes value).x :=
            Source.x_select_lane (k := 0) (by decide) _
          rw [hx, Source.x_select_lane (show j < 4 by omega), Nat.add_zero]
          simp only [eq_toUInt32_iff (show j < 4 by omega)]
          exact if_congr Iff.rfl hfirst rfl
        | succ k =>
          obtain ⟨l', hl', hx'⟩ := hvalues k r hr
          refine ⟨l', hl', ?_⟩
          rw [hkeeps.lanes_eq hvector, hkeeps.lanes_eq hindex, hkeeps.lanes_eq hvalue] at hx'
          rw [hx', Nat.add_right_comm, Nat.add_assoc]

theorem insertDynamic_eq (vector index value : Register) (n : Nat) :
    insertDynamic vector n value index = (List.range n).mapM (fun lane => do
        let r ← pick index lane.toUInt32 (.lane value 0) (.lane vector lane.toUInt8)
        return (r, 0)) >>= Emit.gather := by
  simp only [insertDynamic, pick, bind_assoc]

theorem insertDynamic_executes (b : BlockId) (c : Context) (hn : n ≤ 4)
    (hvector : vector < c.fresh)
    (hindex : index < c.fresh)
    (hvalue : value < c.fresh) :
    ∃ q c', insertDynamic vector n value index (.append b) c = .ok q c' ∧
      q < c'.fresh ∧
      Executes b c c' (fun s => (s.value? vector).isSome ∧ (s.value? index).isSome ∧
        (s.value? value).isSome) fun s s' => s'.memory = s.memory ∧ ∃ l, s'.value? q = some l ∧
          ∀ k < n, l.get k = if k = (s.lanes index).x.toNat then (s.lanes value).x
            else (s.lanes vector).get k := by
  obtain ⟨rs, c₁, hrs, hlength, hfirst⟩ := replaceLanes_executes b n (j := 0) (by omega) hvector
    hindex hvalue
  obtain ⟨c₂, hmade, hlanes, -, hsecond⟩ := Emit.aluWith_executes b c₁ (.ofLanes n)
    ((rs.map (·, (0 : Word))).map fun (r, w) => .lane r w.toUInt8) n
  refine ⟨_, c₂, ?_, hlanes.lt, hfirst.andThen hsecond (fun _ hs => hs) ?_ ?_⟩
  · rw [← range_eq_range'] at hrs
    rw [insertDynamic_eq]
    refine (Emit.bind_of_ok hrs).trans ?_
    rw [Emit.gather, length_map, hlength]
    exact hmade
  · rintro s s₁ - - ⟨-, hvalues⟩ source hsource
    rw [map_map] at hsource
    obtain ⟨r, hr, rfl⟩ := mem_map.mp hsource
    obtain ⟨k, hk⟩ := getElem?_of_mem hr
    obtain ⟨l, hl, -⟩ := hvalues k r hk
    exact Option.isSome_of_eq_some hl
  · rintro s s₁ s₂ - - ⟨hmemory₁, hvalues⟩ - ⟨hmemory₂, hl⟩
    refine ⟨hmemory₂.trans hmemory₁, _, hl, fun k hk => ?_⟩
    obtain ⟨r, hr⟩ : ∃ r, rs[k]? = some r := ⟨_, getElem?_eq_getElem (hlength.symm ▸ hk)⟩
    obtain ⟨l, hl, hx⟩ := hvalues k r hr
    have hlane : (rs.map (·, (0 : Word)))[k]? = some (r, 0) := by simp [hr]
    have hget := get_result_lanes (s := s₁) (by simpa [hlength] using hn) hlane (by decide)
    rw [length_map, hlength] at hget
    rw [hget, RunState.lanes_of_value? hl]
    refine hx.trans ?_
    simp only [Nat.zero_add, eq_comm]

end

end Code

/-! ### Scalars -/

/-- The number that an index stands for, if it is known or its register is defined. -/
def wordAt? (s : RunState) : Index → Option Word
  | .direct w => some w
  | .dynamic r => (s.value? r).map Quad.x

theorem wordAt?_dynamic {r : Register} {w : Word} (h : wordAt? s (.dynamic r) = some w) :
    (s.value? r).isSome ∧ (s.lanes r).x = w := by
  obtain ⟨l, hl, rfl⟩ := Option.map_eq_some_iff.mp h
  exact ⟨Option.isSome_of_eq_some hl, by rw [RunState.lanes_of_value? hl]⟩

/-- A number that is known to be below a bound, or one in a register that there is. -/
def Context.HasIndex (c : Context) (n : Nat) : Index → Prop
  | .direct w => w.toNat < n
  | .dynamic r => (r : Nat) < c.function.instructions.size

instance (n : Nat) : (index : Index) → Decidable (c.HasIndex n index)
  | .direct _ => inferInstanceAs (Decidable (_ < _))
  | .dynamic _ => inferInstanceAs (Decidable (_ < _))

theorem Context.HasIndex.later {pre : RunState → Prop} {Q : RunState → RunState → Prop}
    (h : c.HasIndex n index) (he : Executes b c c' pre Q) : c'.HasIndex n index := by
  cases index with
  | direct w => exact h
  | dynamic r => exact Nat.lt_of_lt_of_le h he.size_le

theorem Keeps.wordAt?_eq (h : Keeps c s s') (hindex : c.HasIndex n index) :
    wordAt? s' index = wordAt? s index := by
  cases index with
  | direct w => rfl
  | dynamic r => rw [wordAt?, h.value?_eq hindex, wordAt?]

/-- What the id of a scalar stands for: a register of the function under construction, or the number of
a constant. -/
inductive Context.Names (c : Context) (id : Id) : Index → Prop
  | register {key : Nat} {ty : TypeId} {r : Nat} (hid : c.ids.get id = .ok (.tree (.leaf key ty r)))
      (hr : r < c.function.instructions.size) : Names c id (.dynamic r)
  | constant {k : ConstantId} {ty : TypeId} {scalar : Scalar} {w : Word}
      (hid : c.ids.get id = .ok (.constant k))
      (hk : c.module.constants[k]? = some { ty, value := .flat [w] })
      (hty : c.module.types.shape? ty = some (.scalar scalar)) : Names c id (.direct w)

theorem Emit.registerOf_executes (b : BlockId) {id : Id} {v : Index} (h : c.Names id v) :
    ∃ r c', Emit.registerOf id (.append b) c = .ok r c' ∧ r < c'.fresh ∧
      Executes b c c' (fun s => (wordAt? s v).isSome) fun s s' => s'.memory = s.memory ∧
        ∃ l, s'.value? r = some l ∧ wordAt? s v = some l.x := by
  cases h with
  | @register _ _ r hid hr =>
    refine ⟨r, c, ?_, hr, .refl b c fun s hs => ⟨rfl, ?_⟩⟩
    · rw [Emit.registerOf, Emit.treeOf, bind_assoc, Emit.lift_of_ok (Lower.lookup_eq_ok.mpr ⟨hid, rfl⟩)]
      rfl
    · have hdefined : (s.value? r).isSome := by simpa [wordAt?] using hs
      exact ⟨_, RunState.value?_of_isSome hdefined, by rw [wordAt?, RunState.value?_of_isSome hdefined]; rfl⟩
  | @constant k ty _ w hid hk hty =>
    have hconstant : Lower.constant k c = .ok { ty, value := .flat [w] } c :=
      Emit.constant_eq_ok.mpr ⟨by simp [Context.constantAt, hk], rfl⟩
    obtain ⟨c', hmade, hlanes, -, hexec⟩ := Emit.instruction_executes b c (i := .loadConst [w])
      ⟨rfl, rfl⟩ fun s (_ : True) => Instruction.perform_loadConst [w]
    refine ⟨_, { c' with nextKey := c'.nextKey + 1 }, ?_, hlanes.lt,
      (hexec.withKey _).mono (fun _ _ => trivial) ?_⟩
    · have htree : Emit.treeOf id (.append b) c = .ok (.leaf c'.nextKey ty c.fresh)
          { c' with nextKey := c'.nextKey + 1 } := by
        rw [Emit.treeOf, Emit.lift_of_ok (Lower.lookup_eq_ok.mpr ⟨hid, rfl⟩)]
        refine Emit.getBind_eq_ok.mpr ?_
        rw [Emit.constantTreeWithin, Emit.lift_of_ok hconstant]
        refine (Emit.lift_of_ok (Lower.shape_of_shape? hty)).trans ?_
        exact (Emit.bind_of_ok hmade).trans rfl
      exact (Emit.bind_of_ok htree).trans rfl
    · rintro s s' - - ⟨hmemory, hvalue⟩
      exact ⟨hmemory, _, hvalue, rfl⟩

namespace Code

/-! ### Loads -/

theorem loadVar_executes (b : BlockId) (c : Context) (p : Place) (n : Nat) :
    ∃ c', Emit.instruction (.loadVar p n) (.append b) c = .ok c.fresh c' ∧
      HasLanes c' c.fresh n ∧
      Executes b c c' (fun s => ∀ r ∈ p.registers, (s.value? r).isSome) fun s s' =>
        s'.memory = s.memory ∧ s'.value? c.fresh =
          some (s.memory.read p.root (s.resolve p)) := by
  obtain ⟨c', hmade, hlanes, -, hexec⟩ := Emit.instruction_executes b c (i := .loadVar p n)
    ⟨rfl, rfl⟩ fun s => Instruction.perform_loadVar
  exact ⟨c', hmade, hlanes, hexec⟩

/-- A vector is loaded as it is, unless it is one of booleans of a uniform. -/
theorem loadRegister_executes (b : BlockId) {p : Place} {ty : TypeId} {size : VectorSize} {scalar : Scalar}
    (hty : c.module.types.shape? ty = some (.vector size scalar))
    (hbool : ¬(scalar.kind = .bool ∧ isUniform c p.root)) :
    ∃ c', loadRegister p ty (.append b) c = .ok c.fresh c' ∧
      HasLanes c' c.fresh size.lanes ∧
      Executes b c c' (fun s => ∀ r ∈ p.registers, (s.value? r).isSome) fun s s' =>
        s'.memory = s.memory ∧ s'.value? c.fresh =
          some (s.memory.read p.root (s.resolve p)) := by
  obtain ⟨c', hload, hlanes, hexec⟩ := loadVar_executes b c p size.lanes
  refine ⟨c', ?_, hlanes, hexec⟩
  obtain ⟨-, hc'⟩ := EStateM.Result.ok.inj (hload.symm.trans (Emit.instruction_eq _))
  have hmodule : c'.module = c.module := by rw [hc', Context.withFunction]
  have hshape : c'.module.types.shape? ty = some (.vector size scalar) := by rwa [hmodule]
  rw [loadRegister, Emit.lift_of_ok (Lower.lanes_of_shape? hty rfl), Emit.bind_of_ok hload,
    Emit.lift_of_ok (Lower.shape_of_shape? hshape), Emit.getBind_eq_ok, hmodule]
  rw [if_neg]
  · rfl
  · simpa [Shape.scalar?, isUniform] using hbool

/-- The lane of a vector with a number that is known or in a register. -/
def extractAt (vector : Register) (n : Nat) : Index → Emit Register
  | .direct w => Emit.lane vector w
  | .dynamic r => extractDynamic vector n r

theorem extractAt_executes (b : BlockId) {vector : Nat} (hn : n ≤ 4)
    (hvector : vector < c.fresh) (hindex : c.HasIndex n index) :
    ∃ q c', extractAt vector n index (.append b) c = .ok q c' ∧
      Executes b c c' (fun s => (s.value? vector).isSome ∧ (wordAt? s index).isSome) fun s s' =>
        s'.memory = s.memory ∧ ∃ l, s'.value? q = some l ∧
          ∀ w, wordAt? s index = some w →
            l.x = (s.lanes vector).get (if w.toNat < n then w.toNat else 0) := by
  cases index with
  | direct w =>
    obtain ⟨c', hmade, -, -, hexec⟩ := lane_executes b c (r := vector) (w := w) (by
      have : w.toNat < n := hindex
      omega)
    refine ⟨_, c', hmade, hexec.mono (fun s hs => hs.1) ?_⟩
    rintro s s' - - ⟨hmemory, l, hl, hx⟩
    refine ⟨hmemory, l, hl, ?_⟩
    rintro _ ⟨⟩
    rw [hx, if_pos (show w.toNat < n from hindex)]
  | dynamic r =>
    obtain ⟨q, c', hmade, hexec⟩ := extractDynamic_executes b c hn hvector hindex
    refine ⟨q, c', hmade, hexec.mono (fun s hs => ⟨hs.1, by simpa [wordAt?] using hs.2⟩) ?_⟩
    rintro s s' - - ⟨hmemory, l, hl, hx⟩
    refine ⟨hmemory, l, hl, fun w hw => ?_⟩
    rw [hx, (wordAt?_dynamic hw).2]

/-! ### Stores -/

/-- A vector with the lane replaced whose number is known or in a register. -/
def insertAt (vector : Register) (n : Nat) (value : Register) : Index → Emit Register
  | .direct w => insertLane vector n value w
  | .dynamic r => insertDynamic vector n value r

theorem insertAt_executes (b : BlockId) {vector value : Nat} (hn : n ≤ 4)
    (hvector : vector < c.fresh)
    (hvalue : value < c.fresh) (hindex : c.HasIndex n index) :
    ∃ q c', insertAt vector n value index (.append b) c = .ok q c' ∧
      q < c'.fresh ∧
      Executes b c c' (fun s => (s.value? vector).isSome ∧ (s.value? value).isSome ∧
        (wordAt? s index).isSome) fun s s' => s'.memory = s.memory ∧ ∃ l, s'.value? q = some l ∧
          ∀ w, wordAt? s index = some w → ∀ k < n,
            l.get k = if k = w.toNat then (s.lanes value).x else (s.lanes vector).get k := by
  cases index with
  | direct w =>
    obtain ⟨c', hmade, hlanes, -, hexec⟩ := insertLane_executes b c vector value hn w
    refine ⟨_, c', hmade, hlanes.lt, hexec.mono (fun s hs => ⟨hs.1, hs.2.1⟩) ?_⟩
    rintro s s' - - ⟨hmemory, l, hl, hget⟩
    refine ⟨hmemory, l, hl, ?_⟩
    rintro _ ⟨⟩
    exact hget
  | dynamic r =>
    obtain ⟨q, c', hmade, hlt, hexec⟩ := insertDynamic_executes b c hn hvector hindex hvalue
    refine ⟨q, c', hmade, hlt, hexec.mono (fun s hs => ⟨hs.1, by simpa [wordAt?] using hs.2.2, hs.2.1⟩) ?_⟩
    rintro s s' - - ⟨hmemory, l, hl, hget⟩
    refine ⟨hmemory, l, hl, fun w hw => ?_⟩
    rw [← (wordAt?_dynamic hw).2]
    exact hget

/-- A vector in a register is written to a place. -/
theorem storeVar_executes (b : BlockId) (c : Context) {p : Place} {r : Nat} (hn : n ≤ 4) :
    ∃ q c', Emit.instruction (.storeVar p r (laneMask n)) (.append b) c = .ok q c' ∧
      Executes b c c' (fun s => (∀ r ∈ p.registers, (s.value? r).isSome) ∧ (s.value? r).isSome)
        fun s s' => ∃ l, s'.memory = s.memory.write p.root (s.resolve p) l ∧
          ∀ k < 4, l.get k =
            if k < n then (s.lanes r).get k else (s.memory.read p.root (s.resolve p)).get k := by
  refine ⟨_, _, Emit.instruction_eq _, .instruction b ⟨rfl, rfl⟩ ?_⟩
  rintro s - ⟨hp, hr⟩
  refine ⟨_, Instruction.perform_storeVar hp hr, _, rfl, fun k hk => ?_⟩
  split_ifs with hkn
  · exact get_maskedLanes hn hkn _ _
  · exact get_maskedLanes_of_le hk (Nat.le_of_not_lt hkn) _ _

end Code

/-! ### Cells -/

/-- From one memory to the other, a lane is overwritten in a slot that holds a vector of `n` lanes, if the
vector has the lane. -/
structure LaneWritten (m m' : Memory) (v : VariableId) (path : List Word) (n : Nat) (index value : Word) :
    Prop where
  lanes : ∀ k < 4, (m'.read v path).get k =
    if k = index.toNat ∧ k < n then value else (m.read v path).get k
  others : ∀ v' path', (v', path') ≠ (v, path) → m'.read v' path' = m.read v' path'

namespace LaneWritten

variable {m m' m'' : Memory} {v : VariableId} {path : List Word} {n : Nat} {index value : Word}

theorem unique (h : LaneWritten m m' v path n index value) (h' : LaneWritten m m'' v path n index value)
    (v' : VariableId) (path' : List Word) : m'.read v' path' = m''.read v' path' := by
  by_cases hslot : (v', path') = (v, path)
  · obtain ⟨rfl, rfl⟩ := Prod.mk.inj hslot
    exact Quad.ext_get fun k hk => (h.lanes k hk).trans (h'.lanes k hk).symm
  · rw [h.others v' path' hslot, h'.others v' path' hslot]

theorem unchanged (h : LaneWritten m m' v path n index value) (hn : n ≤ index.toNat) (v' : VariableId)
    (path' : List Word) : m'.read v' path' = m.read v' path' := by
  refine h.unique ⟨fun k hk => (if_neg ?_).symm, fun _ _ _ => rfl⟩ v' path'
  omega

end LaneWritten

namespace Code

section

variable {place : Place} {ty vector : TypeId} {size : VectorSize} {scalar : Scalar} {index v : Index}
  {i : RawInstruction}

/-- An instruction that stores a scalar through a pointer to a lane. -/
structure StoresLane (c : Context) (i : RawInstruction) (place : Place) (ty vector : TypeId)
    (index v : Index) : Prop where
  pointer : ∃ target, i.operand 0 = .ok target ∧
    c.ids.pointer target = .ok { place, ty, lane := some { index, vector } }
  value : ∃ value, i.operand 1 = .ok value ∧ c.Names value v

/-- An instruction that loads through a pointer to a lane, with the id that it gives a meaning. -/
structure LoadsLane (c : Context) (i : RawInstruction) (id : Id) (place : Place) (ty vector : TypeId)
    (index : Index) : Prop where
  pointer : ∃ source, i.operand 2 = .ok source ∧
    c.ids.pointer source = .ok { place, ty, lane := some { index, vector } }
  result : i.operand 1 = .ok id
  fresh : ∃ slot, c.ids.slots[id.toNat]? = some slot ∧ slot.value = none

theorem StoresLane.eq (h : StoresLane c i place ty vector index v)
    (hvector : c.module.types.shape? vector = some (.vector size scalar)) :
    ∃ value, c.Names value v ∧ store i (.append b) c = (do
      let r ← Emit.registerOf value
      let whole ← Emit.instruction (.loadVar place size.lanes)
      let updated ← insertAt whole size.lanes r index
      let _ ← Emit.instruction (.storeVar place updated (laneMask size.lanes)) : Emit Unit)
        (.append b) c := by
  obtain ⟨⟨target, htarget, hpointer⟩, value, hvalue, hnames⟩ := h
  refine ⟨value, hnames, ?_⟩
  rw [store, Emit.lift_of_ok (Lower.operand_eq_ok.mpr ⟨htarget, rfl⟩),
    Emit.lift_of_ok (Lower.lookup_eq_ok.mpr ⟨hpointer, rfl⟩),
    Emit.lift_of_ok (Lower.operand_eq_ok.mpr ⟨hvalue, rfl⟩)]
  refine (Emit.lift_of_ok (Lower.lanes_of_shape? hvector rfl)).trans ?_
  cases index <;> rfl

theorem LoadsLane.eq {id : Id} (h : LoadsLane c i id place ty vector index)
    (hvector : c.module.types.shape? vector = some (.vector size scalar))
    (hty : c.module.types.shape? ty = some (.scalar scalar)) :
    load i (.append b) c = (do
      let whole ← loadRegister place vector
      let r ← extractAt whole size.lanes index
      Lower.defineRegister id ty r : Emit Unit) (.append b) c := by
  obtain ⟨⟨source, hsource, hpointer⟩, hid, -⟩ := h
  rw [load, Emit.lift_of_ok (Lower.operand_eq_ok.mpr ⟨hid, rfl⟩),
    Emit.lift_of_ok (Lower.operand_eq_ok.mpr ⟨hsource, rfl⟩),
    Emit.lift_of_ok (Lower.lookup_eq_ok.mpr ⟨hpointer, rfl⟩)]
  refine (Emit.lift_of_ok (Lower.shape_of_shape? hty)).trans ?_
  refine (Emit.lift_of_ok (Lower.lanes_of_shape? hvector rfl)).trans ?_
  cases index <;> rfl

theorem StoresLane.executes (b : BlockId) (h : StoresLane c i place ty vector index v)
    (hvector : c.module.types.shape? vector = some (.vector size scalar))
    (hplace : ∀ r ∈ place.registers, r < c.fresh)
    (hindex : c.HasIndex size.lanes index) :
    ∃ c', store i (.append b) c = .ok () c' ∧
      Executes b c c' (fun s => (∀ r ∈ place.registers, (s.value? r).isSome) ∧
        (wordAt? s index).isSome ∧ (wordAt? s v).isSome) fun s s' =>
          ∀ k w, wordAt? s index = some k → wordAt? s v = some w →
            LaneWritten s.memory s'.memory place.root (s.resolve place) size.lanes k w := by
  have hn : size.lanes ≤ 4 := by cases size <;> decide
  obtain ⟨value, hnames, heq⟩ := h.eq (b := b) hvector
  obtain ⟨r, c₁, hr, hrlt, hvalue⟩ := Emit.registerOf_executes b hnames
  obtain ⟨c₂, hwhole, hlanes, hload⟩ := loadVar_executes b c₁ place size.lanes
  have hle₁ := hvalue.size_le
  have hle₂ := hload.size_le
  obtain ⟨q, c₃, hq, hqlt, hinsert⟩ := insertAt_executes b hn hlanes.lt
    (Nat.lt_of_lt_of_le hrlt hle₂) ((hindex.later hvalue).later hload)
  obtain ⟨q', c₄, hq', hstore⟩ := storeVar_executes b c₃ (p := place) (r := q) hn
  refine ⟨c₄, ?_, ?_⟩
  · rw [heq]
    refine (Emit.bind_of_ok hr).trans ((Emit.bind_of_ok hwhole).trans ((Emit.bind_of_ok hq).trans ?_))
    exact (Emit.bind_of_ok hq').trans rfl
  have hloaded : Executes b c c₂ (fun s => (∀ r ∈ place.registers, (s.value? r).isSome) ∧
      (wordAt? s v).isSome) fun s s' => s'.memory = s.memory ∧
        (∃ l, s'.value? r = some l ∧ wordAt? s v = some l.x) ∧
        s'.value? c₁.fresh =
          some (s.memory.read place.root (s.resolve place)) := by
    refine hvalue.andThen hload (fun s hs => hs.2) ?_ ?_
    · rintro s s' ⟨hregisters, -⟩ hkeeps - q hq
      rw [hkeeps.value?_eq (hplace q hq)]
      exact hregisters q hq
    · rintro s s' s'' - hkeeps ⟨hmemory, l, hl, hx⟩ hkeeps' ⟨hmemory', hwhole⟩
      refine ⟨hmemory'.trans hmemory, ⟨l, (hkeeps'.value?_eq hrlt).trans hl, hx⟩, ?_⟩
      rw [hwhole, hmemory, hkeeps.resolve_eq hplace]
  have hinserted : Executes b c c₃ (fun s => (∀ r ∈ place.registers, (s.value? r).isSome) ∧
      (wordAt? s index).isSome ∧ (wordAt? s v).isSome) fun s s' => s'.memory = s.memory ∧
        ∃ l, s'.value? q = some l ∧ ∀ k w, wordAt? s index = some k → wordAt? s v = some w →
          ∀ j < size.lanes, l.get j =
            if j = k.toNat then w else (s.memory.read place.root (s.resolve place)).get j := by
    refine hloaded.andThen hinsert (fun s hs => ⟨hs.1, hs.2.2⟩) ?_ ?_
    · rintro s s' ⟨-, hsindex, -⟩ hkeeps ⟨-, ⟨l, hl, -⟩, hwhole⟩
      rw [hkeeps.wordAt?_eq hindex]
      simp_all
    · rintro s s' s'' - hkeeps ⟨hmemory, ⟨l, hl, hx⟩, hwhole⟩ - ⟨hmemory', l', hl', hget⟩
      refine ⟨hmemory'.trans hmemory, l', hl', fun k w hk hw j hj => ?_⟩
      rw [hget k ((hkeeps.wordAt?_eq hindex).trans hk) j hj, RunState.lanes_of_value? hl,
        RunState.lanes_of_value? hwhole, Option.some.inj (hx.symm.trans hw)]
  refine hinserted.andThen hstore (fun s hs => hs) ?_ ?_
  · rintro s s' ⟨hregisters, -, -⟩ hkeeps ⟨-, l, hl, -⟩
    refine ⟨fun q hq => ?_, Option.isSome_of_eq_some hl⟩
    rw [hkeeps.value?_eq (hplace q hq)]
    exact hregisters q hq
  · rintro s s' s'' - hkeeps ⟨hmemory, l, hl, hget⟩ - ⟨l', hmemory', hget'⟩ k w hk hw
    rw [hmemory, hkeeps.resolve_eq hplace] at hmemory' hget'
    rw [hmemory']
    constructor
    · intro j hj
      rw [Memory.read_write_self, hget' j hj, RunState.lanes_of_value? hl]
      grind
    · exact fun v' path' hslot => Memory.read_write_of_ne hslot

theorem LoadsLane.executes (b : BlockId) {id : Id} (h : LoadsLane c i id place ty vector index)
    (hvector : c.module.types.shape? vector = some (.vector size scalar))
    (hty : c.module.types.shape? ty = some (.scalar scalar))
    (hbool : ¬(scalar.kind = .bool ∧ isUniform c place.root))
    (hindex : c.HasIndex size.lanes index) :
    ∃ c' key r d, load i (.append b) c = .ok () c' ∧ c'.ids.get id = .ok (.tree (.leaf key ty r)) ∧
      c'.function = d.function ∧
      Executes b c d (fun s => (∀ r ∈ place.registers, (s.value? r).isSome) ∧
        (wordAt? s index).isSome) fun s s' => s'.memory = s.memory ∧ ∃ l, s'.value? r = some l ∧
          ∀ k, wordAt? s index = some k → l.x = (s.memory.read place.root (s.resolve place)).get
            (if k.toNat < size.lanes then k.toNat else 0) := by
  have hn : size.lanes ≤ 4 := by cases size <;> decide
  obtain ⟨c₁, hwhole, hlanes, hload⟩ := loadRegister_executes b hvector hbool
  obtain ⟨r, c₂, hr, hextract⟩ := extractAt_executes b hn hlanes.lt (hindex.later hload)
  have hids : c₂.ids = c.ids := by
    obtain ⟨is, types, nextKey, -, rfl⟩ := hextract.inserts
    obtain ⟨is', types', nextKey', -, rfl⟩ := hload.inserts
    rfl
  obtain ⟨slot, hslot, hvalue⟩ := h.fresh
  rw [← hids] at hslot
  obtain ⟨ids, hdefine⟩ : ∃ ids, c₂.ids.define id (.tree (.leaf c₂.nextKey ty r)) = .ok ids :=
    ⟨_, IdTable.define_eq_ok.mpr ⟨slot, hslot, hvalue, rfl⟩⟩
  refine ⟨{ c₂ with ids, nextKey := c₂.nextKey + 1 }, c₂.nextKey, r, c₂, ?_,
    IdTable.get_of_define hdefine, rfl, hload.andThen hextract (fun s hs => hs.1) ?_ ?_⟩
  · rw [h.eq hvector hty]
    refine (Emit.bind_of_ok hwhole).trans ((Emit.bind_of_ok hr).trans ?_)
    exact (EStateM.bind_of_ok rfl).trans (Lower.define_eq_ok.mpr ⟨ids, hdefine, rfl⟩)
  · rintro s s' ⟨-, hsindex⟩ hkeeps ⟨-, hwhole⟩
    rw [hkeeps.wordAt?_eq hindex]
    exact ⟨Option.isSome_of_eq_some hwhole, hsindex⟩
  · rintro s s' s'' - hkeeps ⟨hmemory, hwhole⟩ - ⟨hmemory', l, hl, hx⟩
    refine ⟨hmemory'.trans hmemory, l, hl, fun k hk => ?_⟩
    rw [hx k ((hkeeps.wordAt?_eq hindex).trans hk), RunState.lanes_of_value? hwhole]

/-- The code of a store through a pointer to a lane runs to its end and writes the lane. -/
theorem StoresLane.run (hb : b < c.function.blocks.size)
    (h : StoresLane c i place ty vector index v)
    (hvector : c.module.types.shape? vector = some (.vector size scalar))
    (hplace : ∀ r ∈ place.registers, r < c.fresh)
    (hindex : c.HasIndex size.lanes index) :
    ∃ c', store i (.append b) c = .ok () c' ∧
      ∀ s k w, c'.fresh ≤ s.registers.size →
        (∀ r ∈ place.registers, (s.value? r).isSome) → wordAt? s index = some k → wordAt? s v = some w →
        ∃ s', runSince c c' b s = .ok none s' ∧
          LaneWritten s.memory s'.memory place.root (s.resolve place) size.lanes k w := by
  obtain ⟨c', hmade, hexec⟩ := h.executes b hvector hplace hindex
  refine ⟨c', hmade, fun s k w hsize hs hk hw => ?_⟩
  obtain ⟨s', hrun, hwritten, -⟩ := hexec.run hb hsize
    ⟨hs, Option.isSome_of_eq_some hk, Option.isSome_of_eq_some hw⟩
  exact ⟨s', hrun, hwritten k w hk hw⟩

/-- The code of a load through a pointer to a lane runs to its end and gives the lane. -/
theorem LoadsLane.run (hb : b < c.function.blocks.size) {id : Id}
    (h : LoadsLane c i id place ty vector index)
    (hvector : c.module.types.shape? vector = some (.vector size scalar))
    (hty : c.module.types.shape? ty = some (.scalar scalar))
    (hbool : ¬(scalar.kind = .bool ∧ isUniform c place.root))
    (hindex : c.HasIndex size.lanes index) :
    ∃ c' key r, load i (.append b) c = .ok () c' ∧ c'.ids.get id = .ok (.tree (.leaf key ty r)) ∧
      ∀ s k, c'.function.instructions.size ≤ s.registers.size →
        (∀ r ∈ place.registers, (s.value? r).isSome) → wordAt? s index = some k →
        ∃ s' l, runSince c c' b s = .ok none s' ∧ s'.memory = s.memory ∧ s'.value? r = some l ∧
          l.x = (s.memory.read place.root (s.resolve place)).get
            (if k.toNat < size.lanes then k.toNat else 0) := by
  obtain ⟨c', key, r, d, hmade, hid, hfunction, hexec⟩ := h.executes b hvector hty hbool hindex
  refine ⟨c', key, r, hmade, hid, fun s k hsize hs hk => ?_⟩
  rw [hfunction] at hsize
  obtain ⟨s', hrun, ⟨hmemory, l, hl, hx⟩, -⟩ := hexec.run hb hsize ⟨hs, Option.isSome_of_eq_some hk⟩
  refine ⟨s', l, ?_, hmemory, hl, hx k hk⟩
  rw [runSince, hfunction]
  exact hrun

/-- A pointer to a lane of a vector of `n` lanes that is kept in memory is a cell, unless the vector is
one of booleans of a uniform. A store through it overwrites the lane with the number that its index
stands for, and no other lane or slot; a load through it gives the lane and changes nothing. An index
that is known and an index in a register come to the same wherever they stand for one number. An index in
a register may be too large: then a store changes nothing, and a load gives the first lane. -/
theorem lane_pointers_are_cells (hb : b < c.function.blocks.size)
    (hplace : ∀ r ∈ place.registers, r < c.function.instructions.size)
    (hvector : c.module.types.shape? vector = some (.vector size scalar))
    (hty : c.module.types.shape? ty = some (.scalar scalar))
    (hbool : ¬(scalar.kind = .bool ∧ isUniform c place.root)) :
    (∀ i index v, StoresLane c i place ty vector index v → c.HasIndex size.lanes index →
      ∃ c', store i (.append b) c = .ok () c' ∧
        ∀ s k w, c'.function.instructions.size ≤ s.registers.size →
          (∀ r ∈ place.registers, (s.value? r).isSome) → wordAt? s index = some k → wordAt? s v = some w →
          ∃ s', runSince c c' b s = .ok none s' ∧
            LaneWritten s.memory s'.memory place.root (s.resolve place) size.lanes k w ∧
            (size.lanes ≤ k.toNat → ∀ v path, s'.memory.read v path = s.memory.read v path)) ∧
    (∀ i id index, LoadsLane c i id place ty vector index → c.HasIndex size.lanes index →
      ∃ c' key r, load i (.append b) c = .ok () c' ∧ c'.ids.get id = .ok (.tree (.leaf key ty r)) ∧
        ∀ s k, c'.function.instructions.size ≤ s.registers.size →
          (∀ r ∈ place.registers, (s.value? r).isSome) → wordAt? s index = some k →
          ∃ s' l, runSince c c' b s = .ok none s' ∧ s'.memory = s.memory ∧ s'.value? r = some l ∧
            l.x = (s.memory.read place.root (s.resolve place)).get
              (if k.toNat < size.lanes then k.toNat else 0)) ∧
    (∀ i j w q v, StoresLane c i place ty vector (.direct w) v → w.toNat < size.lanes →
      StoresLane c j place ty vector (.dynamic q) v → q < c.function.instructions.size →
      ∃ c₁ c₂, store i (.append b) c = .ok () c₁ ∧ store j (.append b) c = .ok () c₂ ∧
        ∀ s, c₁.function.instructions.size ≤ s.registers.size →
          c₂.function.instructions.size ≤ s.registers.size →
          (∀ r ∈ place.registers, (s.value? r).isSome) → wordAt? s (.dynamic q) = some w →
          (wordAt? s v).isSome →
          ∃ s₁ s₂, runSince c c₁ b s = .ok none s₁ ∧ runSince c c₂ b s = .ok none s₂ ∧
            ∀ v path, s₁.memory.read v path = s₂.memory.read v path) ∧
    ∀ i j id id' w q, LoadsLane c i id place ty vector (.direct w) → w.toNat < size.lanes →
      LoadsLane c j id' place ty vector (.dynamic q) → q < c.function.instructions.size →
      ∃ c₁ c₂ key₁ key₂ r₁ r₂, load i (.append b) c = .ok () c₁ ∧ load j (.append b) c = .ok () c₂ ∧
        c₁.ids.get id = .ok (.tree (.leaf key₁ ty r₁)) ∧
        c₂.ids.get id' = .ok (.tree (.leaf key₂ ty r₂)) ∧
        ∀ s, c₁.function.instructions.size ≤ s.registers.size →
          c₂.function.instructions.size ≤ s.registers.size →
          (∀ r ∈ place.registers, (s.value? r).isSome) → wordAt? s (.dynamic q) = some w →
          ∃ s₁ s₂ l₁ l₂, runSince c c₁ b s = .ok none s₁ ∧ runSince c c₂ b s = .ok none s₂ ∧
            s₁.value? r₁ = some l₁ ∧ s₂.value? r₂ = some l₂ ∧ l₁.x = l₂.x := by
  refine ⟨?_, fun i id index h hindex => h.run hb hvector hty hbool hindex, ?_, ?_⟩
  · intro i index v h hindex
    obtain ⟨c', hmade, hrun⟩ := h.run hb hvector hplace hindex
    refine ⟨c', hmade, fun s k w hsize hs hk hw => ?_⟩
    obtain ⟨s', hs', hwritten⟩ := hrun s k w hsize hs hk hw
    exact ⟨s', hs', hwritten, hwritten.unchanged⟩
  · intro i j w q v hi hw hj hq
    obtain ⟨c₁, hmade₁, hrun₁⟩ := hi.run hb hvector hplace hw
    obtain ⟨c₂, hmade₂, hrun₂⟩ := hj.run hb hvector hplace hq
    refine ⟨c₁, c₂, hmade₁, hmade₂, fun s hsize₁ hsize₂ hs hk hv => ?_⟩
    obtain ⟨x, hx⟩ := Option.isSome_iff_exists.mp hv
    obtain ⟨s₁, hs₁, hwritten₁⟩ := hrun₁ s w x hsize₁ hs rfl hx
    obtain ⟨s₂, hs₂, hwritten₂⟩ := hrun₂ s w x hsize₂ hs hk hx
    exact ⟨s₁, s₂, hs₁, hs₂, hwritten₁.unique hwritten₂⟩
  · intro i j id id' w q hi hw hj hq
    obtain ⟨c₁, key₁, r₁, hmade₁, hid₁, hrun₁⟩ := hi.run hb hvector hty hbool hw
    obtain ⟨c₂, key₂, r₂, hmade₂, hid₂, hrun₂⟩ := hj.run hb hvector hty hbool hq
    refine ⟨c₁, c₂, key₁, key₂, r₁, r₂, hmade₁, hmade₂, hid₁, hid₂, fun s hsize₁ hsize₂ hs hk => ?_⟩
    obtain ⟨s₁, l₁, hs₁, -, hl₁, hx₁⟩ := hrun₁ s w hsize₁ hs rfl
    grind

/-- An array of vectors, with code that has the index of a vector, the index of a lane and a number at
hand. Ids stand for a pointer to the lane with the index, a pointer to the third lane and the number; one
more id is free. -/
def laneVectors : Context where
  options := {}
  ids := ⟨#[{}, { value := some (.pointer ⟨⟨0, [.element (.dynamic 0)]⟩, 0, some ⟨.dynamic 1, 1⟩⟩) },
    { value := some (.pointer ⟨⟨0, [.element (.dynamic 0)]⟩, 0, some ⟨.direct 2, 1⟩⟩) },
    { value := some (.tree (.leaf 0 0 2)) }, {}]⟩
  module :=
    { types := ⟨#[{ shape := .scalar .f32 }, { shape := .vector .three .f32 }, { shape := .array 1 2 }]⟩
      vars := #[{ ty := 2, mode := .global }] }
  function :=
    { instructions := #[.loadConst [1], .loadConst [2], .loadConst [9]]
      blocks := #[{ instructions := [0, 1, 2] }] }

/-- The registers of `laneVectors`, with room for a store, and a vector in memory. -/
def laneRegisters : RunState where
  memory := Memory.write {} 0 [1] (.ofWords [10, 20, 30])
  registers := #[some (.ofWords [1]), some (.ofWords [2]), some (.ofWords [9])] ++
    (List.replicate 12 none).toArray

theorem lane_pointers_are_cells_laneVectors :
    ∃ c' s' d key r σ l, store ⟨.opStore, 0, [1, 3]⟩ (.append 0) laneVectors = .ok () c' ∧
      runSince laneVectors c' 0 laneRegisters = .ok none s' ∧
      (s'.memory.read 0 [1]).get 2 = 9 ∧ (s'.memory.read 0 [1]).get 1 = 20 ∧
      load ⟨.opLoad, 0, [0, 4, 2]⟩ (.append 0) laneVectors = .ok () d ∧
      d.ids.get 4 = .ok (.tree (.leaf key 0 r)) ∧
      runSince laneVectors d 0 laneRegisters = .ok none σ ∧ σ.value? r = some l ∧ l.x = 30 := by
  have hplace : ∀ r ∈ (⟨0, [.element (.dynamic 0)]⟩ : Place).registers,
      r < laneVectors.function.instructions.size := by decide
  have hvector : laneVectors.module.types.shape? 1 = some (.vector .three .f32) := rfl
  have hty : laneVectors.module.types.shape? 0 = some (.scalar .f32) := rfl
  obtain ⟨hstore, hload, -, -⟩ := lane_pointers_are_cells (b := 0) (by decide) hplace hvector hty
    (by decide)
  obtain ⟨c', hmade, hrun⟩ := hstore ⟨.opStore, 0, [1, 3]⟩ (.dynamic 1) (.dynamic 2)
    ⟨⟨1, rfl, rfl⟩, 3, rfl, .register rfl (by decide)⟩ (by decide)
  obtain ⟨d, key, r, hmade', hid, hrun'⟩ := hload ⟨.opLoad, 0, [0, 4, 2]⟩ 4 (.direct 2)
    ⟨⟨2, rfl, rfl⟩, rfl, {}, rfl, rfl⟩ (by decide)
  obtain ⟨s', hs', hwritten, -⟩ := hrun laneRegisters 2 9 (Emit.size_le_of_ok hmade (by decide +kernel))
    (by decide) (by decide) (by decide)
  obtain ⟨σ, l, hσ, -, hl, hx⟩ := hrun' laneRegisters 2 (Emit.size_le_of_ok hmade' (by decide +kernel))
    (by decide) (by decide)
  exact ⟨c', s', d, key, r, σ, l, hmade, hs', hwritten.lanes 2 (by decide), hwritten.lanes 1 (by decide),
    hmade', hid, hσ, hl, hx⟩

end

end Code

end Spirv

end ShaderIR
