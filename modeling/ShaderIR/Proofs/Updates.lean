import ShaderIR.Proofs.Executes
import ShaderIR.Proofs.Lanes
import ShaderIR.Spirv.Code.Composite

/-!
# Parts of composites

A composite value is nested down to its lanes, and an index path leads to a part of it, a lane at the
deepest. Taking parts out of a tree and replacing parts of it come to the same on the nests that the
trees stand for once the code has run, and there the laws of updates hold: a part that was put in is
found again, and every part beside it is as it was.
-/

namespace ShaderIR.Spirv

open List

/-! ### Nests -/

namespace Nest

variable {α β : Type} {v v' new : Nest α} {path other : List Word}

/-- The part at an index path. The last index may choose a lane of a vector; no index leads
further. -/
def part? : List Word → Nest α → Option (Nest α)
  | [], v => some v
  | i :: path, composite parts => parts[i.toNat]?.bind (part? path)
  | [i], vector lanes => lanes[i.toNat]?.map fun lane => vector [lane]
  | _ :: _ :: _, vector _ => none

/-- A vector with a lane replaced by a value of one lane. -/
def setLane? (lanes : List α) (i : Nat) : Nest α → Option (Nest α)
  | vector [lane] => if i < lanes.length then some (vector (lanes.set i lane)) else none
  | _ => none

/-- The value with the part at an index path replaced. -/
def replace? (new : Nest α) : List Word → Nest α → Option (Nest α)
  | [], _ => some new
  | i :: path, composite parts =>
    (parts[i.toNat]?.bind (replace? new path)).map fun part => composite (parts.set i.toNat part)
  | [i], vector lanes => setLane? lanes i.toNat new
  | _ :: _ :: _, vector _ => none

theorem setLane?_eq_some {lanes : List α} {i : Nat} (h : setLane? lanes i new = some v) :
    ∃ lane, new = vector [lane] ∧ i < lanes.length ∧ v = vector (lanes.set i lane) := by
  unfold setLane? at h
  grind

theorem part?_replace?_self (h : replace? new path v = some v') : part? path v' = some new := by
  induction path generalizing v v' with
  | nil => exact h.symm
  | cons i path ih =>
    cases v with
    | composite parts =>
      obtain ⟨part, hpart, rfl⟩ := Option.map_eq_some_iff.mp h
      obtain ⟨old, hold, hnew⟩ := Option.bind_eq_some_iff.mp hpart
      obtain ⟨hlt, -⟩ := List.getElem?_eq_some_iff.mp hold
      rw [part?, List.getElem?_set_self hlt]
      exact ih hnew
    | vector lanes =>
      cases path with
      | nil =>
        obtain ⟨lane, rfl, hlt, rfl⟩ := setLane?_eq_some h
        rw [part?, List.getElem?_set_self hlt]
        rfl
      | cons => cases h

theorem part?_replace?_of_apart (h : replace? new path v = some v') (hother : ¬other <+: path)
    (hpath : ¬path <+: other) : part? other v' = part? other v := by
  induction path generalizing v v' other with
  | nil => exact absurd List.nil_prefix hpath
  | cons i path ih =>
    cases other with
    | nil => exact absurd List.nil_prefix hother
    | cons j other =>
      rw [List.cons_prefix_cons, not_and] at hother hpath
      have hne (hij : j ≠ i) : i.toNat ≠ j.toNat := fun heq => hij (UInt32.toNat_inj.mp heq).symm
      cases v with
      | composite parts =>
        obtain ⟨part, hpart, rfl⟩ := Option.map_eq_some_iff.mp h
        obtain ⟨old, hold, hnew⟩ := Option.bind_eq_some_iff.mp hpart
        by_cases hij : j = i
        · subst hij
          obtain ⟨hlt, -⟩ := List.getElem?_eq_some_iff.mp hold
          rw [part?, part?, List.getElem?_set_self hlt, hold]
          exact ih hnew (hother rfl) (hpath rfl)
        · rw [part?, part?, List.getElem?_set_ne (hne hij)]
      | vector lanes =>
        cases path with
        | cons => cases h
        | nil =>
          obtain ⟨lane, -, -, rfl⟩ := setLane?_eq_some h
          have hij : j ≠ i := fun hij => hpath hij.symm List.nil_prefix
          cases other with
          | cons => rfl
          | nil => rw [part?, part?, List.getElem?_set_ne (hne hij)]

end Nest

/-! ### Trees as nests -/

namespace Tree

variable {α β : Type} {t object : Tree} {path : List Word}

mutual

/-- A tree with all trees that it is made of. -/
def subtrees : Tree → List Tree
  | leaf key ty r => [leaf key ty r]
  | node key ty children => node key ty children :: subtreesOfList children

def subtreesOfList : List Tree → List Tree
  | [] => []
  | t :: ts => t.subtrees ++ subtreesOfList ts

end

/-- The tree at an index path. -/
def at? : List Word → Tree → Option Tree
  | [], t => some t
  | i :: path, node _ _ children => children[i.toNat]?.bind (at? path)
  | _ :: _, leaf .. => none

theorem leavesOfList_eq_flatMap (ts : List Tree) : leavesOfList ts = ts.flatMap leaves := by
  induction ts with
  | nil => rfl
  | cons t ts ih => rw [leavesOfList, ih, flatMap_cons]

theorem subtreesOfList_eq_flatMap (ts : List Tree) : subtreesOfList ts = ts.flatMap subtrees := by
  induction ts with
  | nil => rfl
  | cons t ts ih => rw [subtreesOfList, ih, flatMap_cons]

theorem mem_leaves_node {key : Nat} {ty : TypeId} {children : List Tree} {r : Register} :
    r ∈ (node key ty children).leaves ↔ ∃ t ∈ children, r ∈ t.leaves := by
  rw [leaves, leavesOfList_eq_flatMap, mem_flatMap]

mutual

theorem nest_congr {lanes lanes' : Register → List α} :
    ∀ {t : Tree}, (∀ r ∈ t.leaves, lanes r = lanes' r) → t.nest lanes = t.nest lanes'
  | leaf _ _ r, h => congrArg Nest.vector (h r (mem_singleton_self r))
  | node _ _ _, h => congrArg Nest.composite (nestOfList_congr h)

theorem nestOfList_congr {lanes lanes' : Register → List α} :
    ∀ {ts : List Tree}, (∀ r ∈ leavesOfList ts, lanes r = lanes' r) →
      nestOfList lanes ts = nestOfList lanes' ts
  | [], _ => rfl
  | _ :: _, h => congrArg₂ List.cons (nest_congr fun r hr => h r (mem_append_left _ hr))
      (nestOfList_congr fun r hr => h r (mem_append_right _ hr))

end

end Tree

section Widths

variable {α : Type} {v v' : Nest α} {n : Nat}

theorem Nest.mem_widths_composite {parts : List (Nest α)} :
    n ∈ (composite parts).widths ↔ ∃ v ∈ parts, n ∈ v.widths := by
  rw [widths]
  induction parts with
  | nil => simp [widthsOfList]
  | cons v vs ih => simp [widthsOfList, ih]

theorem Nest.widths_part? {path : List Word} (h : v.part? path = some v')
    (hv : ∀ k ∈ v.widths, k ≤ 4) : ∀ k ∈ v'.widths, k ≤ 4 := by
  induction path generalizing v with
  | nil =>
    obtain rfl := Option.some.inj (show some v = some v' by cases v <;> exact h)
    exact hv
  | cons i path ih =>
    cases v with
    | composite parts =>
      obtain ⟨part, hpart, hrest⟩ := Option.bind_eq_some_iff.mp h
      refine ih hrest fun k hk => hv k ?_
      exact mem_widths_composite.mpr ⟨part, mem_of_getElem? hpart, hk⟩
    | vector lanes =>
      cases path with
      | cons => cases h
      | nil =>
        obtain ⟨lane, -, rfl⟩ := Option.map_eq_some_iff.mp h
        simp [widths]

end Widths

/-! ### Lanes of registers -/

/-- The lanes that a register holds. -/
def lanesOf (c : Context) (s : RunState) (r : Register) : List Word :=
  (List.range (laneCount c r)).map (s.lanes r).get

namespace Tree

/-- What a tree stands for in a state of a run. -/
def contents (c : Context) (s : RunState) (t : Tree) : Nest Word := t.nest (lanesOf c s)

section

variable (c : Context) (s : RunState) (key : Nat) (ty : TypeId) (r : Register) (children : List Tree)

theorem contents_leaf : (leaf key ty r).contents c s = .vector (lanesOf c s r) := rfl

theorem contents_node : (node key ty children).contents c s = .composite (children.map (contents c s)) :=
  congrArg Nest.composite (nestOfList_eq_map _ children)

end

/-- The registers of a tree are registers of the function under construction, of four lanes at
most. -/
def Usable (c : Context) (t : Tree) : Prop :=
  ∀ r ∈ t.leaves, r < c.function.instructions.size ∧ laneCount c r ≤ 4

/-- The registers of a tree are defined. -/
def Defined (t : Tree) (s : RunState) : Prop := ∀ r ∈ t.leaves, (s.value? r).isSome

instance (c : Context) (t : Tree) : Decidable (t.Usable c) :=
  inferInstanceAs (Decidable (∀ r ∈ t.leaves, _))

instance (t : Tree) (s : RunState) : Decidable (t.Defined s) :=
  inferInstanceAs (Decidable (∀ r ∈ t.leaves, _))

section

variable {c : Context} {s : RunState} {key : Nat} {ty : TypeId} {children : List Tree}

theorem usable_node : (node key ty children).Usable c ↔ ∀ t ∈ children, t.Usable c := by
  simp only [Usable, mem_leaves_node]
  grind

theorem defined_node : (node key ty children).Defined s ↔ ∀ t ∈ children, t.Defined s := by
  simp only [Defined, mem_leaves_node]
  exact ⟨fun h t ht r hr => h r ⟨t, ht, hr⟩, fun h r ⟨t, ht, hr⟩ => h t ht r hr⟩

end

end Tree

section

variable {b : BlockId} {is : List Instruction} {c c' : Context} {s s' : RunState} {r : Nat}

theorem HasLanes.getElem?_lanesOf {n k : Nat} (h : HasLanes c r n) (hk : k < n) :
    (lanesOf c s r)[k]? = some ((s.lanes r).get k) := by
  simp [lanesOf, h.laneCount_eq, hk]

theorem HasLanes.lanesOf_one (h : HasLanes c r 1) : lanesOf c s r = [(s.lanes r).x] := by
  rw [lanesOf, h.laneCount_eq]
  rfl

theorem hasLanes_of_lt (h : r < c.fresh) : HasLanes c r (laneCount c r) :=
  ⟨_, Array.getElem?_eq_getElem h, by rw [laneCount, Array.getElem?_eq_getElem h]; rfl⟩

section Later

variable {pre : RunState → Prop} {Q : RunState → RunState → Prop} {t : Tree}

namespace Tree

theorem usable_iff : t.Usable c ↔ ∀ r ∈ t.leaves, ∃ n ≤ 4, HasLanes c r n := by
  constructor
  · intro h r hr
    exact ⟨_, (h r hr).2, hasLanes_of_lt (h r hr).1⟩
  · intro h r hr
    obtain ⟨n, hn, hlanes⟩ := h r hr
    exact ⟨hlanes.lt, by rwa [hlanes.laneCount_eq]⟩

theorem usable_leaf {key : Nat} {ty : TypeId} : (leaf key ty r).Usable c ↔ ∃ n ≤ 4, HasLanes c r n := by
  simp [usable_iff, leaves]

theorem defined_leaf {key : Nat} {ty : TypeId} : (leaf key ty r).Defined s ↔ (s.value? r).isSome := by
  simp [Defined, leaves]

theorem Usable.later (h : t.Usable c) (he : Executes b c c' pre Q) : t.Usable c' := by
  refine usable_iff.mpr fun r hr => ?_
  obtain ⟨n, hn, hlanes⟩ := usable_iff.mp h r hr
  exact ⟨n, hn, hlanes.later he⟩

theorem Defined.later (h : t.Defined s) (ht : t.Usable c) (hkeeps : Keeps c s s') : t.Defined s' := by
  intro r hr
  rw [hkeeps.value?_eq (ht r hr).1]
  exact h r hr

theorem form_later (ht : t.Usable c) (he : Executes b c c' pre Q) : t.form c' = t.form c := by
  apply nest_congr
  intro r hr
  obtain ⟨n, -, hlanes⟩ := usable_iff.mp ht r hr
  rw [hlanes.laneCount_eq, (hlanes.later he).laneCount_eq]

theorem contents_later (ht : t.Usable c) (he : Executes b c c' pre Q) (hkeeps : Keeps c s s') :
    t.contents c' s' = t.contents c s := by
  apply nest_congr
  intro r hr
  obtain ⟨n, -, hlanes⟩ := usable_iff.mp ht r hr
  rw [lanesOf, lanesOf, hlanes.laneCount_eq, (hlanes.later he).laneCount_eq, hkeeps.lanes_eq hlanes.lt]

end Tree

end Later

/-! ### Lanes that are moved -/

theorem toNat_toUInt8_and_three {w : Word} (h : w.toNat < 4) : (w.toUInt8 &&& 3).toNat = w.toNat := by
  have hmask : (3 : UInt8).toNat = 2 ^ 2 - 1 := rfl
  rw [UInt8.toNat_and, UInt32.toNat_toUInt8, hmask, Nat.and_two_pow_sub_one_eq_mod]
  omega

theorem x_result_lane {w : Word} (hw : w.toNat < 4) :
    (s.result .imov [.lane r w.toUInt8] 1).x = (s.lanes r).get w.toNat := by
  change (Source.select (.lane r w.toUInt8) (s.lanes r)).get 0 = _
  rw [Source.get_select_lane, toNat_toUInt8_and_three hw]

theorem get_result_lanes {lanes : List (Register × Word)} {k : Nat} {w : Word}
    (hlanes : lanes.length ≤ 4) (hk : lanes[k]? = some (r, w)) (hw : w.toNat < 4) :
    (s.result (.ofLanes lanes.length) (lanes.map fun (r, w) => .lane r w.toUInt8) lanes.length).get k =
      (s.lanes r).get w.toNat := by
  obtain ⟨hlt, hget⟩ := List.getElem?_eq_some_iff.mp hk
  rw [← toNat_toUInt8_and_three hw]
  match lanes, hlanes with
  | [], _ => cases hk
  | [_], _ | [_, _], _ | [_, _, _], _ | [_, _, _, _], _ =>
    simp only [List.length_cons, List.length_nil] at hlt
    interval_cases k <;> cases hget <;> rfl
  | _ :: _ :: _ :: _ :: _ :: _, h =>
    simp only [List.length_cons] at h
    omega

end

namespace Code

variable {b : BlockId} {c : Context} {s : RunState}

/-- What is gathered for a vector with a lane replaced. -/
def lanesWith (vector : Register) (n : Nat) (value : Register) (i : Nat) : List (Register × Word) :=
  (List.range n).map fun lane => if lane = i then (value, 0) else (vector, lane.toUInt32)

theorem getElem?_lanesWith (vector value : Register) (i : Nat) {n k : Nat} (hk : k < n) :
    (lanesWith vector n value i)[k]? = some (if k = i then (value, 0) else (vector, k.toUInt32)) := by
  simp [lanesWith, hk]

theorem toNat_toUInt32_of_lt {k : Nat} (h : k < 4) : k.toUInt32.toNat = k := by
  rw [Nat.toUInt32_eq, UInt32.toNat_ofNat_of_lt' (Nat.lt_of_lt_of_le h (by decide))]

theorem get_result_lanesWith {vector value : Register} {n i k : Nat} (hn : n ≤ 4) (hk : k < n) :
    (s.result (.ofLanes n) ((lanesWith vector n value i).map fun (r, w) => .lane r w.toUInt8) n).get k =
      if k = i then (s.lanes value).x else (s.lanes vector).get k := by
  have hlength : (lanesWith vector n value i).length = n := by simp [lanesWith]
  have hlane := getElem?_lanesWith vector value i hk
  have hnat := toNat_toUInt32_of_lt (Nat.lt_of_lt_of_le hk hn)
  split at hlane
  · next hki =>
    have hget := get_result_lanes (s := s) (by rwa [hlength]) hlane (by decide)
    rw [hlength] at hget
    rw [hget, if_pos hki]
    rfl
  · next hki =>
    have hget := get_result_lanes (s := s) (by rwa [hlength]) hlane (by omega)
    rw [hlength, hnat] at hget
    rw [hget, if_neg hki]

/-! ### Parts that are taken out -/

section

variable {ty : TypeId} {path : List Word} {t object : Tree}

/-- One lane is copied into a register of its own. -/
theorem lane_executes (b : BlockId) (c : Context) {r : Register} {w : Word} (hw : w.toNat < 4) :
    ∃ c', Emit.lane r w (.append b) c = .ok c.fresh c' ∧
      HasLanes c' c.fresh 1 ∧ c'.nextKey = c.nextKey ∧
      Executes b c c' (fun s => (s.value? r).isSome) fun s s' => s'.memory = s.memory ∧
        ∃ l, s'.value? c.fresh = some l ∧ l.x = (s.lanes r).get w.toNat := by
  obtain ⟨c', hmade, hlanes, hkey, hexec⟩ :=
    Emit.aluWith_executes b c .imov [.lane r w.toUInt8] 1
  refine ⟨c', hmade, hlanes, hkey, hexec.mono (fun s hs => by simpa [Source.lane] using hs) ?_⟩
  rintro s s' - - ⟨hmemory, hvalue⟩
  exact ⟨hmemory, _, hvalue, x_result_lane hw⟩

theorem extract_eq (b : BlockId) (ty : TypeId) (ht : t.Usable c) (hpart : ((t.form c).part? path).isSome) :
    ∃ u c', extract ty path t (.append b) c = .ok u c' ∧ u.Usable c' ∧
      Executes b c c' t.Defined fun s s' =>
        u.Defined s' ∧ (t.contents c s).part? path = some (u.contents c' s') := by
  induction path generalizing t with
  | nil =>
    refine ⟨t, c, ?_, ht, .refl b c fun s hs => ⟨hs, ?_⟩⟩
    · cases t <;> rfl
    · cases t <;> rfl
  | cons i path ih =>
    cases t with
    | node key ty' children =>
      rw [Tree.form_node, Nest.part?, getElem?_map] at hpart
      cases hchild : children[i.toNat]? with
      | none => simp [hchild] at hpart
      | some child =>
        have hmem := mem_of_getElem? hchild
        obtain ⟨u, c', hu, husable, hexec⟩ := ih (Tree.usable_node.mp ht child hmem)
          (by simpa [hchild] using hpart)
        refine ⟨u, c', ?_, husable, hexec.mono (fun s hs => Tree.defined_node.mp hs child hmem) ?_⟩
        · simp only [extract, hchild]
          exact hu
        · rintro s s' - - ⟨hdefined, hcontents⟩
          refine ⟨hdefined, ?_⟩
          rw [Tree.contents_node, Nest.part?, getElem?_map, hchild]
          exact hcontents
    | leaf key ty' r =>
      cases path with
      | cons => cases hpart
      | nil =>
        obtain ⟨n, hn, hlanes⟩ := Tree.usable_leaf.mp ht
        have hlt : i.toNat < n := by
          simpa [Tree.form_leaf, Nest.part?, hlanes.laneCount_eq] using hpart
        obtain ⟨c₁, hlane, hone, hkey, hexec⟩ := lane_executes b c (r := r) (w := i) (by omega)
        have hfits : ¬n ≤ i.toNat := Nat.not_le.mpr hlt
        refine ⟨.leaf c₁.nextKey ty c.fresh,
          { c₁ with nextKey := c₁.nextKey + 1 }, ?_, ?_, ?_⟩
        · rw [extract]
          refine (Emit.lift_of_ok hlanes.registerLanes).trans ?_
          simp only [hfits, if_false]
          exact (Emit.bind_of_ok hlane).trans rfl
        · exact Tree.usable_leaf.mpr ⟨1, by decide, hone⟩
        · refine (hexec.withKey _).mono (fun s hs => Tree.defined_leaf.mp hs) ?_
          rintro s s' - - ⟨-, l, hl, hx⟩
          refine ⟨Tree.defined_leaf.mpr (Option.isSome_of_eq_some hl), ?_⟩
          rw [Tree.contents_leaf, Nest.part?, hlanes.getElem?_lanesOf hlt]
          change _ = some (Nest.vector (lanesOf c₁ s' c.fresh))
          rw [hone.lanesOf_one, RunState.lanes_of_value? hl, hx]
          rfl

/-! ### Parts that are replaced -/

/-- A vector with a lane replaced is gathered into a register of its own. -/
theorem insertLane_executes (b : BlockId) (c : Context) (r value : Register) {n : Nat} (hn : n ≤ 4)
    (w : Word) :
    ∃ c', insertLane r n value w (.append b) c = .ok c.fresh c' ∧
      HasLanes c' c.fresh n ∧ c'.nextKey = c.nextKey ∧
      Executes b c c' (fun s => (s.value? r).isSome ∧ (s.value? value).isSome) fun s s' =>
        s'.memory = s.memory ∧ ∃ l, s'.value? c.fresh = some l ∧
          ∀ k < n, l.get k = if k = w.toNat then (s.lanes value).x else (s.lanes r).get k := by
  have hlength : (lanesWith r n value w.toNat).length = n := by simp [lanesWith]
  obtain ⟨c', hmade, hlanes, hkey, hexec⟩ := Emit.aluWith_executes b c (.ofLanes n)
    ((lanesWith r n value w.toNat).map fun (r, w) => .lane r w.toUInt8) n
  refine ⟨c', ?_, hlanes, hkey, hexec.mono ?_ ?_⟩
  · change Emit.gather (lanesWith r n value w.toNat) (.append b) c = _
    rw [Emit.gather, hlength]
    exact hmade
  · rintro s ⟨hr, hvalue⟩ source hsource
    obtain ⟨⟨q, j⟩, hq, rfl⟩ := mem_map.mp hsource
    obtain ⟨k, -, hk⟩ := mem_map.mp hq
    split at hk <;> cases hk
    · exact hvalue
    · exact hr
  · rintro s s' - - ⟨hmemory, hvalue⟩
    exact ⟨hmemory, _, hvalue, fun k hk => get_result_lanesWith hn hk⟩

/-- Between two states of lowering, the part of a tree at an index path was replaced. -/
structure Replaced (b : BlockId) (object : Tree) (path : List Word) (t : Tree) (c : Context) (t' : Tree)
    (c' : Context) : Prop where
  usable : t'.Usable c'
  form : t'.form c' = t.form c
  /-- Types change in the part that was replaced only. -/
  types : ∀ p, ¬path <+: p → (t'.at? p).map Tree.ty = (t.at? p).map Tree.ty
  nextKey : c.nextKey ≤ c'.nextKey
  /-- Trees that were there are taken over as they are; all others are new. -/
  subtrees : ∀ u ∈ t'.subtrees, u ∈ t.subtrees ∨ u ∈ object.subtrees ∨ c.nextKey ≤ u.key
  executes : Executes b c c' (fun s => t.Defined s ∧ object.Defined s) fun s s' =>
    t'.Defined s' ∧
      Nest.replace? (object.contents c s) path (t.contents c s) = some (t'.contents c' s')

/-- A part of a child is replaced, and the child is replaced by what results. -/
theorem Replaced.node {key : Nat} {children : List Tree} {i : Word} {child new : Tree} {c₁ : Context}
    (ht : (Tree.node key ty children).Usable c) (hchild : children[i.toNat]? = some child)
    (h : Replaced b object path child c new c₁) :
    Replaced b object (i :: path) (.node key ty children) c
      (.node c₁.nextKey ty (children.set i.toNat new)) { c₁ with nextKey := c₁.nextKey + 1 } := by
  have hchildren := Tree.usable_node.mp ht
  have hmem := List.mem_of_getElem? hchild
  obtain ⟨hlt, hget⟩ := List.getElem?_eq_some_iff.mp hchild
  have hset {t : Tree} (h : t ∈ children.set i.toNat new) : t ∈ children ∨ t = new :=
    List.mem_or_eq_of_mem_set h
  constructor
  case usable =>
    refine Tree.usable_node.mpr fun t ht => ?_
    rcases hset ht with ht | rfl
    · exact (hchildren t ht).later (h.executes.withKey _)
    · exact h.usable
  case form =>
    have hold : children.map (Tree.form c₁) = children.map (Tree.form c) :=
      List.map_congr_left fun t ht => Tree.form_later (hchildren t ht) h.executes
    rw [Tree.form_node, Tree.form_node]
    change Nest.composite ((children.set i.toNat new).map (Tree.form c₁)) = _
    rw [List.map_set, hold, h.form, ← List.map_set, ← hget, List.set_getElem_self]
  case types =>
    intro p hp
    cases p with
    | nil => rfl
    | cons j p =>
      rw [Tree.at?, Tree.at?]
      by_cases hij : i = j
      · subst hij
        rw [List.cons_prefix_cons, not_and] at hp
        rw [List.getElem?_set_self hlt, hchild]
        exact h.types p (hp rfl)
      · rw [List.getElem?_set_ne fun heq => hij (UInt32.toNat_inj.mp heq)]
  case nextKey => exact Nat.le_succ_of_le h.nextKey
  case subtrees =>
    intro u hu
    rw [Tree.subtrees, Tree.subtreesOfList_eq_flatMap, List.mem_cons, List.mem_flatMap] at hu
    rcases hu with rfl | ⟨t, ht, hu⟩
    · exact .inr (.inr h.nextKey)
    have hinside {t : Tree} (ht : t ∈ children) (hu : u ∈ t.subtrees) :
        u ∈ (Tree.node key ty children).subtrees := by
      rw [Tree.subtrees, Tree.subtreesOfList_eq_flatMap]
      grind
    rcases hset ht with ht | rfl
    · exact .inl (hinside ht hu)
    · exact (h.subtrees u hu).imp_left (hinside hmem)
  case executes =>
    refine (h.executes.withKey _).mono (fun s hs => ⟨Tree.defined_node.mp hs.1 child hmem, hs.2⟩) ?_
    rintro s s' ⟨hdefined, -⟩ hkeeps ⟨hnew, hcontents⟩
    refine ⟨Tree.defined_node.mpr fun t ht => ?_, ?_⟩
    · rcases hset ht with ht | rfl
      · exact (Tree.defined_node.mp hdefined t ht).later (hchildren t ht) hkeeps
      · exact hnew
    · have hold : children.map (Tree.contents c₁ s') = children.map (Tree.contents c s) :=
        List.map_congr_left fun t ht => Tree.contents_later (hchildren t ht) h.executes hkeeps
      rw [Tree.contents_node, Tree.contents_node, Nest.replace?, List.getElem?_map, hchild]
      change (Nest.replace? _ path (child.contents c s)).map _ =
        some (Nest.composite ((children.set i.toNat new).map (Tree.contents c₁ s')))
      rw [hcontents, List.map_set, hold]
      rfl

/-- A lane of a vector is replaced. -/
theorem exists_replaced_lane (b : BlockId) {key : Nat} {r : Register} {i : Word}
    (ht : (Tree.leaf key ty r).Usable c)
    (hobject : object.Usable c)
    (hpart : ((Tree.leaf key ty r).form c).part? [i] = some (object.form c)) :
    ∃ t' c', insert object [i] (.leaf key ty r) (.append b) c = .ok t' c' ∧
      Replaced b object [i] (.leaf key ty r) c t' c' := by
  obtain ⟨n, hn, hlanes⟩ := Tree.usable_leaf.mp ht
  rw [Tree.form_leaf, Nest.part?, hlanes.laneCount_eq] at hpart
  obtain ⟨_, hlane, hform⟩ := Option.map_eq_some_iff.mp hpart
  have hlt : i.toNat < n := by
    grind
  cases object with
  | node => cases hform
  | leaf objectKey objectTy value =>
    have hone : HasLanes c value 1 := by
      have hvalue := hasLanes_of_lt (hobject value (List.mem_singleton_self value)).1
      have hcount : List.replicate (laneCount c value) () = [()] := (Nest.vector.inj hform).symm
      rwa [show laneCount c value = 1 by simpa using congrArg List.length hcount] at hvalue
    obtain ⟨c₁, hmade, hnew, hkey, hexec⟩ := insertLane_executes b c r value hn i
    refine ⟨.leaf c₁.nextKey ty c.fresh,
      { c₁ with nextKey := c₁.nextKey + 1 }, ?_, ?_⟩
    · have hfits : ¬n ≤ i.toNat := Nat.not_le.mpr hlt
      rw [insert]
      refine (Emit.lift_of_ok hlanes.registerLanes).trans ?_
      simp only [List.isEmpty_nil, not_true, decide_false, hfits, Bool.or_self, Bool.false_eq_true,
        if_false]
      have hvalue : Lower.register (.leaf objectKey objectTy value) c = .ok value c := rfl
      exact (Emit.lift_of_ok hvalue).trans ((Emit.bind_of_ok hmade).trans rfl)
    constructor
    case usable => exact Tree.usable_leaf.mpr ⟨n, hn, hnew⟩
    case form =>
      rw [Tree.form_leaf, Tree.form_leaf, hlanes.laneCount_eq]
      change Nest.vector (List.replicate (laneCount c₁ _) ()) = _
      rw [hnew.laneCount_eq]
    case types =>
      intro p _
      cases p <;> rfl
    case nextKey =>
      change c.nextKey ≤ c₁.nextKey + 1
      omega
    case subtrees =>
      intro u hu
      obtain rfl := List.mem_singleton.mp hu
      exact .inr (.inr (Nat.le_of_eq hkey.symm))
    case executes =>
      refine (hexec.withKey _).mono
        (fun s hs => ⟨Tree.defined_leaf.mp hs.1, Tree.defined_leaf.mp hs.2⟩) ?_
      rintro s s' - - ⟨-, l, hl, hget⟩
      refine ⟨Tree.defined_leaf.mpr (Option.isSome_of_eq_some hl), ?_⟩
      rw [Tree.contents_leaf, Tree.contents_leaf, hone.lanesOf_one]
      change Nest.setLane? (lanesOf c s r) i.toNat (.vector [(s.lanes value).x]) =
        some (Nest.vector (lanesOf c₁ s' c.fresh))
      have hset : lanesOf c₁ s' c.fresh =
          (lanesOf c s r).set i.toNat (s.lanes value).x := by
        rw [lanesOf, lanesOf, hnew.laneCount_eq, hlanes.laneCount_eq, RunState.lanes_of_value? hl]
        refine List.ext_getElem (by simp) fun k hk _ => ?_
        grind
      rw [hset, Nest.setLane?, if_pos]
      simpa [lanesOf, hlanes.laneCount_eq] using hlt

theorem insert_eq (b : BlockId) (ht : t.Usable c) (hobject : object.Usable c)
    (hpart : (t.form c).part? path = some (object.form c)) :
    ∃ t' c', insert object path t (.append b) c = .ok t' c' ∧
      Replaced b object path t c t' c' := by
  induction path generalizing t with
  | nil =>
    refine ⟨object, c, ?_, hobject, ?_, ?_, Nat.le_refl _, fun u hu => .inr (.inl hu),
      .refl b c fun s hs => ⟨hs.2, ?_⟩⟩
    · cases t <;> rfl
    · exact (Option.some.inj hpart).symm
    · exact fun p hp => absurd nil_prefix hp
    · cases t <;> rfl
  | cons i path ih =>
    cases t with
    | node key ty children =>
      rw [Tree.form_node, Nest.part?, getElem?_map] at hpart
      cases hchild : children[i.toNat]? with
      | none => simp [hchild] at hpart
      | some child =>
        obtain ⟨new, c₁, hnew, h⟩ := ih
          (Tree.usable_node.mp ht child (mem_of_getElem? hchild)) (by simpa [hchild] using hpart)
        refine ⟨_, _, ?_, h.node ht hchild⟩
        simp only [insert, hchild]
        exact (Emit.bind_of_ok hnew).trans rfl
    | leaf key ty r =>
      cases path with
      | cons => cases hpart
      | nil => exact exists_replaced_lane b ht hobject hpart

/-! ### Paths that lead nowhere -/

/-- Errors of an index path. -/
def IsPathError (path : List Word) (e : Error) : Prop :=
  ∃ i ∈ path, e = .meaningless (.compositeIndex i) ∨ e = .meaningless (.laneIndex i)

theorem IsPathError.cons {i : Word} {e : Error} (h : IsPathError path e) : IsPathError (i :: path) e := by
  obtain ⟨j, hj, he⟩ := h
  exact ⟨j, mem_cons_of_mem i hj, he⟩

theorem errors_of_none (b : BlockId) (ty : TypeId) (object : Tree) (ht : t.Usable c)
    (hpart : (t.form c).part? path = none) :
    ∃ e, IsPathError path e ∧ extract ty path t (.append b) c = .error e c ∧
      insert object path t (.append b) c = .error e c := by
  induction path generalizing t with
  | nil => cases t <;> cases hpart
  | cons i path ih =>
    cases t with
    | node key ty' children =>
      rw [Tree.form_node, Nest.part?, getElem?_map] at hpart
      simp only [extract, insert]
      cases hchild : children[i.toNat]? with
      | none => exact ⟨_, ⟨i, mem_cons_self, .inl rfl⟩, rfl, rfl⟩
      | some child =>
        obtain ⟨e, he, hextract, hinsert⟩ := ih (Tree.usable_node.mp ht child (mem_of_getElem? hchild))
          (by simpa [hchild] using hpart)
        exact ⟨e, he.cons, hextract, EStateM.bind_of_error hinsert⟩
    | leaf key ty' r =>
      obtain ⟨n, -, hlanes⟩ := Tree.usable_leaf.mp ht
      refine ⟨_, ⟨i, mem_cons_self, .inr rfl⟩, ?_⟩
      rw [insert]
      cases path with
      | cons => exact ⟨rfl, (Emit.lift_of_ok hlanes.registerLanes).trans rfl⟩
      | nil =>
        have hle : n ≤ i.toNat := by
          simpa [Tree.form_leaf, Nest.part?, hlanes.laneCount_eq] using hpart
        rw [extract]
        constructor
        · refine (Emit.lift_of_ok hlanes.registerLanes).trans ?_
          simp only [hle, if_true]
          rfl
        · refine (Emit.lift_of_ok hlanes.registerLanes).trans ?_
          simp only [hle, decide_true, Bool.or_true, if_true]
          rfl

/-! ### The laws of updates -/

theorem usable_of_part? (ht : t.Usable c)
    (hobject : ∀ r ∈ object.leaves, r < c.fresh)
    (hpart : (t.form c).part? path = some (object.form c)) : object.Usable c := by
  have hwidths {t : Tree} {k : Nat} : k ∈ (t.form c).widths ↔ ∃ r ∈ t.leaves, laneCount c r = k := by
    simp [Tree.form, Tree.widths_nest]
  have hle := Nest.widths_part? hpart fun k hk => by
    obtain ⟨r, hr, rfl⟩ := hwidths.mp hk
    exact (ht r hr).2
  exact fun r hr => ⟨hobject r hr, hle _ (hwidths.mpr ⟨r, hr, rfl⟩)⟩

namespace Replaced

variable {t' : Tree} {c' : Context} {other : List Word}

/-- The part that was put in is taken out again. -/
theorem extract_self (h : Replaced b object path t c t' c') (ht : t.Usable c)
    (hpart : ((t.form c).part? path).isSome) (hb : b < c.function.blocks.size) (ty : TypeId) :
    ∃ u c'', extract ty path t' (.append b) c' = .ok u c'' ∧
      ∀ s, c''.fresh ≤ s.registers.size → t.Defined s → object.Defined s →
        ∃ s', runSince c c'' b s = .ok none s' ∧ u.Defined s' ∧
          u.contents c'' s' = object.contents c s ∧ t.contents c'' s' = t.contents c s := by
  obtain ⟨u, c'', hu, -, hextract⟩ := extract_eq b ty h.usable (by rwa [h.form])
  refine ⟨u, c'', hu, fun s hsize hts hos => ?_⟩
  have hall := h.executes.trans hextract fun s s' _ _ hs => hs.1
  obtain ⟨s'', hrun, ⟨s', ⟨-, hreplace⟩, ⟨hdefined, htaken⟩, -, -⟩, hkeeps⟩ := hall.run hb hsize ⟨hts, hos⟩
  refine ⟨s'', hrun, hdefined, ?_, Tree.contents_later ht hall hkeeps⟩
  rw [Nest.part?_replace?_self hreplace] at htaken
  exact (Option.some.inj htaken).symm

/-- What is taken out beside the part is the same as before. -/
theorem extract_apart (h : Replaced b object path t c t' c') (ht : t.Usable c)
    (hb : b < c.function.blocks.size) (hother : ¬other <+: path) (hpath : ¬path <+: other)
    {v : Tree} {d : Context} (hold : extract ty other t (.append b) c = .ok v d) :
    ∃ u c'', extract ty other t' (.append b) c' = .ok u c'' ∧
      ∀ s, c''.fresh ≤ s.registers.size →
        d.fresh ≤ s.registers.size → t.Defined s → object.Defined s →
        ∃ s' s'', runSince c c'' b s = .ok none s' ∧ runSince c d b s = .ok none s'' ∧
          u.Defined s' ∧ v.Defined s'' ∧ u.contents c'' s' = v.contents d s'' := by
  have hpart : ((t.form c).part? other).isSome := by
    rw [Option.isSome_iff_ne_none]
    intro hnone
    obtain ⟨e, -, herror, -⟩ := errors_of_none b ty object ht hnone
    rw [hold] at herror
    cases herror
  obtain ⟨v₁, d₁, hv, -, hbefore⟩ := extract_eq b ty ht hpart
  obtain ⟨rfl, rfl⟩ := EStateM.Result.ok.inj (hold.symm.trans hv)
  obtain ⟨u, c'', hu, -, hafter⟩ := extract_eq b ty h.usable (by rwa [h.form])
  refine ⟨u, c'', hu, fun s hsize hroom hts hos => ?_⟩
  have hall := h.executes.trans hafter fun s s' _ _ hs => hs.1
  obtain ⟨s', hrun, ⟨s₁, ⟨-, hreplace⟩, ⟨hdefined, htaken⟩, -, -⟩, -⟩ := hall.run hb hsize ⟨hts, hos⟩
  obtain ⟨s'', hrun', ⟨hdefined', htaken'⟩, -⟩ := hbefore.run hb hroom hts
  refine ⟨s', s'', hrun, hrun', hdefined, hdefined', ?_⟩
  rw [Nest.part?_replace?_of_apart hreplace hother hpath] at htaken
  exact Option.some.inj (htaken.symm.trans htaken')

end Replaced

/-- Replacing a part of a composite obeys the laws of updates. It fails exactly on the index paths that
lead to no part. Where it succeeds, the composite has the form it had, and types change in the replaced
part only; beyond code at the end of the block nothing is touched, and the trees that were there are
taken over as they are. Taking the part out again and running the code gives what was put in, and
every part beside it comes out as it comes out of the composite from before. -/
theorem insert_update_laws (object : Tree) (path : List Word) (hb : b < c.function.blocks.size) (ht : t.Usable c)
    (hobject : ∀ r ∈ object.leaves, r < c.function.instructions.size)
    (hform : ∀ f, (t.form c).part? path = some f → object.form c = f) :
    ((∃ e c', insert object path t (.append b) c = .error e c') ↔ (t.form c).part? path = none) ∧
    (∀ e c', insert object path t (.append b) c = .error e c' → IsPathError path e ∧ c' = c) ∧
    ∀ t' c', insert object path t (.append b) c = .ok t' c' →
      t'.form c' = t.form c ∧
      (∀ p, ¬path <+: p → (t'.at? p).map Tree.ty = (t.at? p).map Tree.ty) ∧
      (∃ is, Inserts (.append b) is c c') ∧
      (∀ u ∈ t'.subtrees, u ∈ t.subtrees ∨ u ∈ object.subtrees ∨ c.nextKey ≤ u.key) ∧
      (∀ ty, ∃ u c'', extract ty path t' (.append b) c' = .ok u c'' ∧
        ∀ s, c''.function.instructions.size ≤ s.registers.size → t.Defined s → object.Defined s →
          ∃ s', runSince c c'' b s = .ok none s' ∧ u.Defined s' ∧
            u.contents c'' s' = object.contents c s ∧ t.contents c'' s' = t.contents c s) ∧
      ∀ ty other v d, ¬other <+: path → ¬path <+: other →
        extract ty other t (.append b) c = .ok v d →
        ∃ u c'', extract ty other t' (.append b) c' = .ok u c'' ∧
          ∀ s, c''.function.instructions.size ≤ s.registers.size →
            d.function.instructions.size ≤ s.registers.size → t.Defined s → object.Defined s →
            ∃ s' s'', runSince c c'' b s = .ok none s' ∧ runSince c d b s = .ok none s'' ∧
              u.Defined s' ∧ v.Defined s'' ∧ u.contents c'' s' = v.contents d s'' := by
  cases hpart : (t.form c).part? path with
  | none =>
    obtain ⟨e, he, -, herror⟩ := errors_of_none b object.ty object ht hpart
    simp_all
  | some f =>
    obtain rfl := hform f hpart
    obtain ⟨t', c', hmade, h⟩ := insert_eq b ht (usable_of_part? ht hobject hpart) hpart
    rw [hmade]
    refine ⟨⟨fun ⟨_, _, herror⟩ => (nomatch herror), fun hnone => (nomatch hnone)⟩,
      fun e c' herror => (nomatch herror), ?_⟩
    rintro t' c' ⟨⟩
    refine ⟨h.form, h.types, h.executes.inserts, h.subtrees, ?_, ?_⟩
    · exact h.extract_self ht (Option.isSome_of_eq_some hpart) hb
    · exact fun ty other v d hother hpath hold => h.extract_apart ht hb hother hpath hold

/-- Code that has the parts of a nested value at hand: a vector, a pair of numbers, and a number more. -/
def nestedVector : Context where
  options := {}
  ids := .ofBound 0
  function :=
    { instructions := #[.loadConst [1, 2, 3], .loadConst [4], .loadConst [5], .loadConst [9]]
      blocks := #[{ instructions := [0, 1, 2, 3] }] }
  nextKey := 6

/-- The registers of `nestedVector`, with room for two more. -/
def nestedRegisters : RunState where
  registers := #[some (.ofWords [1, 2, 3]), some (.ofWords [4]), some (.ofWords [5]),
    some (.ofWords [9]), none, none]

/-- The nested value of `nestedVector`. -/
def nestedTree : Tree := .node 4 3 [.leaf 0 1 0, .node 3 2 [.leaf 1 0 1, .leaf 2 0 2]]

theorem insert_update_laws_nestedVector :
    ∃ t' c' u d s u' d' s', insert (.leaf 5 0 3) [0, 1] nestedTree (.append 0) nestedVector = .ok t' c' ∧
      t'.form c' = nestedTree.form nestedVector ∧
      extract 0 [0, 1] t' (.append 0) c' = .ok u d ∧
      runSince nestedVector d 0 nestedRegisters = .ok none s ∧ u.contents d s = .vector [9] ∧
      extract 0 [0, 2] t' (.append 0) c' = .ok u' d' ∧
      runSince nestedVector d' 0 nestedRegisters = .ok none s' ∧ u'.contents d' s' = .vector [3] := by
  obtain ⟨hfails, -, hlaws⟩ := insert_update_laws (.leaf 5 0 3) [0, 1] (b := 0) (c := nestedVector)
    (t := nestedTree) (by decide) (by decide) (by decide) fun f hf => Option.some.inj hf
  cases hmade : insert (.leaf 5 0 3) [0, 1] nestedTree (.append 0) nestedVector with
  | error e c' => exact nomatch hfails.mp ⟨e, c', hmade⟩
  | ok t' c' =>
    obtain ⟨hform, -, -, -, hself, hapart⟩ := hlaws t' c' hmade
    obtain ⟨u, d, hu, hrun⟩ := hself 0
    obtain ⟨u', d', hu', hrun'⟩ := hapart 0 [0, 2] _ _ (by decide) (by decide) rfl
    have hboth (path : List Word) {u : Tree} {d : Context} (hu : extract 0 path t' (.append 0) c' = .ok u d) :
        (do extract 0 path (← insert (.leaf 5 0 3) [0, 1] nestedTree) : Emit Tree) (.append 0) nestedVector =
          .ok u d := (Emit.bind_of_ok hmade).trans hu
    obtain ⟨s, hs, -, hcontents, -⟩ := hrun nestedRegisters
      (Emit.size_le_of_ok (hboth _ hu) (by decide +kernel)) (by decide) (by decide)
    obtain ⟨s', σ, hs', hσ, -, -, hcontents'⟩ := hrun' nestedRegisters
      (Emit.size_le_of_ok (hboth _ hu') (by decide +kernel)) (by decide) (by decide) (by decide)
    refine ⟨t', c', u, d, s, u', d', s', rfl, hform, hu, hs, hcontents, hu', hs', hcontents'.trans ?_⟩
    cases hσ
    rfl

end

end Code

end ShaderIR.Spirv
