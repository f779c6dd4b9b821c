import ShaderIR.Proofs.Emission
import ShaderIR.Proofs.Interning
import ShaderIR.Spirv.Code.Phi

/-!
# The leaves of new trees

A tree that is put together for a type or a constant has new registers as its leaves, numbered in
order, and nothing but their instructions is put in. A tree of a type can be made again in any later
state, and how many leaves it has depends on the type alone; what the leaves of a constant hold depends
on the constant alone.
-/

namespace ShaderIR

open EStateM List

namespace Spirv

variable {g : Nat → Instruction} {ts : List Tree} {is : List Instruction} {spot' : Spot}
  {r : Register} {index depth : Nat} {d : Context}

/-- Between two states, instructions were put in at a spot and types were added, and nothing else
was changed. -/
def Inserts (spot : Spot) (is : List Instruction) (c c' : Context) : Prop :=
  ∃ types nextKey, c.module.types.Extends types ∧ c' = { c with
      module := { c.module with types }, nextKey, function := c.function.insertAll spot is }

namespace Inserts

variable {spot : Spot} {is js : List Instruction} {c c' c'' : Context}

protected theorem refl (spot : Spot) (c : Context) : Inserts spot [] c c :=
  ⟨c.module.types, c.nextKey, .refl _, rfl⟩

protected theorem trans (h : Inserts spot is c c') (h' : Inserts spot js c' c'') :
    Inserts spot (is ++ js) c c'' := by
  obtain ⟨types, nextKey, hext, rfl⟩ := h
  obtain ⟨types', nextKey', hext', rfl⟩ := h'
  refine ⟨types', nextKey', hext.trans hext', ?_⟩
  rw [Function.insertAll_append]

theorem key (spot : Spot) (c : Context) (nextKey : Nat) : Inserts spot [] c { c with nextKey } :=
  ⟨c.module.types, nextKey, .refl _, rfl⟩

theorem instruction (spot : Spot) (c : Context) (i : Instruction) :
    Inserts spot [i] c { c with function := (c.function.insert spot i).2 } :=
  ⟨c.module.types, c.nextKey, .refl _, rfl⟩

variable (h : Inserts spot is c c')
include h

theorem types : c.module.types.Extends c'.module.types := by
  obtain ⟨types, nextKey, hext, rfl⟩ := h
  exact hext

theorem constants : c'.module.constants = c.module.constants := by
  obtain ⟨types, nextKey, hext, rfl⟩ := h
  rfl

theorem ids : c'.ids = c.ids := by
  obtain ⟨types, nextKey, hext, rfl⟩ := h
  rfl

theorem function : c'.function = c.function.insertAll spot is := by
  obtain ⟨types, nextKey, hext, rfl⟩ := h
  rfl

theorem size : c'.function.instructions.size = c.function.instructions.size + is.length := by
  simp [h.function]

end Inserts

/-- Between two states, instructions were put in whose registers are some leaves in order. -/
structure Plants (spot : Spot) (is : List Instruction) (c : Context) (leaves : List Register)
    (c' : Context) : Prop where
  inserts : Inserts spot is c c'
  leaves_eq : leaves = List.range' c.function.instructions.size is.length

namespace Plants

variable {spot : Spot} {is js : List Instruction} {c c' c'' : Context} {rs rs' : List Register}

protected theorem nil (h : Inserts spot [] c c') : Plants spot [] c [] c' := ⟨h, rfl⟩

theorem append (h : Plants spot is c rs c') (h' : Plants spot js c' rs' c'') :
    Plants spot (is ++ js) c (rs ++ rs') c'' := by
  refine ⟨h.inserts.trans h'.inserts, ?_⟩
  rw [h.leaves_eq, h'.leaves_eq, h.inserts.size, List.range'_append_1, length_append]

theorem followed (h : Plants spot is c rs c') (h' : Inserts spot [] c' c'') : Plants spot is c rs c'' := by
  simpa using h.append (.nil h')

theorem after (h : Inserts spot [] c c') (h' : Plants spot is c' rs c'') : Plants spot is c rs c'' := by
  simpa using (Plants.nil h).append h'

variable (h : Plants spot is c rs c')
include h

theorem nodup : rs.Nodup := by
  rw [h.leaves_eq]
  exact nodup_range'

theorem length : rs.length = is.length := by
  simp [h.leaves_eq]

theorem mem (hr : r ∈ rs) :
    c.function.instructions.size ≤ r ∧ r < c'.function.instructions.size := by
  rw [h.leaves_eq, mem_range'_1] at hr
  rwa [h.inserts.size]

theorem getElem? {n : Nat} (hr : rs[n]? = some r) :
    c'.function.instructions[r]? = is[n]? := by
  obtain ⟨hlt, -⟩ := List.getElem?_eq_some_iff.mp hr
  rw [h.length] at hlt
  rw [h.leaves_eq, List.getElem?_range' hlt, Option.some_inj] at hr
  rw [← hr, h.inserts.function, Function.insertAll_instructions, Nat.one_mul,
    Array.getElem?_append_right (Nat.le_add_right ..), Nat.add_sub_cancel_left]
  simp

end Plants

/-! ### Trees of a type -/

namespace Lower

variable {spot : Spot} {c c' : Context} {ty : TypeId}

theorem childType_eq_ok {child : TypeId} (h : childType ty index c = .ok child c') :
    c.module.types.child? ty index = some (child, c'.module.types) ∧ Inserts spot [] c c' := by
  have h₁ := getBind_eq_ok.mp h
  unfold keepTypes at h₁
  cases hchild : c.module.types.child? ty index with
  | none =>
    simp only [hchild] at h₁
    exact (throw_eq_ok.mp h₁).elim
  | some found =>
    simp only [hchild] at h₁
    obtain ⟨_, c₃, hmodify, hpure⟩ := bind_eq_ok.mp h₁
    obtain rfl := modify_eq_ok.mp hmodify
    obtain ⟨rfl, rfl⟩ := pure_eq_ok.mp hpure
    exact ⟨rfl, found.2, c.nextKey, Types.extends_of_child? hchild, rfl⟩

theorem childType_of_child? {child : TypeId} {types : Types}
    (h : c.module.types.child? ty index = some (child, types)) :
    childType ty index c = .ok child { c with module := { c.module with types } } := by
  unfold childType
  rw [get_bind, h]
  rfl

theorem plants_leaf {t : Tree} {c₁ : Context} (h : Plants spot is c [r] c₁)
    (ht : leaf ty r c₁ = .ok t c') : Plants spot is c t.leaves c' := by
  obtain ⟨rfl, rfl⟩ := leaf_eq_ok.mp ht
  simpa [Tree.leaves] using h.followed (.key spot c₁ _)

theorem plants_node {t : Tree} {c₁ : Context} (h : Plants spot is c (Tree.leavesOfList ts) c₁)
    (ht : node ty ts c₁ = .ok t c') : Plants spot is c t.leaves c' := by
  obtain ⟨rfl, rfl⟩ := node_eq_ok.mp ht
  simpa [Tree.leaves] using h.followed (.key spot c₁ _)

end Lower

namespace Emit

variable {spot : Spot} {c c' : Context} {ty : TypeId} {t : Tree}

theorem plants_instruction {i : Instruction} (h : instruction i spot c = .ok r c') :
    Plants spot [i] c [r] c' := by
  obtain ⟨rfl, rfl⟩ := Lower.insertAt_eq_ok.mp h
  exact ⟨.instruction spot c i, rfl⟩

/-- Trees that are planted one after another are planted together. -/
theorem plants_mapM {α : Type} {f : α → Emit Tree} {P : α → List Instruction → Prop} {l : List α}
    (hf : ∀ a ∈ l, ∀ (d : Context) (t : Tree) (d' : Context), (∃ is, Inserts spot is c d) →
      f a spot d = .ok t d' → ∃ is, P a is ∧ Plants spot is d t.leaves d')
    (h : (l.mapM f) spot c = .ok ts c') :
    ∃ iss, List.Forall₂ P l iss ∧ Plants spot iss.flatten c (Tree.leavesOfList ts) c' := by
  induction l generalizing c ts with
  | nil =>
    obtain ⟨rfl, rfl⟩ := pure_eq_ok.mp h
    exact ⟨[], .nil, .nil (.refl spot c)⟩
  | cons a l ih =>
    rw [mapM_cons, bind_eq_ok] at h
    obtain ⟨t, c₁, ht, h₁⟩ := h
    obtain ⟨ts', c₂, hts, h₂⟩ := bind_eq_ok.mp h₁
    obtain ⟨rfl, rfl⟩ := pure_eq_ok.mp h₂
    obtain ⟨is, his, hplants⟩ := hf a (mem_cons_self ..) c t c₁ ⟨[], .refl spot c⟩ ht
    obtain ⟨iss, hiss, hplants'⟩ := ih (fun b hb d t d' ⟨js, hjs⟩ =>
      hf b (mem_cons_of_mem _ hb) d t d' ⟨is ++ js, hplants.inserts.trans hjs⟩) hts
    exact ⟨is :: iss, .cons his hiss, hplants.append hplants'⟩

theorem plants_mapM_map {α : Type} {f : α → Emit Tree} {is : α → List Instruction} {l : List α}
    (hf : ∀ a ∈ l, ∀ (d : Context) (t : Tree) (d' : Context), (∃ is, Inserts spot is c d) →
      f a spot d = .ok t d' → Plants spot (is a) d t.leaves d')
    (h : (l.mapM f) spot c = .ok ts c') :
    Plants spot (l.map is).flatten c (Tree.leavesOfList ts) c' := by
  obtain ⟨iss, hiss, hplants⟩ := plants_mapM (P := fun a js => is a = js)
    (fun a ha d t d' hd ht => ⟨is a, rfl, hf a ha d t d' hd ht⟩) h
  rw [← List.forall₂_map_left_iff, List.forall₂_eq_eq_eq] at hiss
  exact hiss ▸ hplants

theorem plants_treeWithin (h : treeWithin (fun lanes => instruction (g lanes)) depth ty spot c = .ok t c') :
    ∃ is, (∀ i ∈ is, ∃ lanes, i = g lanes) ∧ Plants spot is c t.leaves c' := by
  induction depth generalizing c ty t c' with
  | zero => exact (throw_eq_ok.mp h).elim
  | succ depth ih =>
    rw [treeWithin, look_eq_ok] at h
    obtain ⟨shape, -, h⟩ := h
    cases hlanes : shape.lanes? with
    | some lanes =>
      simp only [hlanes] at h
      obtain ⟨r, c₁, hr, ht⟩ := bind_eq_ok.mp h
      exact ⟨[g lanes], by simp, Lower.plants_leaf (plants_instruction hr) ht⟩
    | none =>
      simp only [hlanes] at h
      cases hcount : shape.childCount? with
      | none =>
        simp only [hcount] at h
        exact (throw_eq_ok.mp h).elim
      | some count =>
        simp only [hcount] at h
        obtain ⟨ts, c₁, hts, ht⟩ := bind_eq_ok.mp h
        obtain ⟨iss, hiss, hplants⟩ := plants_mapM (fun index _ c t c' _ hchild => by
          obtain ⟨child, c₁, hty, ht⟩ := bind_eq_ok.mp hchild
          obtain ⟨is, his, hplants⟩ := ih ht
          exact ⟨is, his, .after (Lower.childType_eq_ok hty).2 hplants⟩) hts
        refine ⟨iss.flatten, fun i hi => ?_, Lower.plants_node hplants ht⟩
        obtain ⟨is, his, hi⟩ := mem_flatten.mp hi
        exact Ensures.forall_of_forall₂ hiss is his i hi

/-- The tree that is made for a type mirrors it, if the instructions have the lanes they are asked for. -/
theorem mirrors_treeOfType (hg : ∀ n, (g n).lanes = n ∧ (g n).places = [] ∧ (g n).sourceBlocks = [])
    (h : treeOfType (fun lanes => instruction (g lanes)) ty spot c = .ok t c') :
    c.module.types.Extends c'.module.types ∧ ∃ s, c.module.types.shape? ty = some s ∧
      t.MirrorsWithin c' (c.module.types.size + 1) s := by
  have hmake (n : Nat) (b : Bench) : Makes (fun _ => True) spot b (instruction (g n))
      fun b' r => HasLanes b'.context r n ∧ True :=
    (makes_instruction trivial (Context.admits_of_nil (hg n).2.1 (hg n).2.2)).mono fun _ r _ hr =>
      ⟨⟨g n, hr.1, (hg n).1⟩, trivial⟩
  obtain ⟨b, rfl, hb, -, s, hs, ht⟩ := (makes_treeOfType (b := ⟨c, []⟩) (fun _ _ _ _ h => h) hmake ty).ok t c' h
  exact ⟨hb.grows.types, s, hs, ht.mirrors⟩

/-- Where a tree mirrors a shape, a tree can be made for a type of the shape. -/
theorem exists_treeWithin {s : Shape} (h : t.MirrorsWithin c depth s) (hs : d.module.types.shape? ty = some s)
    (hext : c.module.types.Extends d.module.types) :
    ∃ t' d', treeWithin (fun lanes => instruction (g lanes)) depth ty spot d = .ok t' d' ∧
      d.module.types.Extends d'.module.types := by
  induction depth generalizing d ty s t with
  | zero => exact h.elim
  | succ depth ih =>
    rw [treeWithin, lift_of_ok (Lower.shape_of_shape? hs)]
    cases t with
    | leaf key _ r =>
      obtain ⟨-, n, hn, -⟩ := h
      simp only [hn]
      exact ⟨_, _, rfl, .refl _⟩
    | node key _ children =>
      obtain ⟨-, hcount, hchildren⟩ := h
      simp only [Shape.lanes?_of_childCount? hcount, hcount]
      have hchild : ∀ i ∈ List.range children.length, ∀ d' : Context, d.module.types.Extends d'.module.types →
          ∃ t d'', (do treeWithin (fun lanes => instruction (g lanes)) depth (← Lower.childType ty i) : Emit Tree)
            spot d' = .ok t d'' ∧ d.module.types.Extends d''.module.types := by
        intro i hi d' hd'
        obtain ⟨child, hchild, ht⟩ := hchildren i _ (getElem?_eq_getElem (mem_range.mp hi))
        obtain ⟨ty', types, hty, hs'⟩ := Types.exists_child? (hd'.shape? hs) ((hext.trans hd').childShape? hchild)
        have hd := hd'.trans (Types.extends_of_child? hty)
        obtain ⟨t', d'', ht', hd''⟩ := ih (d := { d' with module := { d'.module with types } }) ht hs' (hext.trans hd)
        exact ⟨t', d'', (lift_of_ok (Lower.childType_of_child? hty)).trans ht', hd.trans hd''⟩
      obtain ⟨ts, d', hts, hd'⟩ := exists_mapM hchild (.refl _)
      rw [← mapM_at] at hts
      exact ⟨_, _, (bind_of_ok hts).trans rfl, hd'⟩

end Emit

/-! ### Trees of a constant -/

namespace Context

variable {c c' : Context} {k : ConstantId}

/-- The contents of a constant that is looked up by number. -/
def constantAt (c : Context) (k : ConstantId) : Constant :=
  (c.module.constants[k]?).getD { ty := 0, value := .flat [] }

/-- What the leaves of a constant hold whose children go at most `depth` deep. -/
def leafWordsWithin (c : Context) : (depth : Nat) → ConstantId → List (List Word)
  | 0, _ => []
  | depth + 1, k =>
    match (c.constantAt k).value with
    | .flat bits =>
      match (c.module.types.shape? (c.constantAt k).ty).getD .void with
      | .matrix columns rows _ => Emit.pieces rows.lanes columns.lanes bits
      | _ => [bits]
    | .composite children => (children.map (c.leafWordsWithin depth)).flatten

/-- What the leaves of a constant hold. -/
def leafWords (c : Context) (k : ConstantId) : List (List Word) :=
  c.leafWordsWithin (c.module.constants.size + 1) k

/-- Ids and constants refer to constants that are there, and what the leaves of a constant hold can
be told from the types that are there. -/
structure Grounded (c : Context) : Prop where
  ids : ∀ id k, c.ids.get id = .ok (.constant k) → k < c.module.constants.size
  children : ∀ (k : ConstantId) (constant : Constant) (children : List ConstantId),
    c.module.constants[k]? = some constant → constant.value = .composite children → ∀ child ∈ children, child < k
  shaped : ∀ (k : ConstantId) (constant : Constant), c.module.constants[k]? = some constant →
    (∃ s, c.module.types.shape? constant.ty = some s) ∨ ∃ w, constant.value = .flat [w]

theorem getElem?_constantAt {c : Context} (hk : k < c.module.constants.size) :
    c.module.constants[k]? = some (c.constantAt k) := by
  simp [constantAt, Array.getElem?_eq_getElem hk]

theorem pieces_singleton {size count : Nat} (hsize : 1 ≤ size) (hcount : 1 ≤ count) (w : Word) :
    Emit.pieces size count [w] = [[w]] := by
  obtain ⟨size, rfl⟩ := Nat.exists_eq_add_of_le hsize
  obtain ⟨count, rfl⟩ := Nat.exists_eq_add_of_le hcount
  rw [Nat.add_comm 1 count, Emit.pieces, Nat.add_comm 1 size, take_succ_cons, drop_succ_cons, take_nil, drop_nil]
  · cases count <;> rfl
  · simp

variable (h : c.Grounded)
include h

theorem Grounded.of_extends
    (hids : ∀ id k, c'.ids.get id = .ok (.constant k) → c.ids.get id = .ok (.constant k))
    (hconstants : c'.module.constants = c.module.constants)
    (htypes : c.module.types.Extends c'.module.types) : c'.Grounded where
  ids := by
    rw [hconstants]
    exact fun id k hget => h.ids id k (hids id k hget)
  children := by
    rw [hconstants]
    exact h.children
  shaped := by
    rw [hconstants]
    intro k constant hk
    exact (h.shaped k constant hk).imp (fun ⟨s, hs⟩ => ⟨s, htypes.shape? hs⟩) id

theorem Grounded.of_inserts {spot : Spot} (hi : Inserts spot is c c') : c'.Grounded :=
  h.of_extends (fun _ _ hget => by rwa [hi.ids] at hget) hi.constants hi.types

theorem Grounded.leafWordsWithin_eq (hconstants : c'.module.constants = c.module.constants)
    (htypes : c.module.types.Extends c'.module.types) (depth : Nat)
    (hk : k < c.module.constants.size) : c'.leafWordsWithin depth k = c.leafWordsWithin depth k := by
  induction depth generalizing k with
  | zero => rfl
  | succ depth ih =>
    have hat : c'.constantAt k = c.constantAt k := by rw [constantAt, hconstants, constantAt]
    rw [leafWordsWithin, leafWordsWithin, hat]
    have hconstant := getElem?_constantAt hk
    cases hvalue : (c.constantAt k).value with
    | composite children =>
      dsimp only
      congr 1
      refine map_congr_left fun child hchild => ih ?_
      exact Nat.lt_trans (h.children k _ children hconstant hvalue child hchild) hk
    | flat bits =>
      dsimp only
      rcases h.shaped k _ hconstant with ⟨s, hs⟩ | ⟨w, hw⟩
      · rw [hs, htypes.shape? hs]
      · obtain rfl : bits = [w] := by simpa [hvalue] using hw
        have hwords (s : Shape) : (match s with
            | .matrix columns rows _ => Emit.pieces rows.lanes columns.lanes [w]
            | _ => [[w]]) = [[w]] := by
          cases s with
          | matrix columns rows => exact pieces_singleton rows.one_le_lanes columns.one_le_lanes w
          | _ => rfl
        rw [hwords, hwords]

theorem Grounded.leafWords_eq (hconstants : c'.module.constants = c.module.constants)
    (htypes : c.module.types.Extends c'.module.types)
    (hk : k < c.module.constants.size) : c'.leafWords k = c.leafWords k := by
  rw [leafWords, leafWords, h.leafWordsWithin_eq hconstants htypes _ hk, hconstants]

end Context

namespace Emit

variable {spot : Spot} {c c' : Context} {t : Tree} {k : ConstantId}

theorem constant_eq_ok {constant : Constant} :
    Lower.constant k c = .ok constant c' ↔ constant = c.constantAt k ∧ c' = c := by
  unfold Lower.constant
  rw [EStateM.bind_eq_ok]
  constructor
  · rintro ⟨c₁, c₂, hget, hpure⟩
    obtain ⟨rfl, rfl⟩ := EStateM.get_eq_ok.mp hget
    obtain ⟨rfl, rfl⟩ := EStateM.pure_eq_ok.mp hpure
    exact ⟨rfl, rfl⟩
  · rintro ⟨rfl, rfl⟩
    exact ⟨_, _, rfl, rfl⟩

theorem exists_words_of_forall₂ {p : Prop} {words : ConstantId → List (List Word)}
    {children : List ConstantId} {iss : List (List Instruction)}
    (h : List.Forall₂ (fun child is => ∃ ws : List (List Word),
      is = ws.map .loadConst ∧ (p → ws = words child)) children iss) :
    ∃ ws : List (List Word), iss.flatten = ws.map .loadConst ∧ (p → ws = (children.map words).flatten) := by
  induction h with
  | nil => exact ⟨[], rfl, fun _ => rfl⟩
  | cons hchild _ ih =>
    obtain ⟨ws, rfl, hws⟩ := hchild
    obtain ⟨ws', hiss, hws'⟩ := ih
    refine ⟨ws ++ ws', by simp [hiss], fun hp => ?_⟩
    rw [hws hp, hws' hp, map_cons, flatten_cons]

theorem plants_constantTreeWithin (h : constantTreeWithin depth k spot c = .ok t c') :
    ∃ words : List (List Word), Plants spot (words.map .loadConst) c t.leaves c' ∧
      (c.Grounded → k < c.module.constants.size → words = c.leafWordsWithin depth k) := by
  induction depth generalizing c k t c' with
  | zero => exact (throw_eq_ok.mp h).elim
  | succ depth ih =>
    rw [constantTreeWithin, look_eq_ok] at h
    obtain ⟨constant, hconstant, h⟩ := h
    obtain ⟨rfl, -⟩ := constant_eq_ok.mp hconstant
    rw [Context.leafWordsWithin]
    have hleaf {ty : TypeId} {bits : List Word} {c : Context} {t : Tree} {c' : Context}
        (h : (do Lower.leaf ty (← loadConst bits) : Emit Tree) spot c = .ok t c') :
        Plants spot [.loadConst bits] c t.leaves c' := by
      obtain ⟨r, c₁, hr, ht⟩ := bind_eq_ok.mp h
      exact Lower.plants_leaf (plants_instruction hr) ht
    cases hvalue : (c.constantAt k).value with
    | composite children =>
      simp only [hvalue] at h
      obtain ⟨ts, c₁, hts, ht⟩ := bind_eq_ok.mp h
      -- children come before the constant, and no type that is added changes what they hold
      obtain ⟨iss, hiss, hplants⟩ := plants_mapM (P := fun child is => ∃ words : List (List Word),
          is = words.map .loadConst ∧ (c.Grounded ∧ k < c.module.constants.size →
            words = c.leafWordsWithin depth child))
        (fun child hchild d t d' hd ht => by
          obtain ⟨_, hd⟩ := hd
          obtain ⟨words, hplants, hwords⟩ := ih ht
          refine ⟨_, ⟨words, rfl, fun h => ?_⟩, hplants⟩
          obtain ⟨hc, hk⟩ := h
          have hlt := Nat.lt_trans
            (hc.children k _ children (Context.getElem?_constantAt hk) hvalue child hchild) hk
          rw [hwords (hc.of_inserts hd) (by rwa [hd.constants]),
            hc.leafWordsWithin_eq hd.constants hd.types depth hlt]) hts
      obtain ⟨words, hflatten, hwords⟩ := exists_words_of_forall₂ hiss
      rw [hflatten] at hplants
      exact ⟨words, Lower.plants_node hplants ht, fun hc hk => hwords ⟨hc, hk⟩⟩
    | flat bits =>
      simp only [hvalue] at h
      obtain ⟨s, hs, h⟩ := look_eq_ok.mp h
      obtain ⟨rfl, -⟩ := Lower.shape_eq_ok.mp hs
      dsimp only
      generalize (c.module.types.shape? (c.constantAt k).ty).getD .void = s at h ⊢
      cases s with
      | matrix columns rows scalar =>
        obtain ⟨columnType, c₁, hcolumn, h⟩ := bind_eq_ok.mp h
        obtain ⟨ts, c₂, hts, ht⟩ := bind_eq_ok.mp h
        have hplants := plants_mapM_map (fun column _ d t d' _ ht => hleaf ht) hts
        rw [← flatMap_def, ← map_eq_flatMap] at hplants
        exact ⟨_, .after (Lower.childType_eq_ok hcolumn).2 (Lower.plants_node hplants ht), fun _ _ => rfl⟩
      | _ => exact ⟨[bits], hleaf h, fun _ _ => rfl⟩

theorem plants_constantTree (h : constantTree k spot c = .ok t c') :
    ∃ words : List (List Word), Plants spot (words.map .loadConst) c t.leaves c' ∧
      (c.Grounded → k < c.module.constants.size → words = c.leafWords k) := by
  unfold constantTree at h
  rw [getBind_eq_ok] at h
  exact plants_constantTreeWithin h

theorem treeOf_eq_ok {id : Id} (h : treeOf id spot c = .ok t c') : c.ids.get id = .ok (.tree t) ∧ c' = c ∨
      ∃ k, ∃ words : List (List Word), c.ids.get id = .ok (.constant k) ∧
        Plants spot (words.map .loadConst) c t.leaves c' ∧ (c.Grounded → words = c.leafWords k) := by
  unfold treeOf at h
  rw [look_eq_ok] at h
  obtain ⟨v, hv, h⟩ := h
  obtain ⟨hget, -⟩ := Lower.lookup_eq_ok.mp hv
  cases v with
  | tree t' =>
    obtain ⟨rfl, rfl⟩ := pure_eq_ok.mp h
    exact .inl ⟨hget, rfl⟩
  | constant k =>
    obtain ⟨words, hplants, hwords⟩ := plants_constantTree h
    exact .inr ⟨k, words, hget, hplants, fun hc => hwords hc (hc.ids id k hget)⟩
  | _ => exact (throw_eq_ok.mp h).elim

theorem inserts_treeOf {id : Id} (h : treeOf id spot c = .ok t c') :
    ∃ words : List (List Word), Inserts spot (words.map .loadConst) c c' := by
  rcases treeOf_eq_ok h with ⟨-, rfl⟩ | ⟨k, words, -, hplants, -⟩
  · exact ⟨[], .refl spot c'⟩
  · exact ⟨words, hplants.inserts⟩

end Emit

/-- Once some instructions have been carried out, the leaves of a tree hold what an id stands for. -/
inductive Held (c : Context) (rs : List Register) (id : Id) (t : Tree) : Prop
  | tree (h : c.ids.get id = .ok (.tree t))
  | constant {k : ConstantId} (h : c.ids.get id = .ok (.constant k))
      (hloads : List.Forall₂ (fun r words =>
        c.function.instructions[r]? = some (.loadConst words) ∧ r ∈ rs) t.leaves (c.leafWords k))

theorem Held.mono {c c' : Context} {rs rs' : List Register} {id : Id} {t : Tree} (h : Held c rs id t)
    (hg : c.Grounded) (hids : c.ids.Extends c'.ids)
    (hconstants : c'.module.constants = c.module.constants)
    (htypes : c.module.types.Extends c'.module.types)
    (hinstructions : ∀ (r : Register) (words : List Word), c.function.instructions[r]? = some (.loadConst words) →
        c'.function.instructions[r]? = some (.loadConst words))
    (hrs : ∀ r ∈ rs, r ∈ rs') : Held c' rs' id t := by
  cases h with
  | tree h => exact .tree (hids id _ h)
  | @constant k h hloads =>
    refine .constant (hids id _ h) ?_
    rw [hg.leafWords_eq hconstants htypes (hg.ids id k h)]
    exact hloads.imp fun r words ⟨hload, hr⟩ => ⟨hinstructions r words hload, hrs r hr⟩

/-- The value of an id is there once the instructions that load it have been carried out. -/
theorem Emit.held_of_treeOf {c c' : Context} {spot : Spot} {rs : List Register} {id : Id} {t : Tree}
    (hg : c.Grounded) (h : Emit.treeOf id spot c = .ok t c')
    (hrs : ∀ (r : Register) (words : List Word), c.fresh ≤ r →
      c'.function.instructions[r]? = some (.loadConst words) → r ∈ rs) : Held c' rs id t := by
  rcases Emit.treeOf_eq_ok h with ⟨hget, rfl⟩ | ⟨k, words, hget, hplants, hwords⟩
  · exact .tree hget
  · have hi := hplants.inserts
    obtain rfl := hwords hg
    refine .constant (by rwa [hi.ids]) ?_
    rw [hg.leafWords_eq hi.constants hi.types (hg.ids id k hget), List.forall₂_iff_get]
    refine ⟨by simpa using hplants.length, fun n hn hn' => ?_⟩
    have hload : c'.function.instructions[t.leaves.get ⟨n, hn⟩]? =
        some (.loadConst ((c.leafWords k).get ⟨n, hn'⟩)) := by
      rw [get_eq_getElem, hplants.getElem? (getElem?_eq_getElem hn)]
      simp [hn']
    exact ⟨hload, hrs _ _ (hplants.mem (getElem_mem hn)).1 hload⟩

/-! ### Trees of phis -/

namespace Code

variable {spot : Spot} {c c' : Context} {ty : TypeId} {t : Tree} (h : phiTree ty spot c = .ok t c')
include h

theorem plants_phiTree : ∃ is, (∀ i ∈ is, ∃ lanes, i = .phi [] lanes) ∧ Plants spot is c t.leaves c' := by
  unfold phiTree Emit.treeOfType at h
  obtain ⟨depth, -, h⟩ := Emit.look_eq_ok.mp h
  exact Emit.plants_treeWithin h

theorem mirrors_phiTree : c.module.types.Extends c'.module.types ∧
    ∃ s, c.module.types.shape? ty = some s ∧ t.MirrorsWithin c' (c.module.types.size + 1) s :=
  Emit.mirrors_treeOfType (g := .phi []) (fun _ => ⟨rfl, rfl, rfl⟩) h

theorem exists_phiTree (hext : c'.module.types.Extends d.module.types) :
    ∃ t' d', phiTree ty spot' d = .ok t' d' := by
  obtain ⟨htypes, s, hs, ht⟩ := mirrors_phiTree h
  have hle := Nat.succ_le_succ (htypes.trans hext).size_le
  obtain ⟨t', d', ht', -⟩ : ∃ t' d', phiTree ty spot' d = .ok t' d' ∧ _ := Emit.exists_treeWithin (g := .phi [])
    (ht.mono hle (.refl _) fun _ _ hr => hr) ((htypes.trans hext).shape? hs) hext
  exact ⟨t', d', ht'⟩

theorem length_leaves_phiTree {d' : Context} {t' : Tree}
    (h' : phiTree ty spot' d = .ok t' d') (hext : c'.module.types.Extends d.module.types) :
    t.leaves.length = t'.leaves.length := by
  obtain ⟨htypes, s, hs, ht⟩ := mirrors_phiTree h
  obtain ⟨htypes', s', hs', ht'⟩ := mirrors_phiTree h'
  cases ((htypes.trans hext).shape? hs).symm.trans hs'
  exact Tree.length_leaves_eq (ht.form_eq ht' (hext.trans htypes'))

end Code

end Spirv

end ShaderIR
