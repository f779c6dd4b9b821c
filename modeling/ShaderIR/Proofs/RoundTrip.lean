import ShaderIR.Proofs.Access
import ShaderIR.Proofs.Lanes

/-!
# Loads, stores and copies as they run

What a load reads, a store writes and a copy moves, slot by slot. A store followed by a load gives the
stored registers back in the lanes that count, and neither touches a slot outside of the place.
-/

namespace ShaderIR

open List

theorem Slot.lanes_le {slot : Slot} (h : slot.leaf.isRegister) : slot.lanes ≤ 4 := by
  obtain ⟨steps, leaf⟩ := slot
  cases leaf with
  | scalar scalar => exact Nat.succ_le_succ (Nat.zero_le _)
  | vector size scalar =>
    change size.lanes ≤ 4
    cases size <;> decide
  | _ => cases h

namespace Spirv.Code

variable {uniform : Bool} {p dst src : Place} {slot : Slot} {slots : List Slot} {r : Nat}
  {rs : List Register} {σ : RunState}

/-- What a load makes of a lane of a slot: booleans of uniforms become zero or all ones. -/
def fetched (uniform : Bool) (slot : Slot) (w : Word) : Word :=
  if slot.isBool && uniform then .ofBool (w ≠ 0) else w

/-! ### Loads -/

/-- Reading a slot leaves what a load makes of it in the register of the slot. -/
theorem performAll_loadSlot (hslot : slot.leaf.isRegister)
    (hp : ∀ q ∈ p.registers, (σ.value? q).isSome)
    (hsize : r + slotWidth uniform slot ≤ σ.registers.size) :
    ∃ σ' l, performAll r (loadSlot uniform p r slot) σ = .ok () σ' ∧ σ'.memory = σ.memory ∧
      σ'.value? (slotRegister uniform r slot) = some l ∧ ∀ i < slot.lanes,
        l.get i = fetched uniform slot
          ((σ.memory.read p.root (σ.resolve p ++ slot.path)).get i) := by
  have hp' : ∀ q ∈ (slot.place p).registers, (σ.value? q).isSome := by
    rwa [Slot.registers_place]
  have hread := Instruction.perform_loadVar (r := r) (n := slot.lanes) hp'
  rw [Slot.resolve_place] at hread
  change _ = EStateM.Result.ok () (σ.define r (σ.memory.read p.root _)) at hread
  unfold loadSlot slotRegister fetched
  cases hbool : slot.isBool && uniform with
  | false =>
    have hr : r < σ.registers.size := by
      simp only [slotWidth, hbool] at hsize
      exact hsize
    refine ⟨_, _, performAll_singleton hread, rfl, RunState.value?_define_self hr, ?_⟩
    intro i _
    rfl
  | true =>
    have hr : r + 3 ≤ σ.registers.size := by
      simpa only [slotWidth, hbool, if_true] using hsize
    -- the comparison reads what the two instructions before it define
    set σ₁ := σ.define r (σ.memory.read p.root (σ.resolve p ++ slot.path)) with hσ₁
    set σ₂ := σ₁.define (r + 1) (.ofWords [0]) with hσ₂
    have hfirst : σ₂.value? r = some (σ.memory.read p.root (σ.resolve p ++ slot.path)) := by
      rw [hσ₂, RunState.value?_define_of_ne (by simp), hσ₁,
        RunState.value?_define_self (by omega)]
    have hsecond : σ₂.value? (r + 1) = some (.ofWords [0]) := by
      rw [hσ₂, RunState.value?_define_self]
      simp only [hσ₁, RunState.size_define]
      omega
    have halu : (Instruction.alu .ine [.fit r slot.lanes, .fit (r + 1) 1] slot.lanes).perform (r + 2)
        σ₂ = _ := Instruction.perform_alu (by simp [Source.fit, hfirst, hsecond])
    refine ⟨_, _, (performAll_cons hread).trans ((performAll_cons
      (Instruction.perform_loadConst [0])).trans (performAll_singleton halu)), rfl,
      RunState.value?_define_self ?_, ?_⟩
    · simp only [hσ₂, hσ₁, RunState.size_define]
      omega
    · intro i hi
      simp only [map_cons, map_nil, Source.fit, RunState.lanes_of_value? hfirst,
        RunState.lanes_of_value? hsecond]
      exact get_eval_ine_zero (Slot.lanes_le hslot) hi r (r + 1) _

theorem slotRegister_lt : slotRegister uniform r slot < r + slotWidth uniform slot := by
  cases hbool : slot.isBool && uniform <;> simp [slotRegister, slotWidth, hbool]

/-- A load leaves memory as it is and each slot in a register. -/
theorem performAll_loadCode (hslots : ∀ slot ∈ slots, slot.leaf.isRegister)
    (hp : ∀ q ∈ p.registers, (σ.value? q).isSome) (hlt : ∀ q ∈ p.registers, q < r)
    (hsize : r + (loadCode uniform p r slots).length ≤ σ.registers.size) :
    ∃ σ', performAll r (loadCode uniform p r slots) σ = .ok () σ' ∧ σ'.memory = σ.memory ∧
      List.Forall₂ (fun slot q => ∃ l, σ'.value? q = some l ∧ ∀ i < slot.lanes,
        l.get i = fetched uniform slot
          ((σ.memory.read p.root (σ.resolve p ++ slot.path)).get i))
        slots (loadRegisters uniform r slots) := by
  induction slots generalizing r σ with
  | nil => exact ⟨σ, rfl, rfl, .nil⟩
  | cons slot slots ih =>
    rw [loadCode, length_append, length_loadSlot] at hsize
    have hsize' : r + slotWidth uniform slot ≤ σ.registers.size := by omega
    obtain ⟨σ₁, l, hslot, hmemory, hl, hget⟩ := performAll_loadSlot
      (hslots slot (mem_cons_self ..)) hp hsize'
    obtain ⟨hsize₁, hkeeps₁⟩ := performAll_keeps hslot
    rw [length_loadSlot] at hkeeps₁
    have hold : ∀ q ∈ p.registers, σ₁.registers[q]? = σ.registers[q]? := by
      intro q hq
      exact hkeeps₁ q (.inl (hlt q hq))
    have hdefined : ∀ q ∈ p.registers, (σ₁.value? q).isSome := by
      intro q hq
      rw [RunState.value?_congr (hold q hq)]
      exact hp q hq
    have hlt₁ : ∀ q ∈ p.registers, q < r + slotWidth uniform slot := by
      intro q hq
      exact Nat.lt_add_right _ (hlt q hq)
    obtain ⟨σ₂, hrest, hmemory₂, hvalues⟩ := ih
      (fun slot' hslot' => hslots slot' (mem_cons_of_mem _ hslot')) hdefined hlt₁ (by omega)
    rw [hmemory, RunState.resolve_congr hold] at hvalues
    refine ⟨σ₂, ?_, hmemory₂.trans hmemory, .cons ⟨l, ?_, hget⟩ hvalues⟩
    · rw [loadCode, performAll_append hslot, length_loadSlot, hrest]
    · -- the rest of the load leaves the register alone
      rw [RunState.value?_congr ((performAll_keeps hrest).2 _ (.inl slotRegister_lt)), hl]

theorem length_loadRegisters : (loadRegisters uniform r slots).length = slots.length := by
  induction slots generalizing r with
  | nil => rfl
  | cons slot slots ih => rw [loadRegisters, length_cons, ih, length_cons]

/-! ### Stores -/

/-- A store leaves registers as they are, and each slot holds its register in the lanes that count;
no other slot changes. -/
theorem performAll_storeCode (hp : ∀ q ∈ p.registers, (σ.value? q).isSome)
    (hrs : ∀ q ∈ rs, (σ.value? q).isSome) (hlength : slots.length = rs.length)
    (hnodup : (slots.map Slot.path).Nodup) :
    ∃ σ', performAll r (storeCode p slots rs) σ = .ok () σ' ∧ σ'.registers = σ.registers ∧
      List.Forall₂ (fun slot q => σ'.memory.read p.root (σ.resolve p ++ slot.path) =
        maskedLanes (laneMask slot.lanes) (σ.lanes q)
          (σ.memory.read p.root (σ.resolve p ++ slot.path))) slots rs ∧
      ∀ v path, (∀ slot ∈ slots, (v, path) ≠ (p.root, σ.resolve p ++ slot.path)) →
        σ'.memory.read v path = σ.memory.read v path := by
  induction slots generalizing r σ rs with
  | nil =>
    cases rs with
    | nil => exact ⟨σ, rfl, rfl, .nil, fun _ _ _ => rfl⟩
    | cons => cases hlength
  | cons slot slots ih =>
    cases rs with
    | nil => cases hlength
    | cons q rs =>
      have hp' : ∀ q ∈ (slot.place p).registers, (σ.value? q).isSome := by
        rwa [Slot.registers_place]
      have hstore := Instruction.perform_storeVar (r := r) (m := laneMask slot.lanes) hp'
        (hrs q (mem_cons_self ..))
      rw [Slot.resolve_place] at hstore
      set written := maskedLanes (laneMask slot.lanes) (σ.lanes q)
        (σ.memory.read (slot.place p).root (σ.resolve p ++ slot.path)) with hwritten
      set σ₁ := σ.write (slot.place p).root (σ.resolve p ++ slot.path) written with hσ₁
      have hother : ∀ v path, (v, path) ≠ (p.root, σ.resolve p ++ slot.path) →
          σ₁.memory.read v path = σ.memory.read v path := by
        intro v path hne
        exact Memory.read_write_of_ne hne
      rw [map_cons, nodup_cons] at hnodup
      obtain ⟨σ₂, hrest, hregisters, hslots, hframe⟩ := ih (r := r + 1)
        (show ∀ q ∈ p.registers, (σ₁.value? q).isSome from hp)
        (fun q' hq' => hrs q' (mem_cons_of_mem _ hq')) (by simpa using hlength) hnodup.2
      have hapart : ∀ slot' ∈ slots,
          (p.root, σ.resolve p ++ slot'.path) ≠ (p.root, σ.resolve p ++ slot.path) := by
        intro slot' hslot' heq
        apply hnodup.1
        rw [← append_cancel_left (Prod.mk.inj heq).2]
        exact mem_map_of_mem hslot'
      refine ⟨σ₂, (performAll_cons hstore).trans hrest, hregisters, .cons ?_ ?_, ?_⟩
      · have hkept := hframe p.root (σ.resolve p ++ slot.path) fun slot' hslot' =>
          (hapart slot' hslot').symm
        rw [hkept]
        exact Memory.read_write_self
      · refine ((List.forall₂_and_left slots rs).mpr ⟨hapart, hslots⟩).imp ?_
        rintro slot' q' ⟨hne, hread⟩
        rw [← hother _ _ hne]
        exact hread
      · intro v path hne
        rw [hframe v path fun slot' hslot' => hne slot' (mem_cons_of_mem _ hslot'),
          hother v path (hne slot (mem_cons_self ..))]

/-! ### Copies -/

/-- A copy moves each slot, and no slot outside of the target changes. What is copied may be the target
itself, but must not overlap it otherwise. -/
theorem performAll_copyCode (hdst : ∀ q ∈ dst.registers, (σ.value? q).isSome)
    (hsrc : ∀ q ∈ src.registers, (σ.value? q).isSome)
    (hapart : ∀ slot ∈ slots, ∀ slot' ∈ slots, (dst.root, σ.resolve dst ++ slot.path) =
      (src.root, σ.resolve src ++ slot'.path) → slot.path = slot'.path)
    (hnodup : (slots.map Slot.path).Nodup) :
    ∃ σ', performAll r (copyCode dst src slots) σ = .ok () σ' ∧
      (∀ slot ∈ slots, σ'.memory.read dst.root (σ.resolve dst ++ slot.path) =
        σ.memory.read src.root (σ.resolve src ++ slot.path)) ∧
      ∀ v path, (∀ slot ∈ slots, (v, path) ≠ (dst.root, σ.resolve dst ++ slot.path)) →
        σ'.memory.read v path = σ.memory.read v path := by
  induction slots generalizing r σ with
  | nil => exact ⟨σ, rfl, by simp, fun _ _ _ => rfl⟩
  | cons slot slots ih =>
    have hdst' : ∀ q ∈ (slot.place dst).registers, (σ.value? q).isSome := by
      rwa [Slot.registers_place]
    have hsrc' : ∀ q ∈ (slot.place src).registers, (σ.value? q).isSome := by
      rwa [Slot.registers_place]
    have hcopy := Instruction.perform_copyVar (r := r) hdst' hsrc'
    rw [Slot.resolve_place, Slot.resolve_place] at hcopy
    set σ₁ := σ.write (slot.place dst).root (σ.resolve dst ++ slot.path)
      (σ.memory.read (slot.place src).root (σ.resolve src ++ slot.path)) with hσ₁
    have hother : ∀ v path, (v, path) ≠ (dst.root, σ.resolve dst ++ slot.path) →
        σ₁.memory.read v path = σ.memory.read v path := by
      intro v path hne
      exact Memory.read_write_of_ne hne
    rw [map_cons, nodup_cons] at hnodup
    have hne : ∀ slot' ∈ slots, slot'.path ≠ slot.path := by
      grind
    obtain ⟨σ₂, hrest, hslots, hframe⟩ := ih (r := r + 1)
      (show ∀ q ∈ dst.registers, (σ₁.value? q).isSome from hdst) hsrc
      (fun a ha b hb => hapart a (mem_cons_of_mem _ ha) b (mem_cons_of_mem _ hb)) hnodup.2
    refine ⟨σ₂, (performAll_cons hcopy).trans hrest, ?_, ?_⟩
    · intro slot' hslot'
      rcases mem_cons.mp hslot' with rfl | hslot'
      · have hkept := hframe dst.root (σ.resolve dst ++ slot'.path) fun a ha heq =>
          hne a ha (append_cancel_left (Prod.mk.inj heq).2).symm
        rw [hkept]
        exact Memory.read_write_self
      · -- the slots that are still to be read were not written
        have hread := hother src.root (σ.resolve src ++ slot'.path) fun heq =>
          hne slot' hslot' (hapart slot (mem_cons_self ..) slot'
            (mem_cons_of_mem _ hslot') heq.symm).symm
        exact (hslots slot' hslot').trans hread
    · intro v path houtside
      rw [hframe v path fun slot' hslot' => houtside slot' (mem_cons_of_mem _ hslot'),
        hother v path (houtside slot (mem_cons_self ..))]

/-! ### A store and a load -/

theorem isPlain_of_mem_loadCode {i : Instruction} (hi : i ∈ loadCode uniform p r slots) :
    i.IsPlain := by
  induction slots generalizing r with
  | nil => cases hi
  | cons slot slots ih =>
    rcases mem_append.mp hi with hi | hi
    · unfold loadSlot at hi
      split at hi
      · simp only [mem_cons, not_mem_nil, or_false] at hi
        rcases hi with rfl | rfl | rfl <;> exact ⟨rfl, rfl⟩
      · obtain rfl := mem_singleton.mp hi
        exact ⟨rfl, rfl⟩
    · exact ih hi

theorem isPlain_of_mem_storeCode {i : Instruction} (hi : i ∈ storeCode p slots rs) : i.IsPlain := by
  rw [storeCode, ← map_uncurry_zip_eq_zipWith] at hi
  obtain ⟨⟨slot, q⟩, -, rfl⟩ := mem_map.mp hi
  exact ⟨rfl, rfl⟩

theorem isPlain_of_mem_copyCode {i : Instruction} (hi : i ∈ copyCode dst src slots) :
    i.IsPlain := by
  obtain ⟨slot, -, rfl⟩ := mem_map.mp hi
  exact ⟨rfl, rfl⟩

theorem of_forall₂_getElem? {α β : Type} {R : α → β → Prop} {l : List α} {l' : List β}
    (h : List.Forall₂ R l l') {k : Nat} {a : α} {b : β} (ha : l[k]? = some a) (hb : l'[k]? = some b) :
    R a b := by
  obtain ⟨hlt, rfl⟩ := List.getElem?_eq_some_iff.mp ha
  obtain ⟨hlt', rfl⟩ := List.getElem?_eq_some_iff.mp hb
  exact h.get hlt hlt'

/-- What a store and a load of the same slots do together. -/
theorem performAll_store_load (hslots : ∀ slot ∈ slots, slot.leaf.isRegister)
    (hnodup : (slots.map Slot.path).Nodup) (hp : ∀ q ∈ p.registers, (σ.value? q).isSome)
    (hlt : ∀ q ∈ p.registers, q < r) (hrs : ∀ q ∈ rs, (σ.value? q).isSome)
    (hlength : slots.length = rs.length)
    (hsize : r + (storeCode p slots rs).length +
      (loadCode uniform p (r + (storeCode p slots rs).length) slots).length ≤ σ.registers.size) :
    ∃ σ', performAll r (storeCode p slots rs ++
        loadCode uniform p (r + (storeCode p slots rs).length) slots) σ = .ok () σ' ∧
      (∀ (k : Nat) (slot : Slot) (q q' : Register), slots[k]? = some slot → rs[k]? = some q →
        (loadRegisters uniform (r + (storeCode p slots rs).length) slots)[k]? = some q' →
        ∃ l, σ'.value? q' = some l ∧ ∀ i < slot.lanes,
          l.get i = fetched uniform slot ((σ.lanes q).get i)) ∧
      ∀ v path, (∀ slot ∈ slots, (v, path) ≠ (p.root, σ.resolve p ++ slot.path)) →
        σ'.memory.read v path = σ.memory.read v path := by
  obtain ⟨σ₁, hstore, hregisters, hwritten, hframe⟩ := performAll_storeCode (r := r) hp hrs hlength
    hnodup
  have hdefined : ∀ q ∈ p.registers, (σ₁.value? q).isSome := by
    intro q hq
    rw [RunState.value?, hregisters]
    exact hp q hq
  have hresolve : σ₁.resolve p = σ.resolve p := by
    apply RunState.resolve_congr
    intro q _
    rw [hregisters]
  have hlt₁ : ∀ q ∈ p.registers, q < r + (storeCode p slots rs).length := by
    intro q hq
    exact Nat.lt_add_right _ (hlt q hq)
  obtain ⟨σ₂, hload, hmemory, hvalues⟩ := performAll_loadCode hslots hdefined hlt₁
    (by rwa [hregisters])
  rw [hresolve] at hvalues
  refine ⟨σ₂, (performAll_append hstore).trans hload, ?_, ?_⟩
  · intro k slot q q' hslot hq hq'
    obtain ⟨l, hl, hget⟩ := of_forall₂_getElem? hvalues hslot hq'
    refine ⟨l, hl, ?_⟩
    intro i hi
    have hle := Slot.lanes_le (hslots slot (mem_of_getElem? hslot))
    rw [hget i hi, of_forall₂_getElem? hwritten hslot hq, get_maskedLanes hle hi]
  · intro v path hne
    rw [hmemory, hframe v path hne]

theorem loadTree_eq {c : Context} {spot : Spot} {ty : TypeId} {s : Shape} (p : Place)
    (hs : c.module.types.shape? ty = some s) (h : c.module.types.Storable s) :
    ∃ t c', loadTree p ty spot c = .ok t c' ∧
      Loads spot p (c.module.types.slots s) c t.leaves c' ∧ t.Fits c'.module.types s :=
  loadTreeWithin_eq (.refl _) hs (h.within hs)

/-- A value of any type that is stored and loaded again comes back in the lanes that count, except
that booleans of a uniform become zero or all ones. No slot of another variable changes, and no slot
whose index path does not extend that of the place. -/
theorem store_then_load {c : Context} {b : BlockId} {p : Place} {ty : TypeId} {t : Tree} {s : Shape}
    (hb : b < c.function.blocks.size) (hs : c.module.types.shape? ty = some s)
    (hstorable : c.module.types.Storable s) (hfits : t.Fits c.module.types s)
    (hold : ∀ r ∈ t.leaves ++ p.registers, r < c.function.instructions.size) :
    ∃ c₁ t' c₂, storeTree p t (.append b) c = .ok () c₁ ∧ loadTree p ty (.append b) c₁ = .ok t' c₂ ∧
      t'.Fits c₂.module.types s ∧ t.leaves.length = (c.module.types.slots s).length ∧
      t'.leaves.length = (c.module.types.slots s).length ∧
      ∀ σ : RunState, c₂.function.instructions.size ≤ σ.registers.size →
        (∀ r ∈ t.leaves ++ p.registers, (σ.value? r).isSome) →
        ∃ σ', runSince c c₂ b σ = .ok none σ' ∧
          (∀ (k : Nat) (slot : Slot) (r r' : Register), (c.module.types.slots s)[k]? = some slot →
            t.leaves[k]? = some r → t'.leaves[k]? = some r' →
            ∃ l, σ'.value? r' = some l ∧ ∀ i < slot.lanes,
              l.get i = fetched (isUniform c p.root) slot ((σ.lanes r).get i)) ∧
          ∀ v path, v ≠ p.root ∨ ¬σ.resolve p <+: path →
            σ'.memory.read v path = σ.memory.read v path := by
  have hwithin := hstorable.within hs
  obtain ⟨hstore, hlength⟩ : storeTree p t (.append b) c = _ ∧ _ := storeTree_eq rfl hfits hwithin
  set stores := storeCode p (c.module.types.slots s) t.leaves
  set c₁ := c.withFunction (c.function.insertAll (.append b) stores)
  have hinserts₁ : Inserts (.append b) stores c c₁ := ⟨_, _, .refl _, rfl⟩
  obtain ⟨t', c₂, hload, ⟨hinserts₂, hleaves⟩, hfits'⟩ :
      ∃ t' c₂, loadTree p ty (.append b) c₁ = .ok t' c₂ ∧ _ := loadTree_eq p hs hstorable
  rw [hinserts₁.size] at hinserts₂ hleaves
  have hinserts := hinserts₁.trans hinserts₂
  refine ⟨c₁, t', c₂, hstore, hload, hfits', hlength.symm, ?_, ?_⟩
  · rw [hleaves]
    exact length_loadRegisters
  intro σ hsize hdefined
  have hp : ∀ q ∈ p.registers, (σ.value? q).isSome := by
    simp_all
  have hrs : ∀ q ∈ t.leaves, (σ.value? q).isSome := by
    intro q hq
    exact hdefined q (List.mem_append_left _ hq)
  have hlt : ∀ q ∈ p.registers, q < c.function.instructions.size := by
    intro q hq
    exact hold q (List.mem_append_right _ hq)
  rw [hinserts.size, List.length_append, ← Nat.add_assoc] at hsize
  obtain ⟨σ', hrun, hvalues, hframe⟩ := performAll_store_load
    (fun slot => Types.isRegister_of_mem_slotsWithin) hwithin.nodup hp hlt hrs hlength hsize
  refine ⟨σ', ?_, ?_, ?_⟩
  · rw [runSince_eq hb hinserts fun i hi => (List.mem_append.mp hi).elim isPlain_of_mem_storeCode
      isPlain_of_mem_loadCode]
    exact EStateM.bind_of_ok hrun
  · intro k slot r r' hslot hr hr'
    rw [hleaves] at hr'
    exact hvalues k slot r r' hslot hr hr'
  grind

/-- A uniform array of structures that hold a flag and a matrix, with code that has the index and the
parts of one element at hand. -/
def flaggedMatrices : Context where
  options := {}
  ids := .ofBound 0
  module :=
    { types := ⟨#[{ shape := .scalar .bool }, { shape := .vector .three .f32 },
        { shape := .matrix .two .three .f32 }, { shape := .struct [{ ty := 0 }, { ty := 2 }] },
        { shape := .array 3 4 }]⟩
      vars := #[{ ty := 4, mode := .uniform }] }
  function :=
    { instructions := #[.loadConst [2], .loadConst [7], .loadConst [1, 2, 3], .loadConst [4, 5, 6]]
      blocks := #[{ instructions := [0, 1, 2, 3] }] }

/-- The registers of `flaggedMatrices`, with room for a store and a load of an element. -/
def flaggedRegisters : RunState where
  registers := #[some (.ofWords [2]), some (.ofWords [7]), some (.ofWords [1, 2, 3]),
    some (.ofWords [4, 5, 6]), none, none, none, none, none, none, none, none]

/-- The element of `flaggedMatrices` with the index that is at hand. -/
def flaggedPlace : Place := ⟨0, [.element (.dynamic 0)]⟩

/-- The parts of an element of `flaggedMatrices` that are at hand. -/
def flaggedTree : Tree := .node 4 3 [.leaf 0 0 1, .node 3 2 [.leaf 1 1 2, .leaf 2 1 3]]

theorem store_then_load_flaggedMatrices :
    ∃ c₁ t' c₂ σ' r' l, storeTree flaggedPlace flaggedTree (.append 0) flaggedMatrices = .ok () c₁ ∧
      loadTree flaggedPlace 3 (.append 0) c₁ = .ok t' c₂ ∧
      runSince flaggedMatrices c₂ 0 flaggedRegisters = .ok none σ' ∧
      t'.leaves[0]? = some r' ∧ σ'.value? r' = some l ∧ l.x = 0xFFFFFFFF := by
  have hs : flaggedMatrices.module.types.shape? 3 = some (.struct [{ ty := 0 }, { ty := 2 }]) := rfl
  obtain ⟨c₁, t', c₂, hstore, hload, -, -, hlength, hrun⟩ := store_then_load
    (c := flaggedMatrices) (b := 0) (p := flaggedPlace) (t := flaggedTree) (by decide) hs
    ⟨3, by decide⟩ ⟨rfl, rfl, ⟨_, rfl, rfl, rfl⟩, ⟨_, rfl, rfl, rfl, ⟨_, rfl, rfl, rfl⟩,
      ⟨_, rfl, rfl, rfl⟩, trivial⟩, trivial⟩ (by decide)
  have hmade : (do storeTree flaggedPlace flaggedTree; loadTree flaggedPlace 3 : Emit Tree) (.append 0)
      flaggedMatrices = .ok t' c₂ := (Emit.bind_of_ok hstore).trans hload
  have hsize : c₂.function.instructions.size ≤ flaggedRegisters.registers.size :=
    Emit.size_le_of_ok hmade (by decide +kernel)
  obtain ⟨σ', hrun, hvalues, -⟩ := hrun flaggedRegisters hsize (by decide)
  have hfirst : 0 < t'.leaves.length := by
    rw [hlength]
    decide
  obtain ⟨l, hl, hget⟩ := hvalues 0 _ 1 _ rfl rfl (List.getElem?_eq_getElem hfirst)
  exact ⟨c₁, t', c₂, σ', _, l, hstore, hload, hrun, List.getElem?_eq_getElem hfirst, hl,
    hget 0 (by decide)⟩

end Spirv.Code

end ShaderIR
