import ShaderIR.Proofs.Reading
import ShaderIR.Proofs.RoundTrip

/-!
# Copies against loads and stores

A copy and a load followed by a store leave the same in memory, except where the value holds booleans
of a uniform: a load brings them to zero or all ones, and a copy takes them as they are.
-/

namespace ShaderIR.Spirv.Code

open List

variable {uniform : Bool} {dst src : Place} {slot : Slot} {slots : List Slot} {r : Nat}
  {rs : List Register} {σ : RunState}

theorem exists_of_mem_loadRegisters {P : Slot → Register → Prop} {q : Register}
    (h : List.Forall₂ P slots rs) (hq : q ∈ rs) : ∃ slot, P slot q := by
  induction h with
  | nil => cases hq
  | cons hfirst _ ih =>
    grind

/-- What a load and a store of the same slots do together. -/
theorem performAll_load_store (hslots : ∀ slot ∈ slots, slot.leaf.isRegister)
    (hnodup : (slots.map Slot.path).Nodup)
    (hdst : ∀ q ∈ dst.registers, (σ.value? q).isSome) (hdst' : ∀ q ∈ dst.registers, q < r)
    (hsrc : ∀ q ∈ src.registers, (σ.value? q).isSome) (hsrc' : ∀ q ∈ src.registers, q < r)
    (hsize : r + (loadCode uniform src r slots).length ≤ σ.registers.size) :
    ∃ σ', performAll r (loadCode uniform src r slots ++
        storeCode dst slots (loadRegisters uniform r slots)) σ = .ok () σ' ∧
      ∀ slot ∈ slots, ∀ i < slot.lanes,
        (σ'.memory.read dst.root (σ.resolve dst ++ slot.path)).get i = fetched uniform slot
          ((σ.memory.read src.root (σ.resolve src ++ slot.path)).get i) := by
  obtain ⟨σ₁, hload, hmemory, hvalues⟩ := performAll_loadCode hslots hsrc hsrc' hsize
  have hold : ∀ q ∈ dst.registers, σ₁.registers[q]? = σ.registers[q]? := by
    intro q hq
    exact (performAll_keeps hload).2 q (.inl (hdst' q hq))
  have hdefined : ∀ q ∈ dst.registers, (σ₁.value? q).isSome := by
    intro q hq
    rw [RunState.value?_congr (hold q hq)]
    exact hdst q hq
  have hrs : ∀ q ∈ loadRegisters uniform r slots, (σ₁.value? q).isSome := by
    intro q hq
    obtain ⟨slot, l, hl, -⟩ := exists_of_mem_loadRegisters hvalues hq
    rw [hl]
    rfl
  obtain ⟨σ₂, hstore, -, hwritten, -⟩ := performAll_storeCode
    (r := r + (loadCode uniform src r slots).length) hdefined hrs length_loadRegisters.symm hnodup
  rw [RunState.resolve_congr hold] at hwritten
  refine ⟨σ₂, (performAll_append hload).trans hstore, ?_⟩
  intro slot hslot i hi
  obtain ⟨k, hlt, hslot'⟩ := List.getElem_of_mem hslot
  have hk : slots[k]? = some slot := List.getElem?_eq_some_iff.mpr ⟨hlt, hslot'⟩
  rw [← length_loadRegisters (r := r)] at hlt
  have hq := List.getElem?_eq_getElem hlt
  obtain ⟨l, hl, hget⟩ := of_forall₂_getElem? hvalues hk hq
  rw [of_forall₂_getElem? hwritten hk hq, get_maskedLanes (Slot.lanes_le (hslots slot hslot)) hi,
    RunState.lanes_of_value? hl, hget i hi]

theorem performAll_copyCode_undefined {q : Register} (hq : q ∈ dst.registers ++ src.registers)
    (hundefined : σ.value? q = none) :
    (performAll r (copyCode dst src slots) σ).state = σ := by
  cases slots with
  | nil => rfl
  | cons slot slots =>
    rw [← slot.registers_place dst, ← slot.registers_place src] at hq
    obtain ⟨e, he⟩ := Instruction.perform_copyVar_of_undefined (r := r) hq hundefined
    rw [copyCode, map_cons, performAll_cons_of_error he]
    rfl

/-- A load and a store through an index that is not defined leave memory as it is. -/
theorem performAll_load_store_undefined {q : Register} (hq : q ∈ dst.registers ++ src.registers)
    (hundefined : σ.value? q = none) (hslots : ∀ slot ∈ slots, slot.leaf.isRegister)
    (hdst : ∀ q ∈ dst.registers, q < r) (hsrc : ∀ q ∈ src.registers, q < r)
    (hsize : r + (loadCode uniform src r slots).length ≤ σ.registers.size) :
    (performAll r (loadCode uniform src r slots ++
      storeCode dst slots (loadRegisters uniform r slots)) σ).state.memory = σ.memory := by
  by_cases hdefined : ∀ q ∈ src.registers, (σ.value? q).isSome
  · -- everything is read, and the first write fails
    have hmem : q ∈ dst.registers := by
      grind
    obtain ⟨σ₁, hload, hmemory, -⟩ := performAll_loadCode hslots hdefined hsrc hsize
    rw [performAll_append hload]
    cases slots with
    | nil => exact hmemory
    | cons slot slots =>
      have hnone : σ₁.value? q = none := by
        rw [RunState.value?_congr ((performAll_keeps hload).2 q (.inl (hdst q hmem))), hundefined]
      rw [← slot.registers_place dst] at hmem
      obtain ⟨e, he⟩ := Instruction.perform_storeVar_of_undefined hmem hnone
      rw [loadRegisters, storeCode, zipWith_cons_cons, performAll_cons_of_error he]
      exact hmemory
  · -- the first read fails
    push Not at hdefined
    obtain ⟨q', hq', hnone⟩ := hdefined
    cases slots with
    | nil => rfl
    | cons slot slots =>
      rw [← slot.registers_place src] at hq'
      obtain ⟨e, he⟩ := Instruction.perform_loadVar_of_undefined hq' (by simpa using hnone)
      rw [loadCode, loadSlot, cons_append, cons_append, performAll_cons_of_error he]
      rfl

/-- Two places are the same location, or neither holds the other. -/
def SameOrApart (σ : RunState) (dst src : Place) : Prop :=
  dst.root = src.root ∧ σ.resolve dst = σ.resolve src ∨ (dst.root = src.root →
      ¬σ.resolve dst <+: σ.resolve src ∧ ¬σ.resolve src <+: σ.resolve dst)

theorem SameOrApart.path_eq {slot' : Slot} (h : SameOrApart σ dst src)
    (heq : (dst.root, σ.resolve dst ++ slot.path) = (src.root, σ.resolve src ++ slot'.path)) :
    slot.path = slot'.path := by
  obtain ⟨hroot, hpath⟩ := Prod.mk.inj heq
  rcases h with ⟨-, hsame⟩ | hapart
  · rw [hsame] at hpath
    exact append_cancel_left hpath
  · obtain ⟨hdst, hsrc⟩ := hapart hroot
    have hprefix : σ.resolve src <+: σ.resolve dst ++ slot.path := by
      rw [hpath]
      exact prefix_append ..
    rcases prefix_or_prefix_of_prefix (prefix_append ..) hprefix with h | h
    · exact (hdst h).elim
    · exact (hsrc h).elim

/-- A copy brings each slot of the source to the target as it is, and a load followed by a store brings
it there as a load makes it; the two agree on all but booleans of a uniform. Where an index is not
defined, neither changes memory. -/
theorem copy_against_load_store {c : Context} {b : BlockId} {i : RawInstruction} {target source : Id}
    {dst src : Pointer} {s : Shape} (hb : b < c.function.blocks.size)
    (htarget : i.operand 0 = .ok target) (hdst : c.ids.pointer target = .ok dst)
    (hsource : i.operand 1 = .ok source) (hsrc : c.ids.pointer source = .ok src)
    (hlanes : dst.lane = none ∧ src.lane = none)
    (hs : c.module.types.shape? src.ty = some s) (hstorable : c.module.types.Storable s)
    (hold : ∀ r ∈ dst.place.registers ++ src.place.registers, r < c.function.instructions.size) :
    ∃ c₁ t c₂ c₃, copyMemory i (.append b) c = .ok () c₁ ∧ loadTree src.place src.ty (.append b) c = .ok t c₂ ∧
      storeTree dst.place t (.append b) c₂ = .ok () c₃ ∧
      ∀ σ : RunState, c₃.function.instructions.size ≤ σ.registers.size →
        ((∀ r ∈ dst.place.registers ++ src.place.registers, (σ.value? r).isSome) →
          SameOrApart σ dst.place src.place →
          ∃ σ₁ σ₂, runSince c c₁ b σ = .ok none σ₁ ∧ runSince c c₃ b σ = .ok none σ₂ ∧
            ∀ slot ∈ c.module.types.slots s, ∀ i < slot.lanes,
              (σ₁.memory.read dst.place.root (σ.resolve dst.place ++ slot.path)).get i =
                (σ.memory.read src.place.root (σ.resolve src.place ++ slot.path)).get i ∧
              (σ₂.memory.read dst.place.root (σ.resolve dst.place ++ slot.path)).get i =
                fetched (isUniform c src.place.root) slot
                  ((σ.memory.read src.place.root (σ.resolve src.place ++ slot.path)).get i)) ∧
        ((∃ r ∈ dst.place.registers ++ src.place.registers, σ.value? r = none) →
          (runSince c c₁ b σ).state.memory = σ.memory ∧ (runSince c c₃ b σ).state.memory = σ.memory) := by
  have hwithin := hstorable.within hs
  obtain ⟨c₁, hcopy, hinserts₁⟩ := copyMemory_eq (.append b) htarget hdst hsource hsrc hlanes hs hstorable
  obtain ⟨t, c₂, hload, ⟨hinserts₂, hleaves⟩, hfits⟩ :
      ∃ t c₂, loadTree src.place src.ty (.append b) c = .ok t c₂ ∧ _ := loadTree_eq _ hs hstorable
  obtain ⟨hstore, -⟩ : storeTree dst.place t (.append b) c₂ = _ ∧ _ :=
    storeTree_eq rfl hfits (hwithin.mono hinserts₂.types (Nat.le_refl _))
  rw [hwithin.slotsWithin_eq hinserts₂.types, hleaves] at hstore
  set n := c.function.instructions.size
  set slots := c.module.types.slots s
  set loads := loadCode (isUniform c src.place.root) src.place n slots
  set stores := storeCode dst.place slots (loadRegisters (isUniform c src.place.root) n slots)
  set c₃ := c₂.withFunction (c₂.function.insertAll (.append b) stores)
  have hinserts₃ : Inserts (.append b) (loads ++ stores) c c₃ := hinserts₂.trans ⟨_, _, .refl _, rfl⟩
  have hslots : ∀ slot ∈ slots, slot.leaf.isRegister := fun _ => Types.isRegister_of_mem_slotsWithin
  have hdst' : ∀ q ∈ dst.place.registers, q < n := fun q hq => hold q (List.mem_append_left _ hq)
  have hsrc' : ∀ q ∈ src.place.registers, q < n := fun q hq => hold q (List.mem_append_right _ hq)
  refine ⟨c₁, t, c₂, c₃, hcopy, hload, hstore, ?_⟩
  intro σ hsize
  rw [hinserts₃.size, List.length_append] at hsize
  have hroom : n + loads.length ≤ σ.registers.size := by omega
  rw [runSince_eq hb hinserts₁ fun i => isPlain_of_mem_copyCode,
    runSince_eq hb hinserts₃ fun i hi => (List.mem_append.mp hi).elim isPlain_of_mem_loadCode
      isPlain_of_mem_storeCode]
  constructor
  · intro hdefined hapart
    have hdstDefined : ∀ q ∈ dst.place.registers, (σ.value? q).isSome := fun q hq =>
      hdefined q (List.mem_append_left _ hq)
    have hsrcDefined : ∀ q ∈ src.place.registers, (σ.value? q).isSome := fun q hq =>
      hdefined q (List.mem_append_right _ hq)
    obtain ⟨σ₁, hrun₁, hread₁, -⟩ := performAll_copyCode (r := n) hdstDefined hsrcDefined
      (fun _ _ _ _ => hapart.path_eq) hwithin.nodup
    obtain ⟨σ₂, hrun₂, hread₂⟩ := performAll_load_store hslots hwithin.nodup hdstDefined hdst'
      hsrcDefined hsrc' hroom
    refine ⟨σ₁, σ₂, EStateM.bind_of_ok hrun₁, EStateM.bind_of_ok hrun₂, ?_⟩
    intro slot hslot i hi
    rw [hread₁ slot hslot]
    exact ⟨rfl, hread₂ slot hslot i hi⟩
  · rintro ⟨q, hq, hundefined⟩
    rw [EStateM.state_bind_pure, EStateM.state_bind_pure, performAll_copyCode_undefined hq hundefined,
      performAll_load_store_undefined hq hundefined hslots hdst' hsrc' hroom]
    exact ⟨rfl, rfl⟩

/-- An element of the uniform of `flaggedMatrices` and a private structure of the same type, with ids
that point to them. -/
def flaggedPointers : Context := { flaggedMatrices with
    ids := ⟨#[{ value := some (.pointer ⟨⟨1, []⟩, 3, none⟩) },
      { value := some (.pointer ⟨flaggedPlace, 3, none⟩) }]⟩
    module := { flaggedMatrices.module with
      vars := #[{ ty := 4, mode := .uniform }, { ty := 3, mode := .global }] } }

/-- A state in which the flag of the element is set in one bit. -/
def flaggedMemory : RunState := { flaggedRegisters with memory := ({} : Memory).write 0 [2, 0] (.ofWords [1]) }

theorem copy_against_load_store_flaggedPointers : ∃ c₁ t c₂ c₃ σ₁ σ₂,
      copyMemory ⟨.opCopyMemory, 0, [0, 1]⟩ (.append 0) flaggedPointers = .ok () c₁ ∧
      loadTree flaggedPlace 3 (.append 0) flaggedPointers = .ok t c₂ ∧
      storeTree ⟨1, []⟩ t (.append 0) c₂ = .ok () c₃ ∧
      runSince flaggedPointers c₁ 0 flaggedMemory = .ok none σ₁ ∧
      runSince flaggedPointers c₃ 0 flaggedMemory = .ok none σ₂ ∧
      (σ₁.memory.read 1 [0]).get 0 = 1 ∧ (σ₂.memory.read 1 [0]).get 0 = 0xFFFFFFFF := by
  have hs : flaggedPointers.module.types.shape? 3 = some (.struct [{ ty := 0 }, { ty := 2 }]) := rfl
  have hdst : flaggedPointers.ids.pointer 0 = .ok ⟨⟨1, []⟩, 3, none⟩ := rfl
  have hsrc : flaggedPointers.ids.pointer 1 = .ok ⟨flaggedPlace, 3, none⟩ := rfl
  obtain ⟨c₁, t, c₂, c₃, hcopy, hload, hstore, hrun⟩ := copy_against_load_store (b := 0)
    (i := ⟨.opCopyMemory, 0, [0, 1]⟩) (by decide) rfl hdst rfl hsrc ⟨rfl, rfl⟩ hs ⟨3, by decide⟩
    (by decide)
  dsimp only at hload hstore hrun
  have hmade : (do storeTree ⟨1, []⟩ (← loadTree flaggedPlace 3) : Emit Unit) (.append 0) flaggedPointers =
      .ok () c₃ := (Emit.bind_of_ok hload).trans hstore
  have hsize : c₃.function.instructions.size ≤ flaggedMemory.registers.size :=
    Emit.size_le_of_ok hmade (by decide +kernel)
  obtain ⟨σ₁, σ₂, hrun₁, hrun₂, hslots⟩ := (hrun flaggedMemory hsize).1 (by decide)
    (.inr fun hroot => by cases hroot)
  obtain ⟨hcopied, hstored⟩ := hslots ⟨[⟨true, 0⟩], .scalar .bool⟩ (by decide) 0 (by decide)
  exact ⟨c₁, t, c₂, c₃, σ₁, σ₂, hcopy, hload, hstore, hrun₁, hrun₂, hcopied, hstored⟩

/-- A uniform flag that is copied to one variable, and loaded and stored to another. -/
def copiedFlag : List Word := [0x07230203, 99, 0, 12, 0,
   0x00020013, 1, 0x00020014, 2, 0x00040020, 3, 0, 2, 0x00040020, 4, 6, 2, 0x00030021, 5, 1,
   0x0004003b, 3, 6, 0, 0x0004003b, 4, 7, 6, 0x0004003b, 4, 8, 6, 0x00050036, 1, 9, 0, 5,
   0x000200f8, 10, 0x0003003f, 7, 6, 0x0004003d, 2, 11, 6, 0x0003003e, 8, 11, 0x000100fd,
   0x00010038]

/-- A copy does not agree with a load and a store: a flag of a uniform that is set in one bit stays so
in a copy, and has all bits set after a load. -/
theorem copy_differs_from_load_store :
    ∃ memory, runFirst copiedFlag (({} : Memory).write 0 [] (.ofWords [1])) = some (none, memory) ∧
      memory.read 1 [] = .ofWords [1] ∧ memory.read 2 [] = .ofWords [0xFFFFFFFF] := by
  have h : ∃ r ∈ runFirst copiedFlag (({} : Memory).write 0 [] (.ofWords [1])), r.1 = none ∧
      r.2.read 1 [] = .ofWords [1] ∧ r.2.read 2 [] = .ofWords [0xFFFFFFFF] := by decide +kernel
  simp_all

end ShaderIR.Spirv.Code
