import ShaderIR.Proofs.Lowering

/-!
# Failures and the meanings of ids

Only giving an id its meaning can find that the id is defined twice. A computation is quiet if, whatever
comes of it, no id gets a meaning and none is found to be defined twice; looking things up is.
-/

namespace ShaderIR.Spirv

open EStateM List

variable {α β : Type}

/-- The id that a failure says is defined twice. -/
def Error.redefined? : Error → Option Id
  | .idRedefined id => some id
  | _ => none

/-- An id has a meaning. -/
def Context.Knows (c : Context) (id : Id) : Prop := ∃ v, c.ids.get id = .ok v

/-- Ids have the meanings they had, and code was placed where it was. -/
structure Context.Still (c c' : Context) : Prop where
  ids : c'.ids = c.ids
  placed : c'.placed = c.placed

namespace Context.Still

variable {c c' c'' : Context}

protected theorem refl (c : Context) : c.Still c := ⟨rfl, rfl⟩

protected theorem trans (h : c.Still c') (h' : c'.Still c'') : c.Still c'' :=
  ⟨h'.ids.trans h.ids, h'.placed.trans h.placed⟩

theorem knows_iff (h : c.Still c') {id : Id} : c'.Knows id ↔ c.Knows id := by
  rw [Context.Knows, h.ids]
  rfl

end Context.Still

/-! ### Looking things up -/

/-- A look-up in the table of ids that finds no id to be defined twice. -/
class IdTable.Finds (f : IdTable → Except Error α) : Prop where
  redefined? : ∀ t e, f t = .error e → e.redefined? = none

namespace IdTable

instance finds_slot (id : Id) : Finds (·.slot id) where
  redefined? := by
    intro t e h
    change (match t.slots[id.toNat]? with | some s => _ | none => _) = _ at h
    split at h
    · cases h
    · cases h
      rfl

theorem Finds.bind {f : IdTable → Except Error α} {g : IdTable → α → Except Error β} (hf : Finds f)
    (hg : ∀ a, Finds (g · a)) : Finds fun t => f t >>= g t where
  redefined? := by
    intro t e h
    cases ha : f t with
    | error e' =>
      simp only [ha] at h
      cases h
      exact hf.redefined? t e ha
    | ok a =>
      simp only [ha] at h
      exact (hg a).redefined? t e h

theorem Finds.ok (a : α) : Finds fun _ => .ok a := ⟨fun _ _ h => by cases h⟩

theorem Finds.error {e : Error} (he : e.redefined? = none) :
    Finds fun _ => (.error e : Except Error α) := ⟨fun _ _ h => by cases h; exact he⟩

instance finds_get (id : Id) : Finds (·.get id) := by
  refine .bind (finds_slot id) fun s => ?_
  cases s.value with
  | some v => exact .ok v
  | none => exact .error rfl

instance finds_typeValue (id : Id) : Finds (·.typeValue id) := by
  refine .bind (finds_get id) fun v => ?_
  cases v with
  | type v => exact .ok v
  | _ => exact .error rfl

instance finds_constant (id : Id) : Finds (·.constant id) := by
  refine .bind (finds_get id) fun v => ?_
  cases v with
  | constant c => exact .ok c
  | _ => exact .error rfl

instance finds_constant? (id : Id) : Finds (·.constant? id) := by
  refine .bind (finds_get id) fun v => ?_
  cases v <;> exact .ok _

instance finds_pointer (id : Id) : Finds (·.pointer id) := by
  refine .bind (finds_get id) fun v => ?_
  cases v with
  | pointer p => exact .ok p
  | _ => exact .error rfl

instance finds_block (id : Id) : Finds (·.block id) := by
  refine .bind (finds_get id) fun v => ?_
  cases v with
  | block b => exact .ok b
  | _ => exact .error rfl

instance finds_extendedSet (id : Id) : Finds (·.extendedSet id) := by
  refine .bind (finds_get id) fun v => ?_
  cases v with
  | extensionImport s => exact .ok s
  | _ => exact .error rfl

theorem finds_mapM {f : β → IdTable → Except Error α} (hf : ∀ b, Finds (f b)) :
    ∀ l : List β, Finds fun t => l.mapM (f · t)
  | [] => by
    simp only [mapM_nil]
    exact .ok []
  | b :: l => by
    simp only [mapM_cons]
    exact (hf b).bind fun a => (finds_mapM hf l).bind fun as => .ok (a :: as)

theorem finds_expand (levels : Nat) (id : Id) (member : Option Word) : Finds (·.expand levels id member) := by
  induction levels generalizing id member with
  | zero => exact .error rfl
  | succ levels ih =>
    refine .bind (finds_slot id) fun s => ?_
    refine .bind (finds_mapM ?_ s.decorations) fun expanded => .ok _
    intro d
    cases d.item with
    | direct kind literals => exact .ok _
    | group group => exact ih group _

instance (id : Id) : Finds (·.decorations id) := finds_expand _ id none

end IdTable

/-- A computation only looks things up: it changes nothing, and no id is found to be defined twice. -/
class Lower.Peeks (m : Lower α) : Prop where
  looks : EStateM.Looks m
  error : ∀ ⦃c e c'⦄, m c = .error e c' → c' = c ∧ e.redefined? = none

namespace Lower

variable {m : Lower α}

instance (a : α) : Peeks (pure a : Lower α) := ⟨.pure a, fun _ _ _ h => by cases h⟩

instance : Peeks (get : Lower Context) := ⟨.get, fun _ _ _ h => by cases h⟩

theorem Peeks.throw {e : Error} (he : e.redefined? = none) : Peeks (throw e : Lower α) :=
  ⟨.throw e, fun _ _ _ h => by cases h; exact ⟨rfl, he⟩⟩

instance (why : Meaningless) : Peeks (meaningless why : Lower α) := .throw rfl

theorem along_peek {R : Context → Context → Prop} [Std.Refl R] [hm : Peeks m] : Along R m := .of_looks hm.looks

variable {f : α → Lower β}

theorem peek_eq_ok {c c' : Context} {b : β} [hm : Peeks m] :
    (m >>= f) c = .ok b c' ↔ ∃ a, m c = .ok a c ∧ f a c = .ok b c' := hm.looks.bind_eq_ok

theorem Peeks.bind [hm : Peeks m] (hf : ∀ a, Peeks (f a)) : Peeks (m >>= f) where
  looks := hm.looks.bind fun a => (hf a).looks
  error := by
    intro c e c' h
    rcases bind_eq_error.mp h with he | ⟨a, d, ha, he⟩
    · exact hm.error he
    · obtain rfl := hm.looks ha
      exact (hf a).error he

instance Peeks.mapM [∀ a, Peeks (f a)] : ∀ l : List α, Peeks (l.mapM f)
  | [] => by
    rw [mapM_nil]
    infer_instance
  | a :: l => by
    rw [mapM_cons]
    have := Peeks.mapM l
    exact .bind fun b => .bind fun bs => inferInstance

theorem Peeks.ofExcept {x : Except Error α} (hx : ∀ e, x = .error e → e.redefined? = none) :
    Peeks (ofExcept x) := by
  cases x with
  | ok a => exact inferInstanceAs (Peeks (pure a))
  | error e => exact .throw (hx e rfl)

instance {f : IdTable → Except Error α} [hf : IdTable.Finds f] : Peeks (lookup f) :=
  .bind fun c => .ofExcept (hf.redefined? c.ids)

instance (i : RawInstruction) (index : Nat) : Peeks (operand i index) := by
  refine .ofExcept fun e h => ?_
  unfold RawInstruction.operand at h
  split at h
  · cases h
  · cases h
    rfl

instance (id : Id) : Peeks (typeOf id) := .bind fun _ => inferInstance

instance (i : RawInstruction) (index : Nat) : Peeks (typeOperand i index) := .bind fun _ => inferInstance

instance (ty : TypeId) : Peeks (shape ty) := .bind fun _ => inferInstance

instance (ty : TypeId) : Peeks (lanes ty) := by
  refine .bind fun shape => ?_
  cases shape.lanes? <;> exact inferInstance

instance : Peeks typeDepth := .bind fun _ => inferInstance

instance (id : ConstantId) : Peeks (constant id) := .bind fun _ => inferInstance

instance (t : Tree) : Peeks (register t) := by
  unfold register
  cases t.register? <;> exact inferInstance

instance (r : Register) : Peeks (registerLanes r) := by
  refine .bind fun c => ?_
  cases c.function.instructions[r]? with
  | some i => exact inferInstance
  | none => exact .throw rfl

/-! ### Computations that give no id a meaning -/

/-- Whatever comes of a computation, no id gets a meaning, and none is found to be defined twice. -/
structure Quiet (m : Lower α) : Prop where
  ok : ∀ ⦃c a c'⦄, m c = .ok a c' → c.Still c'
  error : ∀ ⦃c e c'⦄, m c = .error e c' → c.Still c' ∧ e.redefined? = none

namespace Quiet

theorem of_peeks (hm : Peeks m) : Quiet m where
  ok := fun c _ _ h => by
    obtain rfl := hm.looks h
    exact .refl _
  error := fun c e _ h => by
    obtain ⟨rfl, he⟩ := hm.error h
    exact ⟨.refl _, he⟩

protected theorem pure (a : α) : Quiet (pure a : Lower α) := of_peeks inferInstance

protected theorem bind (hm : Quiet m) (hf : ∀ a, Quiet (f a)) : Quiet (m >>= f) where
  ok := fun c b c' h => by
    obtain ⟨a, d, ha, hb⟩ := bind_eq_ok.mp h
    exact (hm.ok ha).trans ((hf a).ok hb)
  error := fun c e c' h => by
    rcases bind_eq_error.mp h with he | ⟨a, d, ha, he⟩
    · exact hm.error he
    · exact ⟨(hm.ok ha).trans ((hf a).error he).1, ((hf a).error he).2⟩

protected theorem throw {e : Error} (he : e.redefined? = none) : Quiet (throw e : Lower α) := of_peeks (.throw he)

end Quiet

theorem quiet_insertAt (spot : Spot) (i : Instruction) : Quiet (insertAt spot i) where
  ok := fun c _ _ h => by
    obtain ⟨-, rfl⟩ := insertAt_eq_ok.mp h
    exact ⟨rfl, rfl⟩
  error := fun _ _ _ h => by cases h

end Lower

end ShaderIR.Spirv
