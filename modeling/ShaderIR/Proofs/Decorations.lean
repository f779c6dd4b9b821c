import ShaderIR.Proofs.Declarations

/-!
# Decorations and groups

Annotations record decorations on ids one after another, and some of these are references to groups.
Resolving the decorations of an id puts the decorations of a group in the place of every reference to
it. What this comes to is told here from the instructions alone, and so is when it fails: references
may form chains of any length, also endless ones, and a chain of nine is too long.
-/

namespace ShaderIR.Spirv

open EStateM List Lower

/-! ### What annotations record -/

namespace RawInstruction

/-- A decoration with its number and literals, unless the number means nothing. -/
def directRecord (target : Id) (member : Option Word) (number : Word) (literals : List Word) :
    List (Id × Decoration) :=
  match DecorationKind.ofNumber? number.toNat with
  | some kind => [(target, { member, item := .direct kind literals })]
  | none => []

/-- The decorations that an annotation records, each with the id it is recorded on, in order. -/
def records (i : RawInstruction) : List (Id × Decoration) :=
  match i.op, i.operands with
  | .opDecorate, target :: number :: literals => directRecord target none number literals
  | .opMemberDecorate, target :: member :: number :: literals =>
    directRecord target (some member) number literals
  | .opGroupDecorate, group :: targets =>
    targets.map fun target => (target, { member := none, item := .group group })
  | .opGroupMemberDecorate, group :: _ =>
    ((i.pairsFrom 1).toOption.getD []).map fun (target, member) =>
      (target, { member := some member, item := .group group })
  | _, _ => []

end RawInstruction

/-- Those of some records that are on an id. -/
def recordsOn (records : List (Id × Decoration)) (id : Id) : List Decoration :=
  (records.filter (·.1 = id)).map (·.2)

/-- The decorations that annotations record on an id, in order. -/
def recordedOn (is : List RawInstruction) (id : Id) : List Decoration :=
  recordsOn (is.flatMap RawInstruction.records) id

theorem recordsOn_append (rs rs' : List (Id × Decoration)) (id : Id) :
    recordsOn (rs ++ rs') id = recordsOn rs id ++ recordsOn rs' id := by
  simp [recordsOn]

/-! ### What is recorded in a table -/

namespace IdTable

/-- The decorations that are recorded on an id. -/
def recorded (t : IdTable) (id : Id) : List Decoration := ((t.slots[id.toNat]?).map (·.decorations)).getD []

/-- A table has records beyond those of another. They are on ids below the bound and refer to groups
below the bound. -/
structure Gains (t : IdTable) (rs : List (Id × Decoration)) (t' : IdTable) : Prop where
  bound : t'.bound = t.bound
  recorded : ∀ id, t'.recorded id = t.recorded id ++ recordsOn rs id
  groups : ∀ r ∈ rs, ∀ group, r.2.item = .group group → group.toNat < t.bound

variable {t t' t'' : IdTable} {id : Id} {rs rs' : List (Id × Decoration)}

theorem slot_of_lt (h : id.toNat < t.bound) : ∃ s, t.slot id = .ok s ∧ s.decorations = t.recorded id := by
  obtain ⟨s, hs⟩ : ∃ s, t.slots[id.toNat]? = some s := ⟨_, Array.getElem?_eq_getElem h⟩
  refine ⟨s, ?_, ?_⟩
  · rw [slot, hs]
  · rw [recorded, hs]
    rfl

theorem recorded_ofBound (bound : Nat) (id : Id) : (ofBound bound).recorded id = [] := by
  unfold recorded ofBound
  by_cases h : id.toNat < bound <;> simp [h]

theorem bound_ofBound (bound : Nat) : (ofBound bound).bound = bound := by
  simp [ofBound, IdTable.bound]

theorem update_eq_ok {f : IdSlot → IdSlot} (h : t.update id f = .ok t') :
    ∃ s, t.slots[id.toNat]? = some s ∧ t' = ⟨t.slots.setIfInBounds id.toNat (f s)⟩ := by
  unfold update at h
  grind

namespace Gains

protected theorem refl (t : IdTable) : Gains t [] t where
  bound := rfl
  recorded := by simp [recordsOn]
  groups := by simp

protected theorem trans (h : Gains t rs t') (h' : Gains t' rs' t'') : Gains t (rs ++ rs') t'' where
  bound := h'.bound.trans h.bound
  recorded := by
    intro id
    rw [h'.recorded, h.recorded, recordsOn_append, append_assoc]
  groups := by
    intro r hr group hgroup
    rcases mem_append.mp hr with hr | hr
    · exact h.groups r hr group hgroup
    · rw [← h.bound]
      exact h'.groups r hr group hgroup

theorem update {f : IdSlot → IdSlot} (hf : ∀ s, (f s).decorations = s.decorations)
    (h : t.update id f = .ok t') : Gains t [] t' := by
  obtain ⟨s, hs, rfl⟩ := update_eq_ok h
  obtain ⟨hlt, hget⟩ := Array.getElem?_eq_some_iff.mp hs
  constructor
  · simp [IdTable.bound]
  · intro other
    by_cases hid : id.toNat = other.toNat
    · simp [IdTable.recorded, recordsOn, ← hid, hlt, hf, hget]
    · simp [IdTable.recorded, recordsOn, Array.getElem?_setIfInBounds_ne hid]
  · simp

theorem define {v : Value} (h : t.define id v = .ok t') : Gains t [] t' := by
  unfold IdTable.define at h
  cases hs : t.slot id with
  | error e => simp [hs, bind, Except.bind] at h
  | ok s =>
    simp only [hs, bind, Except.bind] at h
    split at h
    · cases h
    · exact .update (f := fun s => { s with value := some v }) (fun _ => rfl) h

theorem decorate {d : Decoration} (hd : ∀ group, d.item = .group group → group.toNat < t.bound)
    (h : t.decorate id d = .ok t') : Gains t [(id, d)] t' := by
  obtain ⟨s, hs, rfl⟩ := update_eq_ok h
  obtain ⟨hlt, hget⟩ := Array.getElem?_eq_some_iff.mp hs
  constructor
  · simp [IdTable.bound]
  · intro other
    by_cases hid : id = other
    · subst hid
      simp [IdTable.recorded, recordsOn, hlt, hget]
    · have hne : id.toNat ≠ other.toNat := fun heq => hid (UInt32.toNat_inj.mp heq)
      simp [IdTable.recorded, recordsOn, Array.getElem?_setIfInBounds_ne hne, hid]
  · simpa using hd

end Gains

end IdTable

/-! ### What annotations do to the table -/

namespace Lower

variable {c c' : Context} {α : Type}

theorem gains_forM (record : α → Id × Decoration) {l : List α}
    (hl : ∀ a ∈ l, ∀ group, (record a).2.item = .group group → group.toNat < c.ids.bound)
    (h : l.forM (fun a => updateIds (·.decorate (record a).1 (record a).2)) c = .ok () c') :
    c.ids.Gains (l.map record) c'.ids := by
  induction l generalizing c with
  | nil =>
    obtain ⟨-, rfl⟩ := pure_eq_ok.mp h
    exact .refl _
  | cons a l ih =>
    obtain ⟨_, c₁, ha, hrest⟩ := bind_eq_ok.mp h
    obtain ⟨ids, hids, rfl⟩ := updateIds_eq_ok.mp ha
    have hfirst := IdTable.Gains.decorate (hl a (mem_cons_self ..)) hids
    refine hfirst.trans (ih ?_ hrest)
    intro b hb group hgroup
    rw [hfirst.bound]
    exact hl b (mem_cons_of_mem a hb) group hgroup

end Lower

namespace RawInstruction

theorem drop_of_operand {i : RawInstruction} {index : Nat} {w : Word} (h : i.operand index = .ok w) :
    i.operands.drop index = w :: i.operandsFrom (index + 1) := by
  unfold operand at h
  cases hw : i.operands[index]? with
  | none => simp [hw] at h
  | some w' =>
    simp only [hw, Except.ok.injEq] at h
    obtain ⟨hlt, hget⟩ := List.getElem?_eq_some_iff.mp hw
    rw [List.drop_eq_getElem_cons hlt, hget, h, operandsFrom]

end RawInstruction

namespace Declaration

variable {i : RawInstruction} {c c' : Context}

theorem gains_recordDecoration {target : Id} {member : Option Word} {index : Nat}
    (h : recordDecoration i target member index c = .ok () c') :
    ∃ number literals, i.operands.drop index = number :: literals ∧
      c.ids.Gains (RawInstruction.directRecord target member number literals) c'.ids := by
  obtain ⟨number, hnumber, h'⟩ := peek_eq_ok.mp h
  refine ⟨number, _, RawInstruction.drop_of_operand (operand_eq_ok.mp hnumber).1, ?_⟩
  unfold RawInstruction.directRecord
  cases hkind : DecorationKind.ofNumber? number.toNat with
  | none =>
    simp only [hkind] at h'
    obtain rfl := report_eq_ok.mp h'
    exact .refl _
  | some kind =>
    simp only [hkind] at h'
    obtain ⟨ids, hids, rfl⟩ := updateIds_eq_ok.mp h'
    exact .decorate (by simp) hids

theorem lt_bound_of_checkGroup {t : IdTable} {group : Id} (h : t.checkGroup group = .ok ()) :
    group.toNat < t.bound := by
  unfold IdTable.checkGroup at h
  cases hv : t.get group with
  | error e => simp [hv, bind, Except.bind] at h
  | ok v =>
    obtain ⟨s, hs, -⟩ := IdTable.get_eq_ok.mp hv
    exact (Array.getElem?_eq_some_iff.mp hs).1

theorem annotation_gains (i : RawInstruction) :
    EStateM.Along (fun c c' => c.ids.Gains i.records c'.ids) ( annotation i) := by
  unfold annotation
  split
  case h_1 hop =>
    intro c _ c' h
    obtain ⟨target, htarget, h⟩ := peek_eq_ok.mp h
    obtain ⟨number, literals, hdrop, hgains⟩ := gains_recordDecoration h
    have hoperands := RawInstruction.drop_of_operand (operand_eq_ok.mp htarget).1
    rw [drop_zero, RawInstruction.operandsFrom, hdrop] at hoperands
    simpa only [RawInstruction.records, hop, hoperands] using hgains
  case h_2 hop =>
    intro c _ c' h
    obtain ⟨target, htarget, h⟩ := peek_eq_ok.mp h
    obtain ⟨member, hmember, h⟩ := peek_eq_ok.mp h
    obtain ⟨number, literals, hdrop, hgains⟩ := gains_recordDecoration h
    have hoperands := RawInstruction.drop_of_operand (operand_eq_ok.mp htarget).1
    rw [drop_zero, RawInstruction.operandsFrom, RawInstruction.drop_of_operand (operand_eq_ok.mp hmember).1,
      RawInstruction.operandsFrom, hdrop] at hoperands
    simpa only [RawInstruction.records, hop, hoperands] using hgains
  case h_3 hop =>
    intro c _ c' h
    obtain ⟨id, -, h⟩ := peek_eq_ok.mp h
    obtain ⟨ids, hids, rfl⟩ := define_eq_ok.mp h
    simpa only [RawInstruction.records, hop] using IdTable.Gains.define hids
  case h_4 hop =>
    intro c _ c' h
    obtain ⟨group, hgroup, h⟩ := peek_eq_ok.mp h
    obtain ⟨_, hcheck, h⟩ := (looks_lookup _).bind_eq_ok.mp h
    have hlt := lt_bound_of_checkGroup (lookup_eq_ok.mp hcheck).1
    have hgains := gains_forM (fun target => (target, ⟨none, .group group⟩)) (by simpa using fun _ _ => hlt) h
    have hoperands := RawInstruction.drop_of_operand (operand_eq_ok.mp hgroup).1
    rw [drop_zero] at hoperands
    simpa only [RawInstruction.records, hop, hoperands] using hgains
  case h_5 hop =>
    intro c _ c' h
    obtain ⟨group, hgroup, h⟩ := peek_eq_ok.mp h
    obtain ⟨_, hcheck, h⟩ := (looks_lookup _).bind_eq_ok.mp h
    obtain ⟨targets, htargets, h⟩ := (looks_ofExcept _).bind_eq_ok.mp h
    have hlt := lt_bound_of_checkGroup (lookup_eq_ok.mp hcheck).1
    have hgains := gains_forM (fun (target, member) => (target, ⟨some member, .group group⟩))
      (by simpa using fun _ _ _ => hlt) h
    have hoperands := RawInstruction.drop_of_operand (operand_eq_ok.mp hgroup).1
    have hpairs := (ofExcept_eq_ok.mp htargets).1
    rw [drop_zero] at hoperands
    simp only [RawInstruction.records, hop, hoperands, hpairs]
    exact hgains
  case h_6 => exact .throw _

theorem gains_annotations {is : List RawInstruction} (h : is.forM annotation c = .ok () c') :
    c.ids.Gains (is.flatMap RawInstruction.records) c'.ids := by
  induction is generalizing c with
  | nil =>
    obtain ⟨-, rfl⟩ := pure_eq_ok.mp h
    exact .refl _
  | cons i is ih =>
    obtain ⟨_, c₁, hi, his⟩ := bind_eq_ok.mp h
    exact (annotation_gains i hi).trans (ih his)

end Declaration

/-! ### Chains of references and what they expand to -/

section

variable {on : Id → List Decoration} {id group : Id} {n : Nat}

/-- A reference to a group is recorded on an id. -/
def RefersTo (on : Id → List Decoration) (id group : Id) : Prop :=
  ∃ member, { member, item := .group group } ∈ on id

/-- A chain of `n` references to groups starts at an id. -/
inductive GroupChain (on : Id → List Decoration) : Nat → Id → Prop
  | here (id : Id) : GroupChain on 0 id
  | next {n : Nat} {id group : Id} (h : RefersTo on id group) (rest : GroupChain on n group) :
      GroupChain on (n + 1) id

theorem GroupChain.of_cycle (hcycle : Relation.TransGen (RefersTo on) group group)
    (h : Relation.TransGen (RefersTo on) id group) (n : Nat) : GroupChain on n id := by
  induction n generalizing id with
  | zero => exact .here id
  | succ n ih =>
    obtain ⟨next, hnext, hrest⟩ := Relation.TransGen.head'_iff.mp h
    exact .next hnext (ih (Relation.TransGen.trans_right hrest hcycle))

/-- The first member that is named. -/
def nearest (members : List (Option Word)) : Option Word := members.findSome? fun member => member

theorem nearest_cons (member : Option Word) (members : List (Option Word)) :
    nearest (member :: members) = member.or (nearest members) := by
  cases member <;> rfl

/-- The decorations that take the place of some decorations once every reference is replaced by what
is recorded on its group. What the references on the way say about the member is kept in `members`,
the nearest first: a decoration without a member of its own has that of the nearest one that has one. -/
inductive Expands (on : Id → List Decoration) :
    (members : List (Option Word)) → List Decoration → List ResolvedDecoration → Prop
  | nil {members} : Expands on members [] []
  | direct {members member kind literals ds out} (rest : Expands on members ds out) :
      Expands on members ({ member, item := .direct kind literals } :: ds)
        ({ member := nearest (member :: members), kind, literals } :: out)
  | group {members member group ds inner out}
      (inside : Expands on (member :: members) (on group) inner) (rest : Expands on members ds out) :
      Expands on members ({ member, item := .group group } :: ds) (inner ++ out)

theorem Expands.unique {members : List (Option Word)} {ds : List Decoration}
    {out out' : List ResolvedDecoration} (h : Expands on members ds out)
    (h' : Expands on members ds out') : out = out' := by
  induction h generalizing out' with
  | nil =>
    cases h'
    rfl
  | direct _ ih =>
    cases h' with
    | direct rest => rw [ih rest]
  | group _ _ ihinside ihrest =>
    cases h' with
    | group inside rest => rw [ihinside inside, ihrest rest]

end

/-! ### Resolving -/

namespace IdTable

/-- What becomes of one decoration where `levels` levels are left behind it. -/
def expandItem (t : IdTable) (levels : Nat) (member : Option Word) (d : Decoration) :
    Except Error (List ResolvedDecoration) :=
  match d.item with
  | .direct kind literals => .ok [{ member := d.member.or member, kind, literals }]
  | .group group => t.expand levels group (d.member.or member)

variable {t : IdTable} {on : Id → List Decoration} {levels : Nat} {id : Id}
  {member : Option Word} {members : List (Option Word)} {ds : List Decoration}

theorem expand_succ (h : id.toNat < t.bound) : t.expand (levels + 1) id member =
      (List.flatten <$> (t.recorded id).mapM (t.expandItem levels member)) := by
  obtain ⟨s, hs, hrecorded⟩ := slot_of_lt h
  rw [expand, hs, ← hrecorded]
  rfl

theorem mapM_expandItem_error {d : Decoration} {e : Error} (hd : d ∈ ds)
    (h : t.expandItem levels member d = .error e) :
    ∃ e', ds.mapM (t.expandItem levels member) = .error e' := by
  induction ds with
  | nil => cases hd
  | cons d' ds ih =>
    rw [mapM_cons]
    cases hd' : t.expandItem levels member d' with
    | error e' => exact ⟨e', rfl⟩
    | ok out =>
      have hne : d ≠ d' := by
        rintro rfl
        simp [h] at hd'
      obtain ⟨e', he'⟩ := ih ((mem_cons.mp hd).resolve_left hne)
      exact ⟨e', by rw [he']; rfl⟩

/-- A row of decorations each of which can be expanded expands to what they expand to one after
another. -/
theorem mapM_expandItem_ok (h : ∀ d ∈ ds, ∀ group, d.item = .group group → ∃ out,
      t.expand levels group (nearest (d.member :: members)) = .ok out ∧
        Expands on (d.member :: members) (on group) out) :
    ∃ outs, ds.mapM (t.expandItem levels (nearest members)) = .ok outs ∧ Expands on members ds outs.flatten := by
  induction ds with
  | nil => exact ⟨[], rfl, .nil⟩
  | cons d ds ih =>
    obtain ⟨outs, houts, hexpands⟩ := ih fun d' hd' => h d' (mem_cons_of_mem d hd')
    obtain ⟨member, item⟩ := d
    rw [mapM_cons, houts]
    cases item with
    | direct kind literals =>
      refine ⟨_, rfl, ?_⟩
      rw [flatten_cons, ← nearest_cons]
      exact .direct hexpands
    | group group =>
      obtain ⟨out, hout, hinside⟩ := h _ (mem_cons_self ..) group rfl
      have hitem : t.expandItem levels (nearest members) ⟨member, .group group⟩ = .ok out := by
        rwa [nearest_cons] at hout
      refine ⟨out :: outs, ?_, .group hinside hexpands⟩
      rw [hitem]
      rfl

theorem expand_of_groupChain (hbound : ∀ id group, RefersTo t.recorded id group → group.toNat < t.bound)
    (hid : id.toNat < t.bound) (h : GroupChain t.recorded levels id) :
    ∃ e, t.expand levels id member = .error e := by
  induction levels generalizing id member with
  | zero => exact ⟨_, rfl⟩
  | succ levels ih =>
    cases h with
    | next hrefers hrest =>
      obtain ⟨own, hmem⟩ := hrefers
      obtain ⟨e, he⟩ : ∃ e, t.expand levels _ (own.or member) = .error e := ih (hbound _ _ ⟨own, hmem⟩) hrest
      obtain ⟨e', he'⟩ := mapM_expandItem_error (t := t) hmem he
      refine ⟨e', ?_⟩
      rw [expand_succ hid, he']
      rfl

/-- Where no chain of references is too long, references are replaced by what is recorded on their
groups. -/
theorem expand_of_not_groupChain (members : List (Option Word))
    (hbound : ∀ id group, RefersTo t.recorded id group → group.toNat < t.bound)
    (hid : id.toNat < t.bound) (h : ¬GroupChain t.recorded levels id) :
    ∃ out, t.expand levels id (nearest members) = .ok out ∧ Expands t.recorded members (t.recorded id) out := by
  induction levels generalizing id members with
  | zero => exact (h (.here id)).elim
  | succ levels ih =>
    have hitems : ∀ d ∈ t.recorded id, ∀ group, d.item = .group group → ∃ out,
        t.expand levels group (nearest (d.member :: members)) = .ok out ∧
          Expands t.recorded (d.member :: members) (t.recorded group) out := by
      intro d hd group hgroup
      have hrefers : RefersTo t.recorded id group := ⟨d.member, by rwa [← hgroup]⟩
      exact ih _ (hbound _ _ hrefers) fun hrest => h (.next hrefers hrest)
    obtain ⟨outs, houts, hexpands⟩ := mapM_expandItem_ok hitems
    refine ⟨outs.flatten, ?_, hexpands⟩
    rw [expand_succ hid, houts]
    rfl

end IdTable

/-! ### Decorations that annotations have recorded -/

theorem RefersTo.mem_records {is : List RawInstruction} {id group : Id} (h : RefersTo (recordedOn is) id group) :
    ∃ r ∈ is.flatMap RawInstruction.records, r.2.item = .group group := by
  obtain ⟨member, hmem⟩ := h
  obtain ⟨r, hr, heq⟩ := mem_map.mp hmem
  refine ⟨r, (mem_filter.mp hr).1, ?_⟩
  rw [heq]

/-- Once annotations have been handled, the decorations of an id cannot be resolved exactly if a chain
of nine references to groups starts at it, and one does if references lead into a cycle. Otherwise they
are what is recorded on the id, in order, with what is recorded on the group in the place of every
reference. -/
theorem decorations_expand {bound : Nat} {is : List RawInstruction} {c c' : Context} {id : Id}
    (hids : c.ids = .ofBound bound) (h : is.forM Declaration.annotation c = .ok () c')
    (hid : id.toNat < bound) :
    ((∃ e, c'.ids.decorations id = .error e) ↔ GroupChain (recordedOn is) 9 id) ∧
      (∀ group, Relation.ReflTransGen (RefersTo (recordedOn is)) id group →
        Relation.TransGen (RefersTo (recordedOn is)) group group → GroupChain (recordedOn is) 9 id) ∧
      ∀ out, c'.ids.decorations id = .ok out ↔ ¬GroupChain (recordedOn is) 9 id ∧
        Expands (recordedOn is) [] (recordedOn is id) out := by
  have hgains := Declaration.gains_annotations h
  have hbound : c'.ids.bound = bound := by
    rw [hgains.bound, hids, IdTable.bound_ofBound]
  have hrecorded : c'.ids.recorded = recordedOn is := by
    funext id'
    rw [hgains.recorded, hids, IdTable.recorded_ofBound, List.nil_append]
    rfl
  have hgroups : ∀ id group, RefersTo c'.ids.recorded id group → group.toNat < c'.ids.bound := by
    intro id' group hrefers
    rw [hrecorded] at hrefers
    obtain ⟨r, hr, hitem⟩ := hrefers.mem_records
    rw [hgains.bound]
    exact hgains.groups r hr group hitem
  rw [← hbound] at hid
  have hfails : GroupChain (recordedOn is) 9 id → ∃ e, c'.ids.decorations id = .error e := by
    rw [← hrecorded]
    exact IdTable.expand_of_groupChain hgroups hid
  have hsucceeds : ¬GroupChain (recordedOn is) 9 id → ∃ out, c'.ids.decorations id = .ok out ∧
      Expands (recordedOn is) [] (recordedOn is id) out := by
    rw [← hrecorded]
    exact IdTable.expand_of_not_groupChain [] hgroups hid
  refine ⟨⟨?_, hfails⟩, ?_, ?_⟩
  · grind
  · intro group hreaches hcycle
    exact .of_cycle hcycle (Relation.TransGen.trans_right hreaches hcycle) 9
  · intro out
    constructor
    · intro hout
      simp_all
    · rintro ⟨hchain, hexpands⟩
      obtain ⟨out', hout', hexpands'⟩ := hsucceeds hchain
      rw [hout', hexpands'.unique hexpands]

/-- A group with a location that is given to a member of another group, which is given to an id with
decorations of its own; and a group that is given to itself. -/
def nestedGroups : List RawInstruction :=
  [⟨.opDecorationGroup, 0, [1]⟩, ⟨.opDecorate, 0, [1, 30, 7]⟩, ⟨.opDecorationGroup, 0, [2]⟩,
   ⟨.opGroupMemberDecorate, 0, [1, 2, 5]⟩, ⟨.opDecorate, 0, [3, 33, 4]⟩, ⟨.opGroupDecorate, 0, [2, 3]⟩,
   ⟨.opMemberDecorate, 0, [3, 0, 35, 8]⟩, ⟨.opDecorationGroup, 0, [4]⟩, ⟨.opGroupDecorate, 0, [4, 4]⟩]

/-- The table that `nestedGroups` fills. -/
def nestedTable? : Option IdTable :=
  match nestedGroups.forM Declaration.annotation { options := {}, ids := .ofBound 5 } with
  | .ok _ c => some c.ids
  | .error _ _ => none

theorem decorations_expand_nestedGroups :
    ∃ c', nestedGroups.forM Declaration.annotation { options := {}, ids := .ofBound 5 } = .ok () c' ∧
      Expands (recordedOn nestedGroups) [] (recordedOn nestedGroups 3)
        [⟨none, .binding, [4]⟩, ⟨some 5, .location, [7]⟩, ⟨some 0, .offset, [8]⟩] ∧
      ∃ e, c'.ids.decorations 4 = .error e := by
  have hthree : nestedTable?.bind (fun t => (t.decorations 3).toOption) =
      some [⟨none, .binding, [4]⟩, ⟨some 5, .location, [7]⟩, ⟨some 0, .offset, [8]⟩] := by
    decide +kernel
  unfold nestedTable? at hthree
  cases hrun : nestedGroups.forM Declaration.annotation { options := {}, ids := .ofBound 5 } with
  | error e c =>
    simp only [hrun] at hthree
    cases hthree
  | ok u c' =>
    simp only [hrun, Option.bind_some] at hthree
    refine ⟨c', rfl, ?_, ?_⟩
    · refine (((decorations_expand rfl hrun (show (3 : Id).toNat < 5 by decide)).2.2 _).mp ?_).2
      cases hd : c'.ids.decorations 3 with
      | error e => simp [hd, Except.toOption] at hthree
      | ok out =>
        rw [hd] at hthree
        exact congrArg Except.ok (Option.some_inj.mp hthree)
    · refine (decorations_expand rfl hrun (show (4 : Id).toNat < 5 by decide)).1.mpr ?_
      have hself : Relation.TransGen (RefersTo (recordedOn nestedGroups)) 4 4 := .single ⟨none, by decide⟩
      exact .of_cycle hself hself 9

end ShaderIR.Spirv
