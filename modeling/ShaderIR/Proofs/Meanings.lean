import ShaderIR.Proofs.Handlers

/-!
# How ids get their meanings

An instruction of a block gives a meaning to the id of its result and to no other, and does so last. If
that id has a meaning already, handling the instruction fails for it, and for no other id that is
defined twice. Whatever comes of it, the record of where code was placed stays the same.
-/

namespace ShaderIR.Spirv

open List

/-- The id of the result of an instruction of a block. -/
def RawInstruction.result? (i : RawInstruction) : Option Id :=
  if i.hasResult then (i.operand 1).toOption else none

/-- The ids of the results of the instructions of a block that are carried out. -/
def SourceBlock.results (b : SourceBlock) : List Id := b.body.filterMap (·.result?)

/-! ### Whole blocks -/

/-- Between two states, some ids got their meanings one after another. -/
structure Context.Learns (l : List Id) (c c' : Context) : Prop where
  nodup : l.Nodup
  fresh : ∀ id ∈ l, ¬c.Knows id
  knows : ∀ id, c'.Knows id ↔ c.Knows id ∨ id ∈ l

namespace Context.Learns

variable {c c' c'' : Context} {l l' : List Id}

theorem of_ids (h : c'.ids = c.ids) : c.Learns [] c' where
  nodup := .nil
  fresh := by simp
  knows := fun id => by simp [Knows, h]

theorem congr {d d' : Context} (h : c.Learns l c') (hd : d.ids = c.ids) (hd' : d'.ids = c'.ids) :
    d.Learns l d' where
  nodup := h.nodup
  fresh := by
    simp only [Knows, hd]
    exact h.fresh
  knows := by
    simp only [Knows, hd, hd']
    exact h.knows

theorem of_define {id : Id} {v : Value} (h : c.ids.define id v = .ok c'.ids) : c.Learns [id] c' where
  nodup := by simp
  fresh := by
    intro id' hid'
    obtain rfl := mem_singleton.mp hid'
    rintro ⟨w, hw⟩
    exact IdTable.get_ne_ok_of_define h w hw
  knows := fun id' => by
    rw [mem_singleton]
    by_cases hid' : id' = id
    · subst hid'
      exact ⟨fun _ => .inr rfl, fun _ => ⟨v, IdTable.get_of_define h⟩⟩
    · simp only [hid', or_false, Knows, IdTable.get_define_of_ne h hid']

protected theorem trans (h : c.Learns l c') (h' : c'.Learns l' c'') : c.Learns (l ++ l') c'' where
  nodup := by
    refine nodup_append.mpr ⟨h.nodup, h'.nodup, ?_⟩
    rintro id hid _ hid' rfl
    exact h'.fresh id hid' ((h.knows id).mpr (.inr hid))
  fresh := by
    intro id hid
    rcases mem_append.mp hid with hid | hid
    · exact h.fresh id hid
    · exact fun hknows => h'.fresh id hid ((h.knows id).mpr (.inl hknows))
  knows := fun id => by rw [h'.knows, h.knows, mem_append, or_assoc]

end Context.Learns

/-- How handling instructions with certain results failed: so far some ids got their meanings, and if the
failure is that an id is defined twice, it is the next result and has a meaning already. -/
structure Context.Fails (results : List Id) (c : Context) (e : Error) (c' : Context) : Prop where
  learns : ∃ l, l <+: results ∧ c.Learns l c' ∧ ∀ id, e.redefined? = some id → l ++ [id] <+: results ∧ c'.Knows id

namespace Body

variable {before : Option Id} {i : RawInstruction} {is : List RawInstruction} {spot : Spot} {c c' : Context}
  {e : Error}

theorem learns_of_reported (h : reported before i spot c = .ok () c') :
    c.Learns i.result?.toList c' ∧ c'.placed = c.placed := by
  obtain ⟨_, d, hreport, hi⟩ := Emit.bind_eq_ok.mp h
  obtain rfl := Lower.report_eq_ok.mp hreport
  cases hresult : i.hasResult with
  | false =>
    obtain ⟨_, -, -, hstill, -⟩ := (makes_instruction (b := ⟨_, []⟩) hresult).ok _ _ hi
    simp only [RawInstruction.result?, hresult]
    exact ⟨.of_ids hstill.ids, hstill.placed⟩
  | true =>
    obtain ⟨-, hplaced, id, v, hid, hdefine⟩ := (gives_instruction (b := ⟨_, []⟩) hresult).ok _ _ hi
    simp only [RawInstruction.result?, hresult, hid, if_true]
    exact ⟨.of_define hdefine, hplaced⟩

theorem still_of_reported (h : reported before i spot c = .error e c') :
    c.Still c' ∧ ∀ id, e.redefined? = some id → i.result? = some id ∧ c.Knows id := by
  rcases Emit.bind_eq_error.mp h with hreport | ⟨_, d, hreport, hi⟩
  · cases hreport
  · obtain rfl := Lower.report_eq_ok.mp hreport
    cases hresult : i.hasResult with
    | false =>
      obtain ⟨hstill, hnone⟩ := (makes_instruction (b := ⟨_, []⟩) hresult).error _ _ hi
      exact ⟨⟨hstill.ids, hstill.placed⟩, fun id hid => by cases hnone.symm.trans hid⟩
    | true =>
      obtain ⟨hstill, hid⟩ := (gives_instruction (b := ⟨_, []⟩) hresult).error _ _ hi
      refine ⟨⟨hstill.ids, hstill.placed⟩, fun id hsome => ?_⟩
      obtain ⟨hoperand, hknows⟩ := hid id hsome
      exact ⟨by simp [RawInstruction.result?, hresult, hoperand, Except.toOption], hknows⟩

theorem learns_of_instructions (h : instructions before is spot c = .ok () c') :
    c.Learns (is.filterMap (·.result?)) c' ∧ c'.placed = c.placed := by
  induction is generalizing c with
  | nil =>
    obtain ⟨-, rfl⟩ := EStateM.pure_eq_ok.mp h
    exact ⟨.of_ids rfl, rfl⟩
  | cons i is ih =>
    obtain ⟨_, d, hi, hrest⟩ := Emit.bind_eq_ok.mp h
    obtain ⟨hlearns, hplaced⟩ := learns_of_reported hi
    obtain ⟨hlearns', hplaced'⟩ := ih hrest
    have hresults : (i :: is).filterMap (·.result?) = i.result?.toList ++ is.filterMap (·.result?) := by
      cases hi : i.result? <;> simp [hi]
    rw [hresults]
    exact ⟨hlearns.trans hlearns', hplaced'.trans hplaced⟩

theorem fails_of_instructions (h : instructions before is spot c = .error e c') :
    c.Fails (is.filterMap (·.result?)) e c' ∧ c'.placed = c.placed := by
  induction is generalizing c with
  | nil => cases h
  | cons i is ih =>
    have hresults : (i :: is).filterMap (·.result?) = i.result?.toList ++ is.filterMap (·.result?) := by
      cases hi : i.result? <;> simp [hi]
    rw [hresults]
    rcases Emit.bind_eq_error.mp h with hi | ⟨_, d, hi, hrest⟩
    · obtain ⟨hstill, hid⟩ := still_of_reported hi
      refine ⟨⟨[], nil_prefix, .of_ids hstill.ids, fun id hsome => ?_⟩, hstill.placed⟩
      obtain ⟨hresult, hknows⟩ := hid id hsome
      rw [hresult]
      exact ⟨prefix_append _ _, hstill.knows_iff.mpr hknows⟩
    · obtain ⟨hlearns, hplaced⟩ := learns_of_reported hi
      obtain ⟨⟨l, hl, hlearns', hid⟩, hplaced'⟩ := ih hrest
      refine ⟨⟨_, (prefix_append_right_inj _).mpr hl, hlearns.trans hlearns', fun id hsome => ?_⟩,
        hplaced'.trans hplaced⟩
      simp_all

end Body

end ShaderIR.Spirv
