import ShaderIR.Proofs.Reading
import ShaderIR.Proofs.Tilings
import ShaderIR.Proofs.TwinWalks

/-!
# Two readings of streams that differ in little

A stream may be read with other options, or lack the names of another, or have more instructions
without a meaning. As long as these stand where they are read over, the second reading keeps in step
with the first, from the preamble over the functions to the entry points.
-/

namespace ShaderIR.Spirv

open EStateM List Lower

/-! ### Streams that differ in little -/

/-- Places of a stream. -/
inductive Zone where
  /-- Before the first function. -/
  | preamble
  /-- Between functions. -/
  | outside
  /-- In a function, between blocks. -/
  | function
  | block
deriving DecidableEq, Repr

namespace Zone

/-- The place behind an instruction. -/
def next (i : RawInstruction) : Zone → Zone
  | preamble => if i.op = .opFunction then function else preamble
  | outside => if i.op = .opFunction then function else outside
  | function =>
    if i.op = .opLabel then block else if i.op = .opFunctionEnd then outside else function
  | block => if i.isTerminator then function else block

/-- Whether instructions without a meaning are read over at a place. -/
def isQuiet : Zone → Bool
  | preamble | block => true
  | outside | function => false

end Zone

/-- Instructions of two streams from a place on: they are the same but for instructions without a
meaning in the second and names in the first. -/
inductive Edited (L : Latitude) : Zone → List RawInstruction → List RawInstruction → Prop
  | nil {z} : Edited L z [] []
  | both {z i i' is is'} : i.Same i' → (L.Strict → i' = i) →
      (i.isName = true → ∀ name, L.rename name = name) → Edited L (z.next i) is is' →
      Edited L z (i :: is) (i' :: is')
  | line {z i is is'} : ¬ L.Strict → z.isQuiet = true → i.isLine = true → Edited L z is is' →
      Edited L z is (i :: is')
  | name {z i is is'} : ¬ L.Strict → (∀ name, L.rename name = none) → i.isName = true →
      Edited L z is is' → Edited L z (i :: is) is'

variable {L : Latitude} {p q : Pairing} {i : RawInstruction} {is is' : List RawInstruction}
  {c c' d : Context} {words words' : List Word} {fault fault' : Option Error} {stop : Nat}
  {options : Options}

theorem Abreast.bind_right {α β γ : Type} {P : α → γ → Context → Context → Prop}
    {x : EStateM.Result Error Context α} {m' : Lower β} {f' : β → Lower γ} {b : β} {d' : Context}
    (hm : m' c' = .ok b d') (h : Abreast L P x (f' b d')) : Abreast L P x ((m' >>= f') c') := by
  rwa [bind_of_ok hm]

theorem Abreast.bind_left {α β γ : Type} {P : β → γ → Context → Context → Prop}
    {y : EStateM.Result Error Context γ} {m : Lower α} {f : α → Lower β} (hL : ¬ L.Strict)
    (h : ∀ a d, m c = .ok a d → Abreast L P (f a d) y) : Abreast L P ((m >>= f) c) y := by
  cases hm : m c with
  | ok a d =>
    rw [bind_of_ok hm]
    exact h a d hm
  | error e d =>
    rw [bind_of_error hm]
    exact fun hs => absurd hs hL

theorem Abreast.get_bind {α β : Type} {P : α → β → Context → Context → Prop} {f : Context → Lower α}
    {f' : Context → Lower β} (h : Abreast L P (f c c) (f' c' c')) : Abreast L P ((get >>= f) c) ((get >>= f') c') := h

theorem Abreast.and_left {α β : Type} {P : α → β → Context → Context → Prop}
    {x : EStateM.Result Error Context α} {y : EStateM.Result Error Context β} (h : Abreast L P x y) :
    Abreast L (fun a b c c' => P a b c c' ∧ x = .ok a c) x y := by
  cases x with
  | error e c => exact h
  | ok a c =>
    obtain ⟨b, c', hy, hP⟩ := h
    exact ⟨b, c', hy, hP, rfl⟩

/-! ### Functions and blocks -/

namespace Scan

/-- States of two scans that belong together at a place. -/
inductive StateAlike (L : Latitude) : Zone → ScanState → ScanState → Prop
  | outside : StateAlike L .outside .outside .outside
  | inFunction : StateAlike L .function .inFunction .inFunction
  | inBlock {label code code'} : CodeAlike L code code' →
      StateAlike L .block (.inBlock label code) (.inBlock label code')

theorem made_push {w : TypeMap} {fs fs' : Array Function} {f f' : Function}
    (h : ∀ k : Nat, Option.Rel (Function.Alike L w []) fs[k]? fs'[k]?) (hf : f.Alike L w [] f') :
    ∀ k : Nat, Option.Rel (Function.Alike L w []) (fs.push f)[k]? (fs'.push f')[k]? :=
  Array.Pointwise.push h hf

theorem inStep_openFunction (hmade : p.made = []) (i : RawInstruction) :
    Steady L p (openFunction i) fun _ s s' => StateAlike L .function s s' := by
  refine (inStep_typeOperand i 0).bind fun q₁ hq₁ result result' hresult => ?_
  refine (inStep_operand i 1).bind_same fun id => ?_
  refine (inStep_typeOperand i 3).bind fun q₃ hq₃ _ _ _ => ?_
  refine (inStep_shape (hresult.mono hq₃.types)).bind fun q₄ hq₄ s s' hs => ?_
  refine InStep.get.bind fun q₅ hq₅ c c' hc => ?_
  rw [hc.functions]
  have hvoid : s' = .void ↔ s = .void := Shape.Alike.void_iff hs
  refine InStep.seq (.modify fun q₆ hq₆ d d' hd => ?_) ?_
  · have hgrow := hq₃.trans (hq₄.trans (hq₅.trans hq₆))
    have hmade₆ : q₆.made = [] := (hq₁.trans hgrow).made.trans hmade
    refine { hd with made := ?_, functions := by rw [hd.functions] }
    have hold := hd.made
    rw [hmade₆] at hold ⊢
    refine made_push hold
      ⟨.inr (hd.ids.name?_eq id), ?_, rfl, rfl, rfl, rfl, rfl, fun _ _ => rfl, ?_, .nil⟩
    · simp only [hvoid]
      split
      · exact .none
      · exact .some (hresult.mono hgrow.types)
    · exact fun m hm => (not_mem_nil hm).elim
  · exact (inStep_define id (.function _)).seq (.pure fun _ _ => .inFunction)

theorem inStep_openBlock (i : RawInstruction) :
    Steady L p (openBlock i) fun _ s s' => StateAlike L .block s s' := by
  refine (inStep_operand i 0).bind_same fun label => ?_
  refine InStep.get.bind fun q₂ hq₂ c c' hc => ?_
  rw [hc.blocks.size_eq]
  refine (inStep_define label (.block _)).seq ?_
  refine InStep.seq (.modify fun q₄ hq₄ d d' hd => ?_) ?_
  · exact { hd with functions := by rw [hd.functions] }
  · exact .pure fun _ _ => .inBlock .nil

theorem inStep_closeBlock (label : Id) {code code' : List RawInstruction}
    (h : CodeAlike L code code') {i' : RawInstruction} (hi : i.Same i') :
    InStep L p (closeBlock label code i) (closeBlock label code' i') fun _ s s' =>
      StateAlike L .function s s' := by
  refine InStep.seq (.modify fun q _ c c' hc => ?_) (.pure fun _ _ => .inFunction)
  exact { hc with blocks := hc.blocks.push ⟨rfl, h.reverse, hi⟩ }

/-- What a scan does with an instruction that is no bound of a function and no label. -/
theorem step_other (s : ScanState)
    (h : i.op ≠ .opFunction ∧ i.op ≠ .opFunctionParameter ∧ i.op ≠ .opFunctionEnd ∧ i.op ≠ .opLabel) :
    step s i =
      match s with
      | .inBlock label code =>
        if i.isMerge then do
          let _ ← Lower.ofExcept i.merge
          return .inBlock label (i :: code)
        else if i.isTerminator then closeBlock label code i
        else return .inBlock label (i :: code)
      | .outside =>
        if i.isMerge ∨ i.isTerminator then throw (.regionMismatch i.offset)
        else throw (.unsupportedOpcode i.op)
      | .inFunction => throw (.regionMismatch i.offset) := by
  obtain ⟨h₁, h₂, h₃, h₄⟩ := h
  cases s <;> unfold step <;> split <;> first
    | contradiction
    | by_cases hmerge : i.isMerge <;> by_cases hend : i.isTerminator <;> simp [hmerge, hend]

theorem step_outside (h : i.op ≠ .opFunction) : ∃ e, step .outside i = throw e := by
  by_cases hother : i.op ≠ .opFunctionParameter ∧ i.op ≠ .opFunctionEnd ∧ i.op ≠ .opLabel
  · rw [step_other .outside ⟨h, hother⟩]
    dsimp only
    split <;> exact ⟨_, rfl⟩
  · have hop : i.op = .opFunctionParameter ∨ i.op = .opFunctionEnd ∨ i.op = .opLabel := by
      grind
    unfold step
    rcases hop with hop | hop | hop <;> rw [hop] <;> exact ⟨_, rfl⟩

theorem inStep_step (hmade : p.made = []) {z : Zone} {s s' : ScanState} (hs : StateAlike L z s s')
    {i' : RawInstruction} (hi : i.Same i') (hsame : L.Strict → i' = i) :
    InStep L p (step s i) (step s' i') fun _ t t' => StateAlike L (z.next i) t t' := by
  have hmismatch : L.Strict → Error.regionMismatch i'.offset = .regionMismatch i.offset :=
    fun hL => by rw [hsame hL]
  by_cases hother : i.op ≠ .opFunction ∧ i.op ≠ .opFunctionParameter ∧ i.op ≠ .opFunctionEnd ∧
      i.op ≠ .opLabel
  · have hother' := hother
    rw [← hi.op_eq] at hother'
    rw [step_other s hother, step_other s' hother', hi.isMerge_eq, hi.isTerminator_eq, hi.op_eq]
    cases hs with
    | outside =>
      dsimp only
      split
      · exact .throw hmismatch
      · exact .throw fun _ => rfl
    | inFunction => exact .throw hmismatch
    | inBlock h =>
      dsimp only [Zone.next]
      have hcode := CodeAlike.both hi h
      split
      · next hmerge =>
        rw [RawInstruction.isTerminator_eq_false_of_isMerge hmerge, hi.merge_eq]
        exact (inStep_ofExcept i.merge).bind_same fun _ => .pure fun _ _ => .inBlock hcode
      · split
        · exact inStep_closeBlock _ h hi
        · exact .pure fun _ _ => .inBlock hcode
  · obtain ⟨op, offset, operands⟩ := i
    obtain ⟨op', offset', operands'⟩ := i'
    obtain ⟨rfl, rfl⟩ : op' = op ∧ operands' = operands := by simpa [RawInstruction.Same] using hi
    have hop : op' = .opFunction ∨ op' = .opFunctionParameter ∨ op' = .opFunctionEnd ∨
        op' = .opLabel := by
      grind
    rcases hop with rfl | rfl | rfl | rfl
    · cases hs with
      | outside => exact inStep_openFunction hmade ⟨.opFunction, offset, operands'⟩
      | inFunction | inBlock => exact .throw hmismatch
    · cases hs <;> exact .throw fun _ => rfl
    · cases hs with
      | inFunction => exact .pure fun _ _ => .outside
      | outside | inBlock => exact .throw hmismatch
    · cases hs with
      | inFunction => exact inStep_openBlock ⟨.opLabel, offset, operands'⟩
      | outside | inBlock => exact .throw hmismatch

theorem step_quiet (hi : i.isLine = true ∨ i.isName = true) (s : ScanState) :
    step s i =
      match s with
      | .inBlock label code => pure (.inBlock label (i :: code))
      | .outside => throw (.unsupportedOpcode i.op)
      | .inFunction => throw (.regionMismatch i.offset) := by
  have hop : i.op = .opNop ∨ i.op = .opLine ∨ i.op = .opNoLine ∨ i.op = .opName ∨
      i.op = .opMemberName := by
    simp only [RawInstruction.isLine, RawInstruction.isName] at hi
    split at hi <;> simp_all
    split at hi <;> simp_all
  have hmerge : i.isMerge = false := by
    rcases hop with hop | hop | hop | hop | hop <;> simp [RawInstruction.isMerge, hop]
  have hend : i.isTerminator = false := by
    rcases hop with hop | hop | hop | hop | hop <;> simp [RawInstruction.isTerminator, hop]
  rw [step_other s (by rcases hop with hop | hop | hop | hop | hop <;> simp [hop])]
  cases s <;> simp [hmerge, hend]

/-- Both scans find the same functions, and blocks that belong together. -/
theorem inStep_steps (hmade : p.made = []) {stop' : Nat} (hfault : fault = none → fault' = none)
    (hsame : L.Strict → fault' = fault ∧ stop' = stop) {z : Zone} (h : Edited L z is is')
    {s s' : ScanState} (hs : StateAlike L z s s') :
    InStep L p (steps fault stop s is) (steps fault' stop' s' is') Done := by
  induction h generalizing p s s' with
  | nil =>
    unfold steps
    cases fault with
    | some e =>
      intro q _ c c' _ hL
      rw [(hsame hL).1]
      exact ⟨c', rfl⟩
    | none =>
      rw [hfault rfl]
      cases hs with
      | outside => exact .pure fun _ _ => trivial
      | inFunction | inBlock => exact .throw fun hL => by rw [(hsame hL).2]
  | both hi hL _ _ ih =>
    rw [steps, steps]
    exact (inStep_step hmade hs hi hL).bind fun q hq t t' ht => ih (hq.made.trans hmade) ht
  | line _ hz hi _ ih =>
    cases hs with
    | outside | inFunction => cases hz
    | inBlock hcode =>
      intro q hq c c' hc
      rw [steps, step_quiet (.inl hi)]
      exact ih hmade (.inBlock (.line hi hcode)) hq hc
  | name hL _ hi _ ih =>
    intro q hq c c' hc
    rw [steps, step_quiet (.inr hi)]
    cases hs with
    | outside | inFunction => exact fun hs => absurd hs hL
    | inBlock hcode => exact ih hmade (.inBlock (.name hL hi hcode)) hq hc

end Scan

/-! ### The preamble -/

/-- What a scan sees of two streams: it begins with the instruction behind the preamble. -/
inductive Resumes (L : Latitude) : List RawInstruction → List RawInstruction → Prop
  | nil : Resumes L [] []
  | cons {i i' is is'} : i.Same i' → (L.Strict → i' = i) →
      (i.op = .opFunction → Edited L .function is is') → Resumes L (i :: is) (i' :: is')

theorem Scan.inStep_steps_resumes (hmade : p.made = []) {stop' : Nat}
    (hfault : fault = none → fault' = none) (hsame : L.Strict → fault' = fault ∧ stop' = stop)
    (h : Resumes L is is') :
    InStep L p (steps fault stop .outside is) (steps fault' stop' .outside is') Done := by
  cases h with
  | nil => exact inStep_steps hmade hfault hsame (.nil (z := .outside)) .outside
  | @cons i _ _ _ hi hL hrest =>
    rw [steps, steps]
    by_cases hop : i.op = .opFunction
    · refine (inStep_step hmade .outside hi hL).bind fun q hq t t' ht => ?_
      rw [Zone.next, if_pos hop] at ht
      exact inStep_steps (hq.made.trans hmade) hfault hsame (hrest hop) ht
    · obtain ⟨e, he⟩ := step_outside hop
      intro q _ c c' _
      rw [he]
      intro hs
      rw [hL hs, he]
      exact ⟨c', rfl⟩

namespace Preamble

theorem reported_line (hi : i.isLine = true) (c : Context) :
    reported i c = .ok true
      { c with events := .instruction i.op i.length :: .ignoredInstruction i.op :: c.events } := by
  have hread : instruction i = do
      Lower.report (.ignoredInstruction i.op)
      return true := by
    unfold RawInstruction.isLine at hi
    unfold instruction
    split at hi <;> simp_all
  rw [reported, hread]
  rfl

theorem reported_function (hi : i.op = .opFunction) :
    reported i = pure false := by
  rw [reported, instruction, hi]
  rfl

theorem alike_of_update {w : TypeMap} {n : Nat} {t t' u : IdTable} {id : Id} {f : IdSlot → IdSlot}
    (h : t.Alike L w n t') (hf : ∀ s s', s.Alike L w n s' → (f s).Alike L w n s')
    (hu : t.update id f = .ok u) : u.Alike L w n t' := by
  unfold IdTable.update at hu
  split at hu
  · next s hs =>
    obtain rfl := Except.ok.inj hu
    intro k
    have hk := h k
    change Option.Rel _ (t.slots.setIfInBounds id.toNat (f s))[k]? _
    by_cases hid : id.toNat = k
    · subst hid
      rw [hs] at hk
      obtain ⟨s', hs', hss⟩ := hk.exists_of_some
      rw [hs', Array.getElem?_setIfInBounds_self_of_lt (Array.getElem?_eq_some_iff.mp hs).1]
      exact .some (hf s s' hss)
    · rwa [Array.getElem?_setIfInBounds_ne hid]
  · cases hu

theorem alike_of_reported_name (hi : i.isName = true) (hL : ∀ name, L.rename name = none) {b : Bool}
    (hc : c.Alike L p c') (h : reported i c = .ok b d) : b = true ∧ d.Alike L p c' := by
  obtain ⟨belongs, c₁, hread, hrest⟩ := bind_eq_ok.mp h
  have hids : ∃ ids, belongs = true ∧ c₁ = { c with ids } ∧
      ids.Alike L p.types p.constants c'.ids := by
    unfold RawInstruction.isName at hi
    unfold instruction at hread
    split at hi
    · next hop =>
      rw [hop] at hread
      dsimp only at hread
      obtain ⟨text, -, htail⟩ := (looks_ofExcept _).bind_eq_ok.mp hread
      obtain ⟨target, -, htail₁⟩ := peek_eq_ok.mp htail
      obtain ⟨_, c₄, hset, htail₂⟩ := bind_eq_ok.mp htail₁
      obtain ⟨rfl, rfl⟩ := pure_eq_ok.mp htail₂
      obtain ⟨ids, hids, rfl⟩ := updateIds_eq_ok.mp hset
      refine ⟨ids, rfl, rfl, alike_of_update hc.ids (fun s s' hs => ?_) hids⟩
      exact { hs with name := by rw [hs.name, hL, hL] }
    · next hop =>
      rw [hop] at hread
      dsimp only at hread
      obtain ⟨text, -, htail⟩ := (looks_ofExcept _).bind_eq_ok.mp hread
      obtain ⟨target, -, htail₁⟩ := peek_eq_ok.mp htail
      obtain ⟨member, -, htail₂⟩ := peek_eq_ok.mp htail₁
      obtain ⟨_, c₅, hset, htail₃⟩ := bind_eq_ok.mp htail₂
      obtain ⟨rfl, rfl⟩ := pure_eq_ok.mp htail₃
      obtain ⟨ids, hids, rfl⟩ := updateIds_eq_ok.mp hset
      refine ⟨ids, rfl, rfl, alike_of_update hc.ids (fun s s' hs => ?_) hids⟩
      exact { hs with memberNames := fun m => by rw [hs.memberNames, hL, hL] }
    · cases hi
  obtain ⟨ids, rfl, rfl, hids⟩ := hids
  obtain ⟨_, c₂, hreport, hdone⟩ := bind_eq_ok.mp hrest
  obtain ⟨rfl, rfl⟩ := pure_eq_ok.mp hdone
  obtain rfl := modify_eq_ok.mp hreport
  have hnamed : Context.Alike L p { c with ids } c' := { hc with ids := hids }
  refine ⟨rfl, hnamed.report_left ?_⟩
  unfold RawInstruction.isName at hi
  split at hi
  · next hop => rw [hop, Event.width?]; rfl
  · next hop => rw [hop, Event.width?]; rfl
  · cases hi

theorem instruction_width {pair : AluOp × AluOp}
    (hi : (Event.instruction i.op i.length).width? = some pair) : instruction i = pure false := by
  unfold instruction
  split
  case h_51 => rfl
  all_goals
    rename_i hop
    rw [hop] at hi
    cases hi

theorem inStep_reported {i' : RawInstruction} (hi : i.Same i') (hsame : L.Strict → i' = i)
    (hname : i.isName = true → ∀ name, L.rename name = name) :
    InStep L p (reported i) (reported i') Equal := by
  have hread : InStep L p (instruction i) (instruction i') Equal := by
    rw [hi]
    refine inStep_instruction i (fun hL => by rw [hsame hL]) fun hop => hname ?_
    rcases hop with hop | hop <;> rw [RawInstruction.isName, hop]
  cases hwidth : (Event.instruction i.op i.length).width? with
  | none =>
    refine hread.bind_same fun belongs => ?_
    cases belongs with
    | false => exact .pure fun _ _ => rfl
    | true => exact (inStep_report hwidth _).seq (.pure fun _ _ => rfl)
  | some pair =>
    have hwidth' : (Event.instruction i'.op i'.length).width? = some pair := by
      rw [hi]
      exact hwidth
    rw [reported, reported, instruction_width hwidth, instruction_width hwidth']
    exact .pure fun _ _ => rfl

/-- Both readings end the preamble at the same instruction. -/
theorem inStep_handleAll {stop' : Nat} (hfault : fault = none → fault' = none)
    (hsame : L.Strict → fault' = fault ∧ stop' = stop) (h : Edited L .preamble is is') :
    InStep L p (handleAll reported fault stop is) (handleAll reported fault' stop' is')
      fun _ n n' => ∃ rest rest', rest <:+ is ∧ rest' <:+ is' ∧ Resumes L rest rest' ∧
        n = (rest.head?.map (·.offset)).getD stop ∧ n' = (rest'.head?.map (·.offset)).getD stop' := by
  generalize hz : Zone.preamble = z at h
  induction h generalizing p with
  | nil =>
    unfold handleAll
    cases fault with
    | some e =>
      intro q _ c c' _ hL
      rw [(hsame hL).1]
      exact ⟨c', rfl⟩
    | none =>
      rw [hfault rfl]
      exact .pure fun _ _ => ⟨[], [], suffix_rfl, suffix_rfl, .nil, rfl, rfl⟩
  | @both z i i' is is' hi hL hname htail ih =>
    subst hz
    rw [handleAll, handleAll]
    by_cases hop : i.op = .opFunction
    · rw [reported_function hop, reported_function (hi.op_eq.trans hop)]
      rw [Zone.next, if_pos hop] at htail
      exact .pure fun _ _ => ⟨i :: is, i' :: is', suffix_rfl, suffix_rfl,
        .cons hi hL fun _ => htail, rfl, rfl⟩
    · refine (inStep_reported hi hL hname).bind_same fun b => ?_
      cases b with
      | false =>
        exact .pure fun _ _ => ⟨i :: is, i' :: is', suffix_rfl, suffix_rfl,
          .cons hi hL fun h => absurd h hop, rfl, rfl⟩
      | true =>
        refine (ih (by rw [Zone.next, if_neg hop])).mono fun q' hq' n n' hrest => ?_
        grind
  | @line _ i _ _ _ _ hi _ ih =>
    intro q hq c c' hc
    have hrest := ih hz hq ((hc.report_right (.ignoredInstruction i.op)).report_right
      (.instruction i.op i.length))
    refine Abreast.bind_right (reported_line hi c') ?_
    refine hrest.mono fun n n' d d' h => ?_
    obtain ⟨q', hq', hd, rest, rest', hr, hr', hres⟩ := h
    grind
  | @name _ _ _ _ hL hnone hi _ ih =>
    intro q hq c c' hc
    refine Abreast.bind_left hL fun b d hread => ?_
    obtain ⟨rfl, hd⟩ := alike_of_reported_name hi hnone hc hread
    refine (ih hz hq hd).mono fun n n' d d' h => ?_
    obtain ⟨q', hq', hd, rest, rest', hr, hr', hres⟩ := h
    grind

end Preamble

/-! ### Streams -/

/-- Streams whose readings keep in step. -/
structure StreamsAlike (L : Latitude) (words words' : List Word) : Prop where
  edited : Edited L .preamble (Tiling.ofStream words headerLength words.length).instructions
    (Tiling.ofStream words' headerLength words'.length).instructions
  fault : (Tiling.ofStream words headerLength words.length).fault = none →
    (Tiling.ofStream words' headerLength words'.length).fault = none
  same : L.Strict → words' = words

theorem handleAll_eq_ok {σ : Type} {handler : RawInstruction → EStateM Error σ Bool} {n : Nat}
    {c d : σ} (h : handleAll handler fault stop is c = .ok n d) :
    ∃ before rest, is = before ++ rest ∧ n = (rest.head?.map (·.offset)).getD stop ∧
      ∀ i ∈ before, ∃ c d, handler i c = .ok true d := by
  induction is generalizing c with
  | nil =>
    unfold handleAll at h
    split at h
    · exact (throw_eq_ok.mp h).elim
    · obtain ⟨rfl, -⟩ := pure_eq_ok.mp h
      simp_all
  | cons i is ih =>
    obtain ⟨belongs, c₁, hi, hrest⟩ := bind_eq_ok.mp h
    cases belongs with
    | false =>
      obtain ⟨rfl, -⟩ := pure_eq_ok.mp hrest
      exact ⟨[], i :: is, rfl, rfl, fun i hi => (not_mem_nil hi).elim⟩
    | true =>
      grind

/-- The parts of a stream whose outline can be read: first what belongs in the preamble, and then what
the scan goes past. -/
theorem readOutline_eq_ok (h : readOutline words c = .ok () d) :
    ∃ before rest c₁, (Tiling.ofStream words headerLength words.length).instructions =
        before ++ rest ∧
      (∀ i ∈ before, ∃ c d, Preamble.reported i c = .ok true d) ∧ Declares c c₁ ∧
      Scan.steps (Tiling.ofStream words headerLength words.length).fault words.length .outside rest
        c₁ = .ok () d := by
  obtain ⟨n, c₁, hpreamble, hscan⟩ := bind_eq_ok.mp h
  obtain ⟨before, rest, hsplit, hn, hbefore⟩ := handleAll_eq_ok hpreamble
  refine ⟨before, rest, c₁, hsplit, hbefore, along_handleAll Preamble.along_reported _ _ _ hpreamble, ?_⟩
  have hcut := Tiling.ofStream_startOf hsplit
  rw [Tiling.startOf, ← hn] at hcut
  rw [scan, hcut] at hscan
  exact hscan

theorem Scan.fault_of_steps {s : ScanState} (h : steps fault stop s is c = .ok () d) :
    fault = none := by
  induction is generalizing s c with
  | nil =>
    cases fault with
    | none => rfl
    | some e => exact (throw_eq_ok.mp h).elim
  | cons i is ih =>
    obtain ⟨t, c₁, -, hrest⟩ := bind_eq_ok.mp h
    exact ih hrest

theorem fault_of_readModule {m : Module} (h : (readModule options words).result = .ok m) :
    (Tiling.ofStream words headerLength words.length).fault = none := by
  obtain ⟨header, c, -, -, -, houtline, -⟩ := readModule_eq_ok h
  obtain ⟨before, rest, c₁, -, -, -, hscan⟩ := readOutline_eq_ok houtline
  exact Scan.fault_of_steps hscan

theorem inStep_readOutline (hmade : p.made = []) (h : StreamsAlike L words words') :
    InStep L p (readOutline words) (readOutline words') Done := by
  have hsame (hL : L.Strict) : (Tiling.ofStream words' headerLength words'.length).fault =
        (Tiling.ofStream words headerLength words.length).fault ∧
      (Tiling.ofStream words' headerLength words'.length).stop =
        (Tiling.ofStream words headerLength words.length).stop := by
    rw [h.same hL]
    exact ⟨rfl, rfl⟩
  refine (Preamble.inStep_handleAll h.fault hsame h.edited).bind fun q hq n n' hrest => ?_
  obtain ⟨rest, rest', ⟨before, hr⟩, ⟨before', hr'⟩, hres, rfl, rfl⟩ := hrest
  have hcut := Tiling.ofStream_startOf hr.symm
  have hcut' := Tiling.ofStream_startOf hr'.symm
  unfold Tiling.startOf at hcut hcut'
  unfold scan
  rw [hcut, hcut']
  refine Scan.inStep_steps_resumes (hq.made.trans hmade) h.fault (fun hL => ⟨(hsame hL).1, ?_⟩) hres
  rw [h.same hL]

/-! ### Functions -/

section Functions

variable {c c' : Context}

/-- States between functions. -/
def Context.Idle (L : Latitude) (p : Pairing) (c c' : Context) : Prop := c.Matches L p p.past c'

theorem Context.Alike.idle (h : c.Alike L p c') (hmarks : p.marks = []) (hdue : p.due = []) :
    c.Idle L p c' := by
  have hwidths := h.widths
  rw [Pairing.announced, hmarks, hdue, map_nil, append_nil, append_nil] at hwidths
  exact { h with widths := hwidths }

theorem Function.Alike.empty (L : Latitude) (w : TypeMap) : Function.Alike L w [] {} {} :=
  ⟨.same L _, .none, rfl, rfl, rfl, rfl, rfl, fun _ _ => rfl,
    fun _ hm => (not_mem_nil hm).elim, .nil⟩

theorem Context.Idle.begin (h : c.Idle L p c') {f f' : Function} (hf : f.Alike L p.types [] f')
    {e : Event} (he : e.width? = none) (e' : Event) :
    Context.Alike L { p with marks := [], due := [] }
      { c with
        events := e :: c.events, function := f, ends := [], pendingPhis := [], conditionals := 0
        loops := 0 }
      { c' with
        events := e' :: c'.events, function := f', ends := [], pendingPhis := [], conditionals := 0
        loops := 0 } := by
  have hwidths : Context.widths { c with events := e :: c.events } = p.past := by
    have hold := h.widths
    rw [Context.widths] at hold
    rw [Context.widths, reverse_cons, filterMap_append, hold]
    simp [he]
  refine { h with
    ends := rfl, pendingPhis := .nil, conditionals := rfl, loops := rfl, function := hf, widths := ?_ }
  refine hwidths.trans ?_
  simp [Pairing.announced, Pairing.past]

theorem Context.Alike.finish (h : c.Alike L p c') (hdue : p.due = []) :
    Context.Idle L { p with made := p.made ++ [p.marks] }
      { c with
        module :=
          { c.module with functions := c.module.functions.setIfInBounds p.made.length c.function } }
      { c' with
        module :=
          { c'.module with
            functions := c'.module.functions.setIfInBounds p.made.length c'.function } } := by
  have hsize : c'.module.functions.size = c.module.functions.size :=
    Array.Pointwise.size_eq (R := fun _ _ => True) fun k => (h.made k).mono fun _ _ _ => trivial
  refine { h with made := fun k => ?_, widths := ?_ }
  · have hk := h.made k
    dsimp only
    rw [Array.getElem?_setIfInBounds, Array.getElem?_setIfInBounds, hsize]
    split
    · next heq =>
      subst heq
      rw [getElem?_concat_length, Option.getD_some]
      split
      · exact .some h.function
      · exact .none
    grind
  · refine h.widths.trans ?_
    simp [Pairing.announced, Pairing.past, hdue]

theorem inStep_beginFunction {result result' : Option TypeId}
    (h : Option.Rel p.types.Maps result result') :
    InStep L p
      (if let some ty := result then do
        let v ← Lower.addVariable { name := some "return_value", ty, mode := .functionLocal } true
        modify fun c => { c with function := { c.function with returnVar := some v } }
      else pure ())
      (if let some ty := result' then do
        let v ← Lower.addVariable { name := some "return_value", ty, mode := .functionLocal } true
        modify fun c => { c with function := { c.function with returnVar := some v } }
      else pure ()) Done := by
  cases h with
  | none => exact .pure fun _ _ => trivial
  | @some ty ty' hty =>
    have hvariable : Variable.Alike L p.types
        { name := some "return_value", ty, mode := .functionLocal }
        { name := some "return_value", ty := ty', mode := .functionLocal } :=
      ⟨.same L _, hty, rfl⟩
    refine (inStep_addVariable hvariable true).bind_same fun v => ?_
    exact .modify fun _ _ _ _ hc => hc.withFunction { hc.function with returnVar := rfl }

theorem abreast_beginFunction (h : c.Idle L p c') (source : SourceFunction) :
    Abreast L (fun _ _ d d' => ∃ q : Pairing, q.made = p.made ∧ q.due = [] ∧ d.Alike L q d')
      (beginFunction p.made.length source c) (beginFunction p.made.length source c') := by
  have hf : ((c.module.functions[p.made.length]?).getD {}).Alike L p.types []
      ((c'.module.functions[p.made.length]?).getD {}) := by
    have hmade := h.made p.made.length
    rw [getElem?_eq_none (Nat.le_refl _), Option.getD_none] at hmade
    generalize c.module.functions[p.made.length]? = x, c'.module.functions[p.made.length]? = x' at hmade ⊢
    cases hmade with
    | some hf => exact hf
    | none => exact Function.Alike.empty L p.types
  have hbegin := h.begin hf
    (e := .function source.id ((c.module.functions[p.made.length]?).getD {}).name) rfl
    (.function source.id ((c'.module.functions[p.made.length]?).getD {}).name)
  have hresult := inStep_beginFunction (L := L) (p := { p with marks := [], due := [] }) hf.result
  refine (hresult (.refl _) hbegin).mono fun _ _ d d' ⟨q, hq, hd, _⟩ => ?_
  exact ⟨q, hq.made, hq.due, hd⟩

theorem abreast_readFunction (h : c.Idle L p c') (source : SourceFunction) :
    Abreast L (fun _ _ d d' => ∃ q : Pairing, q.made.length = p.made.length + 1 ∧ d.Idle L q d')
      (readFunction p.made.length source c) (readFunction p.made.length source c') := by
  unfold readFunction
  cases source.blocks.head? with
  | none => exact fun _ => ⟨c', rfl⟩
  | some entry =>
    refine (abreast_beginFunction h source).bind fun _ _ d d' ⟨q, hmade, hdue, hd⟩ => ?_
    have hcode : Steady L q (do
          let body ← Structure.walk entry
          modify fun c => { c with function := { c.function with body }.withFlow }
          PhiSources.resolveAll source) Done := by
      refine (Structure.inStep_walk hdue entry).bind_same fun body => ?_
      refine InStep.seq (.modify fun q₂ _ e e' he => he.withFunction ?_) ?_
      · exact Function.Alike.withFlow { he.function with body := rfl }
      · exact PhiSources.inStep_resolveAll source
    have hfinish : (Structure.walk entry >>= finishFunction p.made.length source) =
        (do
          let body ← Structure.walk entry
          modify fun c => { c with function := { c.function with body }.withFlow }
          PhiSources.resolveAll source) >>= fun _ => modify fun c =>
            { c with
              module :=
                { c.module with
                  functions := c.module.functions.setIfInBounds p.made.length c.function } } := by
      simp only [bind_assoc]
      rfl
    change Abreast L _ ((Structure.walk entry >>= finishFunction p.made.length source) d)
      ((Structure.walk entry >>= finishFunction p.made.length source) d')
    rw [hfinish]
    refine (hcode (.refl q) hd).bind fun _ _ e e' ⟨q', hq', he, _⟩ => ⟨_, _, rfl, ?_⟩
    have hmade' : q'.made = p.made := hq'.made.trans hmade
    refine ⟨{ q' with made := q'.made ++ [q'.marks] }, by simp [hmade'], ?_⟩
    rw [← hmade']
    exact he.finish (hq'.due.trans hdue)

theorem abreast_readFunctions (h : c.Idle L p c') (sources : List SourceFunction) :
    Abreast L (fun _ _ d d' =>
        ∃ q : Pairing, q.made.length = p.made.length + sources.length ∧ d.Idle L q d')
      (((sources.zipIdx p.made.length).forM fun (source, index) => readFunction index source) c)
      (((sources.zipIdx p.made.length).forM fun (source, index) => readFunction index source) c') := by
  induction sources generalizing p c c' with
  | nil => exact ⟨⟨⟩, c', rfl, p, rfl, h⟩
  | cons source sources ih =>
    refine (abreast_readFunction h source).bind fun _ _ d d' ⟨q, hq, hd⟩ => ?_
    grind

theorem Abreast.mapM_looks {α β : Type} {f : α → Lower β} {l : List α}
    (h : ∀ a ∈ l, Abreast L (fun b b' d d' => b' = b ∧ d = c ∧ d' = c') (f a c) (f a c')) :
    Abreast L (fun bs bs' d d' => bs' = bs ∧ d = c ∧ d' = c') (l.mapM f c) (l.mapM f c') := by
  induction l with
  | nil =>
    rw [mapM_nil]
    exact ⟨[], c', rfl, rfl, rfl, rfl⟩
  | cons a l ih =>
    rw [mapM_cons]
    refine (h a (by simp)).bind fun b b' d d' hd => ?_
    obtain ⟨rfl, rfl, rfl⟩ := hd
    refine (ih fun a ha => h a (mem_cons_of_mem _ ha)).bind fun bs bs' d d' hd => ?_
    obtain ⟨rfl, rfl, rfl⟩ := hd
    exact ⟨_, _, rfl, rfl, rfl, rfl⟩

theorem abreast_lookupFunction (h : c.Idle L p c') (id : Id) :
    Abreast L (fun f f' d d' => f' = f ∧ d = c ∧ d' = c') (Lower.lookup (·.function id) c)
      (Lower.lookup (·.function id) c') := by
  have hfollows := h.ids.function (S := L.Strict) id
  rw [lookup_apply, lookup_apply]
  cases hf : c.ids.function id with
  | ok f =>
    rw [hf] at hfollows
    obtain ⟨f', hf', rfl⟩ := hfollows
    rw [hf']
    exact ⟨_, c', rfl, rfl, rfl, rfl⟩
  | error e =>
    rw [hf] at hfollows
    intro hs
    rw [hfollows hs]
    exact ⟨c', rfl⟩

theorem abreast_readEntryPoints (h : c.Idle L p c') :
    Abreast L (fun _ _ d d' => d.Idle L p d') (readEntryPoints c) (readEntryPoints c') := by
  have hlookup : ∀ e : PendingEntryPoint, Abreast L (fun b b' d d' => b' = b ∧ d = c ∧ d' = c')
      ((Lower.lookup (·.function e.function) >>= fun function =>
        pure ({ name := e.name, stage := e.stage, function } : EntryPoint)) c)
      ((Lower.lookup (·.function e.function) >>= fun function =>
        pure ({ name := e.name, stage := e.stage, function } : EntryPoint)) c') := by
    intro e
    refine (abreast_lookupFunction h e.function).bind fun f f' d d' hd => ?_
    obtain ⟨rfl, rfl, rfl⟩ := hd
    exact ⟨_, _, rfl, rfl, rfl, rfl⟩
  have hlookups := Abreast.mapM_looks (l := c.entryPoints) fun e _ => hlookup e
  refine Abreast.get_bind ?_
  rw [h.entryPoints]
  refine hlookups.bind fun es es' d d' hd => ?_
  obtain ⟨rfl, rfl, rfl⟩ := hd
  exact ⟨⟨⟩, _, rfl, { h with entries := rfl }⟩

end Functions

theorem Context.Idle.module (h : c.Idle L p c') : c.module.Alike L p.types p.made c'.module :=
  ⟨h.types, by rw [h.count]; exact h.constants, h.vars, h.made, h.entries⟩

theorem Declares.function (h : Declares c c') : c'.function = c.function := by
  induction h with
  | refl => rfl
  | tail _ hstep ih => cases hstep <;> exact ih

theorem Scans.function (h : Scans c c') : c'.function = c.function := by
  induction h with
  | refl => rfl
  | tail _ hstep ih => cases hstep <;> exact ih

theorem function_of_readOutline (h : readOutline words c = .ok () d) : d.function = c.function := by
  obtain ⟨start, c₁, hpreamble, hscan⟩ := bind_eq_ok.mp h
  have hdeclares : Declares c c₁ := along_handleAll Preamble.along_reported _ _ _ hpreamble
  have hscans : Scans c₁ d := Scan.along_steps _ _ _ _ hscan
  rw [hscans.function, hdeclares.function]

theorem Context.Alike.start {options' : Options} (hfirst : options.fwidth = L.first)
    (hsecond : options'.fwidth = L.second) (header : Header) :
    Context.Alike L {} (.start options header) (.start options' header) where
  first := hfirst
  second := hsecond
  ids := fun k => by
    change Option.Rel _ (List.replicate header.bound.toNat ({} : IdSlot)).toArray[k]?
      (List.replicate header.bound.toNat ({} : IdSlot)).toArray[k]?
    rw [getElem?_toArray, getElem?_replicate]
    split
    · exact .some ⟨.none, L.rename_none.symm, fun _ => L.rename_none.symm, rfl⟩
    · exact .none
  types := .empty
  known := rfl
  constants := fun _ => .none
  count := rfl
  vars := fun _ => .none
  made := fun _ => .none
  entries := rfl
  entryPoints := rfl
  stage := rfl
  blocks := fun _ => .none
  functions := rfl
  ends := rfl
  placed := rfl
  pendingPhis := .nil
  conditionals := rfl
  loops := rfl
  nextKey := rfl
  transposes := .nil
  widths := rfl
  function := Function.Alike.empty L []

/-- Both readings keep in step to the end. -/
theorem abreast_readBody (h : StreamsAlike L words words') {options' : Options}
    (hfirst : options.fwidth = L.first) (hsecond : options'.fwidth = L.second) (header : Header) :
    Abreast L (fun m m' d _ => ∃ p : Pairing, m.Alike L p.types p.made m' ∧
        p.made.length = m.functions.size ∧ d.widths = p.past)
      (readBody words (.start options header)) (readBody words' (.start options' header)) := by
  have hstart := Context.Alike.start hfirst hsecond header
  refine (inStep_readOutline rfl h (.refl _) hstart).and_left.bind
    fun _ _ c c' ⟨⟨p, hp, hc, _⟩, houtline⟩ => ?_
  have hmarks : p.marks = [] := by
    refine eq_nil_iff_forall_not_mem.mpr fun m hm => ?_
    have hlt := hc.function.lt_of_mem hm
    rw [function_of_readOutline houtline] at hlt
    exact Nat.not_lt_zero _ hlt
  have hidle : c.Idle L p c' := hc.idle hmarks hp.due
  refine Abreast.get_bind ?_
  rw [hc.functions]
  have hmade : p.made = [] := hp.made
  have hfunctions := abreast_readFunctions hidle c.functions.toList
  rw [hmade] at hfunctions
  refine hfunctions.and_left.bind fun _ _ e e' ⟨⟨q, hq, he⟩, hforM⟩ => ?_
  refine (abreast_readEntryPoints he).and_left.bind fun _ _ g g' ⟨hg, hentries⟩ => ?_
  refine ⟨_, _, rfl, q, hg.module, ?_, hg.widths⟩
  rw [hq, functions_of_readEntryPoints hentries, (functions_of_forM hforM).2.1,
    (outlined_of_readOutline houtline).size]
  simp

/-- What the second of two readings comes to: where the first gives a module, it gives one that
belongs to it, and where the first fails, it fails alike if that matters. -/
theorem readings_abreast (h : StreamsAlike L words words')
    (hheader : Header.read words' = Header.read words) (options options' : Options)
    (hfirst : options.fwidth = L.first) (hsecond : options'.fwidth = L.second) :
    match (readModule options words).result with
    | .ok m => ∃ m' w made, (readModule options' words').result = .ok m' ∧ m.Alike L w made m' ∧
        made.length = m.functions.size ∧
        (readModule options words).events.filterMap Event.width? = made.flatten.map Mark.pair
    | .error e => L.Strict → (readModule options' words').result = .error e := by
  unfold readModule
  rw [hheader]
  cases Header.read words with
  | error e => exact fun _ => rfl
  | ok header =>
    have hbody := abreast_readBody h hfirst hsecond header
    dsimp only
    cases hx : readBody words (.start options header) with
    | error e c =>
      rw [hx] at hbody
      intro hs
      obtain ⟨c', hc'⟩ := hbody hs
      rw [hc']
    | ok m c =>
      rw [hx] at hbody
      obtain ⟨m', c', hc', p, hm, hcount, hwidths⟩ := hbody
      rw [hc']
      exact ⟨m', p.types, p.made, rfl, hm, hcount, hwidths⟩

end ShaderIR.Spirv
