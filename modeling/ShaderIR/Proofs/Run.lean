import ShaderIR.Evaluate
import ShaderIR.Proofs.Growth
import ShaderIR.Proofs.Success

/-!
# What a run does

A run goes from block to block. In each block it reads the phis together and carries out the
instructions up to the first that leaves the block; an instruction writes its own register only.
-/

namespace ShaderIR

open EStateM List

/-! ### Instructions -/

namespace Exec

variable {s s' : RunState} {r : Register} {lanes : Lanes}

theorem register_eq_ok : register r s = .ok lanes s' ↔ (s.registers[r]?).join = some lanes ∧ s' = s := by
  unfold register
  rw [bind_eq_ok]
  constructor
  · rintro ⟨t, t', hget, h⟩
    obtain ⟨ht, ht'⟩ := get_eq_ok.mp hget
    rw [ht, ht'] at h
    cases hr : (s.registers[r]?).join with
    | none =>
      simp only [hr] at h
      exact (throw_eq_ok.mp h).elim
    | some lanes' =>
      simp only [hr] at h
      obtain ⟨rfl, rfl⟩ := pure_eq_ok.mp h
      exact ⟨rfl, rfl⟩
  · rintro ⟨h, rfl⟩
    refine ⟨s', s', rfl, ?_⟩
    simp only [h]
    rfl

theorem looks_register (r : Register) : EStateM.Looks (register r) := fun _ _ _ h => (register_eq_ok.mp h).2

theorem looks_source (source : Source) : EStateM.Looks (Exec.source source) :=
  (looks_register _).bind fun _ => .pure _

theorem looks_index : ∀ i : Index, EStateM.Looks (index i)
  | .direct i => .pure i
  | .dynamic r => (looks_register r).bind fun _ => .pure _

theorem looks_path (p : Place) : EStateM.Looks (path p) := by
  refine .mapM (fun step => ?_) _
  cases step with
  | element i => exact looks_index i
  | member i => exact .pure i

theorem looks_readSlot (v : VariableId) (path : List Word) : EStateM.Looks (readSlot v path) :=
  EStateM.Looks.get.bind fun _ => .pure _

end Exec

/-- What changes in a state at an instruction: of the registers, the one with its number at most. -/
structure Touches (r : Register) (s s' : RunState) : Prop where
  previous : s'.previous = s.previous
  registers : s'.registers = s.registers ∨ ∃ lanes, s'.registers = s.registers.setIfInBounds r (some lanes)

namespace Touches

variable {s s' : RunState} {r r' : Register}

theorem size (h : Touches r s s') : s'.registers.size = s.registers.size := by
  rcases h.registers with h | ⟨lanes, h⟩ <;> simp [h]

theorem getElem?_of_ne (h : Touches r s s') (hne : r' ≠ r) : s'.registers[r']? = s.registers[r']? := by
  rcases h.registers with h | ⟨lanes, h⟩
  · rw [h]
  grind

end Touches

variable {s' s : RunState}

theorem Exec.touches_define {r : Register} {lanes : Lanes} (h : Exec.define r lanes s = .ok () s') :
    Touches r s s' := by
  obtain rfl := modify_eq_ok.mp h
  exact ⟨rfl, .inr ⟨lanes, rfl⟩⟩

theorem Exec.touches_writeSlot {r : Register} {v : VariableId} {path : List Word} {lanes : Lanes}
    (h : Exec.writeSlot v path lanes s = .ok () s') : Touches r s s' := by
  obtain rfl := modify_eq_ok.mp h
  exact ⟨rfl, .inl rfl⟩

theorem Instruction.touches_perform {i : Instruction} {r : Register} (h : i.perform r s = .ok () s') :
    Touches r s s' := by
  cases i with
  | loadConst bits => exact Exec.touches_define h
  | undef lanes => exact Exec.touches_define h
  | texture access => exact Exec.touches_define h
  | alu op sources lanes =>
    obtain ⟨inputs, t, hinputs, hdefine⟩ := bind_eq_ok.mp h
    obtain rfl := EStateM.Looks.mapM Exec.looks_source _ hinputs
    exact Exec.touches_define hdefine
  | loadVar place lanes =>
    obtain ⟨path, t, hpath, h₁⟩ := bind_eq_ok.mp h
    obtain ⟨slot, t', hslot, hdefine⟩ := bind_eq_ok.mp h₁
    obtain rfl := Exec.looks_path _ hpath
    obtain rfl := Exec.looks_readSlot _ _ hslot
    exact Exec.touches_define hdefine
  | storeVar place value mask =>
    obtain ⟨path, t, hpath, h₁⟩ := bind_eq_ok.mp h
    obtain ⟨new, t', hnew, h₂⟩ := bind_eq_ok.mp h₁
    obtain ⟨old, t'', hold, hwrite⟩ := bind_eq_ok.mp h₂
    obtain rfl := Exec.looks_path _ hpath
    obtain rfl := Exec.looks_register _ hnew
    obtain rfl := Exec.looks_readSlot _ _ hold
    exact Exec.touches_writeSlot hwrite
  | copyVar dst src =>
    obtain ⟨srcPath, t, hsrc, h₁⟩ := bind_eq_ok.mp h
    obtain ⟨dstPath, t', hdst, h₂⟩ := bind_eq_ok.mp h₁
    obtain ⟨slot, t'', hslot, hwrite⟩ := bind_eq_ok.mp h₂
    obtain rfl := Exec.looks_path _ hsrc
    obtain rfl := Exec.looks_path _ hdst
    obtain rfl := Exec.looks_readSlot _ _ hslot
    exact Exec.touches_writeSlot hwrite
  | phi sources lanes | discard | jump j =>
    obtain ⟨-, rfl⟩ := pure_eq_ok.mp h
    exact ⟨rfl, .inl rfl⟩

/-! ### Blocks -/

namespace Function

variable {f : Function} {s s' : RunState} {b : BlockId} {r : Register} {rs : List Register} {jump : Option Jump}

/-- The instructions of a list up to the first that leaves the block. -/
def upToExit (f : Function) (rs : List Register) : List Register := rs.takeWhile fun r => f.exitAt r = none

theorem upToExit_cons (h : f.exitAt r = none) : f.upToExit (r :: rs) = r :: f.upToExit rs := by
  simp [upToExit, h]

theorem upToExit_cons_of_exit (h : f.exitAt r ≠ none) : f.upToExit (r :: rs) = [] := by
  simp [upToExit, h]

theorem upToExit_eq_self (h : rs.findSome? f.exitAt = none) : f.upToExit rs = rs := by
  rw [findSome?_eq_none_iff] at h
  unfold upToExit
  induction rs with
  | nil => rfl
  | cons r rs ih =>
    simp_all

theorem LeavesLast.mem_upToExit (h : f.LeavesLast) (hr : r ∈ f.code b) (hexit : f.exitAt r = none) :
    r ∈ f.upToExit (f.code b) := by
  have hne := ne_nil_of_mem hr
  rw [← dropLast_concat_getLast hne] at hr ⊢
  rw [upToExit, takeWhile_append_of_pos fun r' hr' => by simp [h b r' hr']]
  rcases mem_append.mp hr with hr | hr
  · exact mem_append_left _ hr
  simp_all

/-- What changes in a state when instructions are carried out. -/
structure CarriesOut (f : Function) (rs : List Register) (s s' : RunState) : Prop where
  previous : s'.previous = s.previous
  size : s'.registers.size = s.registers.size
  /-- Only the registers of what is carried out are written, and those of phis are not. -/
  keeps : ∀ r, r ∉ f.upToExit rs ∨ (∃ sources lanes, f.instructions[r]? = some (.phi sources lanes)) →
    s'.registers[r]? = s.registers[r]?
  loads : ∀ (r : Register) (bits : List Word), r ∈ f.upToExit rs →
    f.instructions[r]? = some (.loadConst bits) → r < s.registers.size →
      s'.registers[r]? = some (some (.ofWords bits))

namespace CarriesOut

theorem nil (f : Function) (s : RunState) : CarriesOut f [] s s where
  previous := rfl
  size := rfl
  keeps := fun _ _ => rfl
  loads := fun _ _ h => by cases h

theorem exit (hexit : f.exitAt r ≠ none) (hprevious : s'.previous = s.previous)
    (hregisters : s'.registers = s.registers) : CarriesOut f (r :: rs) s s' where
  previous := hprevious
  size := by rw [hregisters]
  keeps := fun _ _ => by rw [hregisters]
  loads := fun r' bits h => by
    rw [upToExit_cons_of_exit hexit] at h
    cases h

theorem skip (h : CarriesOut f rs s s') (hexit : f.exitAt r = none)
    (hr : ∀ bits, f.instructions[r]? ≠ some (.loadConst bits)) : CarriesOut f (r :: rs) s s' where
  previous := h.previous
  size := h.size
  keeps := fun r' hr' => by
    rw [upToExit_cons hexit] at hr'
    exact h.keeps r' (hr'.imp_left fun hr' hmem => hr' (mem_cons_of_mem r hmem))
  loads := fun r' bits hr' hi hlt => by
    rw [upToExit_cons hexit] at hr'
    refine h.loads r' bits ((mem_cons.mp hr').resolve_left ?_) hi hlt
    rintro rfl
    exact hr bits hi

theorem perform {i : Instruction} {t : RunState} (hi : f.instructions[r]? = some i)
    (hphi : ∀ sources lanes, i ≠ .phi sources lanes) (hexit : f.exitAt r = none)
    (hperform : i.perform r s = .ok () t) (h : CarriesOut f rs t s') :
    CarriesOut f (r :: rs) s s' := by
  have ht := Instruction.touches_perform hperform
  refine ⟨h.previous.trans ht.previous, h.size.trans ht.size, fun r' hr' => ?_, fun r' bits hr' hi' hlt => ?_⟩
  · rw [upToExit_cons hexit] at hr'
    have hne : r' ≠ r := by
      rintro rfl
      simp_all
    rw [h.keeps r' (hr'.imp_left fun hr' hmem => hr' (mem_cons_of_mem r hmem)), ht.getElem?_of_ne hne]
  · by_cases hlater : r' ∈ f.upToExit rs
    · exact h.loads r' bits hlater hi' (by rwa [ht.size])
    · -- it is this instruction, and none of the rest writes its register
      rw [upToExit_cons hexit] at hr'
      obtain rfl := (mem_cons.mp hr').resolve_right hlater
      obtain rfl : i = .loadConst bits := Option.some_inj.mp (hi.symm.trans hi')
      rw [h.keeps r' (.inl hlater)]
      obtain rfl := modify_eq_ok.mp hperform
      simp_all

end CarriesOut

theorem execInstructions_cons_none (h : f.instructions[r]? = none) :
    f.execInstructions (r :: rs) = f.execInstructions rs := by
  rw [execInstructions, h]

theorem execInstructions_cons_phi {sources : List PhiSource} {lanes : Nat}
    (h : f.instructions[r]? = some (.phi sources lanes)) :
    f.execInstructions (r :: rs) = f.execInstructions rs := by
  rw [execInstructions, h]

theorem execInstructions_cons_jump {j : Jump} (h : f.instructions[r]? = some (.jump j)) :
    f.execInstructions (r :: rs) = pure (some j) := by
  rw [execInstructions, h]

theorem execInstructions_cons_discard (h : f.instructions[r]? = some .discard) : f.execInstructions (r :: rs) =
      (modify fun s => { s with discarded := true }) >>= fun _ => pure (some .return) := by
  rw [execInstructions, h]

theorem execInstructions_cons {i : Instruction} (h : f.instructions[r]? = some i)
    (hphi : i.isPhi = false) (hexit : i.exit? = none) :
    f.execInstructions (r :: rs) = i.perform r >>= fun _ => f.execInstructions rs := by
  rw [execInstructions, h]
  cases i with
  | phi => cases hphi
  | jump => cases hexit
  | discard => cases hexit
  | _ => rfl

theorem carriesOut_of_execInstructions (h : f.execInstructions rs s = .ok jump s') :
    CarriesOut f rs s s' ∧ jump = rs.findSome? f.exitAt := by
  induction rs generalizing s with
  | nil =>
    obtain ⟨rfl, rfl⟩ := pure_eq_ok.mp h
    exact ⟨.nil f _, rfl⟩
  | cons r rs ih =>
    rw [findSome?_cons]
    cases hi : f.instructions[r]? with
    | none =>
      have hexit : f.exitAt r = none := by rw [exitAt, hi]; rfl
      rw [execInstructions_cons_none hi] at h
      obtain ⟨hcarries, hjump⟩ := ih h
      rw [hexit]
      exact ⟨hcarries.skip hexit (by simp [hi]), hjump⟩
    | some i =>
      have hexit : f.exitAt r = i.exit? := by rw [exitAt, hi]; rfl
      rw [hexit]
      by_cases hphi : i.isPhi
      · cases i with
        | phi sources lanes =>
          rw [execInstructions_cons_phi hi] at h
          obtain ⟨hcarries, hjump⟩ := ih h
          exact ⟨hcarries.skip hexit (by simp [hi]), hjump⟩
        | _ => cases hphi
      · cases hnone : i.exit? with
        | none =>
          rw [execInstructions_cons hi (by simpa using hphi) hnone, bind_eq_ok] at h
          obtain ⟨_, t, hperform, hrest⟩ := h
          obtain ⟨hcarries, hjump⟩ := ih hrest
          refine ⟨.perform hi ?_ (hexit.trans hnone) hperform hcarries, hjump⟩
          rintro sources lanes rfl
          exact hphi rfl
        | some j =>
          have hleaves : f.exitAt r ≠ none := by simp [hexit, hnone]
          cases i with
          | jump j' =>
            cases hnone
            rw [execInstructions_cons_jump hi] at h
            obtain ⟨rfl, rfl⟩ := pure_eq_ok.mp h
            exact ⟨.exit hleaves rfl rfl, rfl⟩
          | discard =>
            cases hnone
            rw [execInstructions_cons_discard hi, bind_eq_ok] at h
            obtain ⟨_, t, hmodify, hpure⟩ := h
            obtain rfl := modify_eq_ok.mp hmodify
            obtain ⟨rfl, rfl⟩ := pure_eq_ok.mp hpure
            exact ⟨.exit hleaves rfl rfl, rfl⟩
          | _ => cases hnone

/-! ### Phis -/

/-- Whether the instruction with a number is a phi. -/
def isPhiAt (f : Function) (r : Register) : Bool := (f.instructions[r]?).any (·.isPhi)

theorem isPhiAt_iff : f.isPhiAt r ↔ ∃ sources lanes, f.instructions[r]? = some (.phi sources lanes) := by
  unfold isPhiAt
  cases f.instructions[r]? with
  | none => simp
  | some i => cases i <;> simp [Instruction.isPhi]

/-- The phis that lead a list of instructions. -/
def phis (f : Function) (rs : List Register) : List Register := rs.takeWhile f.isPhiAt

/-- All phis of a block come before everything else in it. -/
def PhisLead (f : Function) (b : BlockId) : Prop := ∀ r ∈ (f.code b).dropWhile f.isPhiAt, f.isPhiAt r = false

/-- The source that a phi takes when control comes from a block. -/
def phiSource? (f : Function) (previous : Option BlockId) (r : Register) : Option PhiSource :=
  match f.instructions[r]? with
  | some (.phi sources _) => sources.find? fun s => some s.pred == previous
  | _ => none

/-- What changes in a state when the phis that lead a block are read. -/
structure TakesPhis (f : Function) (rs : List Register) (s s' : RunState) : Prop where
  previous : s'.previous = s.previous
  size : s'.registers.size = s.registers.size
  keeps : ∀ r, r ∉ f.phis rs → s'.registers[r]? = s.registers[r]?
  takes : ∀ r ∈ f.phis rs, ∃ source lanes, f.phiSource? s.previous r = some source ∧
    (s.registers[source.value]?).join = some lanes ∧
    (r < s.registers.size → s'.registers[r]? = some (some lanes))

/-- All phis are read in the same state. -/
theorem incoming_eq_ok {previous : Option BlockId} {values : List (Register × Lanes)}
    (h : f.incoming previous rs s = .ok values s') :
    s' = s ∧ values.map (·.1) = f.phis rs ∧ ∀ p ∈ values, ∃ source, f.phiSource? previous p.1 = some source ∧
        (s.registers[source.value]?).join = some p.2 := by
  induction rs generalizing values with
  | nil =>
    obtain ⟨rfl, rfl⟩ := pure_eq_ok.mp h
    exact ⟨rfl, rfl, by simp⟩
  | cons r rs ih =>
    unfold incoming at h
    have hstop (hphi : f.isPhiAt r = false) (h : (pure [] : Exec (List (Register × Lanes))) s = .ok values s') :
        s' = s ∧ values.map (·.1) = f.phis (r :: rs) ∧
          ∀ p ∈ values, ∃ source, f.phiSource? previous p.1 = some source ∧
            (s.registers[source.value]?).join = some p.2 := by
      obtain ⟨rfl, rfl⟩ := pure_eq_ok.mp h
      refine ⟨rfl, ?_, by simp⟩
      rw [phis, takeWhile_cons_of_neg (by simp [hphi])]
      rfl
    cases hi : f.instructions[r]? with
    | none =>
      simp only [hi] at h
      exact hstop (by simp [isPhiAt, hi]) h
    | some i =>
      by_cases hphi : i.isPhi
      · cases i with
        | phi sources lanes =>
          simp only [hi] at h
          cases hsource : sources.find? fun s => some s.pred == previous with
          | none =>
            simp only [hsource] at h
            exact (throw_eq_ok.mp h).elim
          | some source =>
            simp only [hsource] at h
            obtain ⟨value, t, hvalue, hrest⟩ := bind_eq_ok.mp h
            obtain ⟨hvalue, rfl⟩ := Exec.register_eq_ok.mp hvalue
            obtain ⟨values', t', hvalues', hpure⟩ := bind_eq_ok.mp hrest
            obtain ⟨rfl, rfl⟩ := pure_eq_ok.mp hpure
            obtain ⟨rfl, hmap, hall⟩ := ih hvalues'
            refine ⟨rfl, ?_, ?_⟩
            · rw [phis, takeWhile_cons_of_pos (by simp [isPhiAt, hi, Instruction.isPhi]), map_cons, hmap]
              rfl
            · intro p hp
              rcases mem_cons.mp hp with rfl | hp
              · exact ⟨source, by simp only [phiSource?, hi, hsource], hvalue⟩
              · exact hall p hp
        | _ => cases hphi
      · refine hstop (by simpa [isPhiAt, hi] using hphi) ?_
        cases i with
        | phi => exact (hphi rfl).elim
        | _ =>
          simp only [hi] at h
          exact h

/-- Values that are written one after another are there in the end; the last of a register counts. -/
theorem forM_define_eq_ok {values : List (Register × Lanes)}
    (h : (values.forM fun (r, lanes) => Exec.define r lanes) s = .ok () s') :
    s'.previous = s.previous ∧ s'.registers.size = s.registers.size ∧
      (∀ r ∉ values.map (·.1), s'.registers[r]? = s.registers[r]?) ∧
      ∀ r ∈ values.map (·.1), r < s.registers.size →
        ∃ p ∈ values, p.1 = r ∧ s'.registers[r]? = some (some p.2) := by
  induction values generalizing s with
  | nil =>
    obtain ⟨-, rfl⟩ := pure_eq_ok.mp h
    simp_all
  | cons p values ih =>
    obtain ⟨_, t, hdefine, hrest⟩ := bind_eq_ok.mp h
    obtain rfl := modify_eq_ok.mp hdefine
    obtain ⟨hprevious, hsize, hkeeps, hwrites⟩ := ih hrest
    simp only [Array.size_setIfInBounds] at hsize hwrites
    refine ⟨hprevious, hsize, fun r hr => ?_, fun r hr hlt => ?_⟩
    · grind
    · by_cases hlater : r ∈ values.map (·.1)
      · grind
      · obtain rfl : r = p.1 := (mem_cons.mp hr).resolve_right hlater
        refine ⟨p, mem_cons_self .., rfl, ?_⟩
        grind

/-- Reads the phis that lead a block. -/
def takePhis (f : Function) (b : BlockId) : Exec Unit := do
  let phis ← f.incoming (← get).previous (f.code b)
  phis.forM fun (r, lanes) => Exec.define r lanes

theorem takesPhis_of_takePhis (h : f.takePhis b s = .ok () s') : TakesPhis f (f.code b) s s' := by
  have h₁ := getBind_eq_ok.mp h
  obtain ⟨values, s₂, hincoming, hdefine⟩ := bind_eq_ok.mp h₁
  obtain ⟨rfl, hphis, hread⟩ := incoming_eq_ok hincoming
  obtain ⟨hprevious, hsize, hkeeps, hwrites⟩ := forM_define_eq_ok hdefine
  rw [hphis] at hkeeps hwrites
  refine ⟨hprevious, hsize, hkeeps, fun r hr => ?_⟩
  have hmem := hr
  rw [← hphis, mem_map] at hmem
  obtain ⟨p, hp, rfl⟩ := hmem
  obtain ⟨source, hsource, hlanes⟩ := hread p hp
  refine ⟨source, p.2, hsource, hlanes, fun hlt => ?_⟩
  -- a phi that is met twice reads the same both times
  obtain ⟨q, hq, hqr, hvalue⟩ := hwrites p.1 hr hlt
  obtain ⟨source', hsource', hlanes'⟩ := hread q hq
  simp_all

theorem execBlock_eq : f.execBlock b = f.takePhis b >>= fun _ => f.execInstructions (f.code b) >>= fun jump =>
      (modify fun s => { s with previous := some b }) >>= fun _ => pure jump := by
  simp only [takePhis, bind_assoc]
  rfl

theorem execBlock_eq_ok (h : f.execBlock b s = .ok jump s') :
    ∃ t t', TakesPhis f (f.code b) s t ∧ CarriesOut f (f.code b) t t' ∧
      s' = { t' with previous := some b } ∧ jump = f.exit? b := by
  rw [execBlock_eq] at h
  obtain ⟨_, t, htakes, h₁⟩ := bind_eq_ok.mp h
  obtain ⟨j, t', hexec, h₂⟩ := bind_eq_ok.mp h₁
  obtain ⟨_, s₁, hmodify, hpure⟩ := bind_eq_ok.mp h₂
  obtain rfl := modify_eq_ok.mp hmodify
  obtain ⟨rfl, rfl⟩ := pure_eq_ok.mp hpure
  obtain ⟨hcarries, hjump⟩ := carriesOut_of_execInstructions hexec
  exact ⟨t, t', takesPhis_of_takePhis htakes, hcarries, rfl, hjump⟩

theorem size_of_execBlock (h : f.execBlock b s = .ok jump s') : s'.registers.size = s.registers.size := by
  obtain ⟨t, t', htakes, hcarries, rfl, -⟩ := execBlock_eq_ok h
  exact hcarries.size.trans htakes.size

end Function

/-! ### Visits -/

/-- A block that a run enters, with the states in which control enters and leaves it. -/
structure Visit where
  block : BlockId
  entered : RunState
  /-- If the run fails in the block, the state in which it fails. -/
  left : RunState

/-- The blocks that a run enters from a position on, in order. -/
def Function.visits (f : Function) : (steps : Nat) → Position → RunState → List Visit
  | 0, _, _ => []
  | steps + 1, p, s =>
    match f.enter p s with
    | .ok (some q) s' => ⟨p.region.head, s, s'⟩ :: f.visits steps q s'
    | .ok none s' => [⟨p.region.head, s, s'⟩]
    | .error _ s' => [⟨p.region.head, s, s'⟩]

/-- The blocks that a machine enters when it runs a function. -/
def Machine.visits (machine : Machine) (f : Function) : List Visit :=
  f.visits machine.stepLimit { region := f.body } (machine.start f)

theorem Position.looks_next (p : Position) (jump : Option Jump) : EStateM.Looks (p.next jump) := by
  unfold Position.next
  split
  · split
    · split <;> exact .pure _
    · exact (Exec.looks_register _).bind fun _ => .pure _
    · exact .pure _
  · exact .pure _
  · split
    · exact .pure _
    · exact .throw _
  · split
    · exact .pure _
    · exact .throw _

theorem Function.enter_eq_ok {f : Function} {p : Position} {q : Option Position} : f.enter p s = .ok q s' ↔
      f.execBlock p.region.head s = .ok (f.exit? p.region.head) s' ∧
        p.next (f.exit? p.region.head) s' = .ok q s' := by
  unfold Function.enter
  rw [bind_eq_ok]
  constructor
  · rintro ⟨jump, t, hexec, hnext⟩
    obtain ⟨_, _, -, -, -, rfl⟩ := Function.execBlock_eq_ok hexec
    obtain rfl := p.looks_next _ hnext
    exact ⟨hexec, hnext⟩
  simp_all

end ShaderIR
