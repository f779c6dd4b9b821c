import Mathlib.Data.List.TakeWhile
import ShaderIR.Proofs.Progress
import ShaderIR.Proofs.Settling

/-!
# The order of code

A walk puts code at the ends of blocks, so in each block its instructions stand in the order of their
numbers. A point in the code of a block is given by a number: what comes before the first instruction
with that number or a higher one has been carried out there. What is filled in after the walk has
higher numbers and belongs to no point.

From one point to another, no register changes but those whose instructions come between. Registers that
constants are loaded into hold these whenever they hold anything.
-/

namespace ShaderIR

open EStateM List

namespace Function

variable {f : Function} {b : BlockId} {r : Register} {i : Instruction}

/-! ### Numbers -/

/-- In each block, instructions stand in the order of their numbers. -/
def Ascends (f : Function) : Prop := ∀ b, (f.code b).Pairwise (· < ·)

theorem Ascends.insert_append (h : f.Ascends) (hr : f.InRange) : (f.insert (.append b) i).2.Ascends := by
  intro b'
  by_cases hb : b' = b ∧ b < f.blocks.size
  · obtain ⟨rfl, hlt⟩ := hb
    rw [code_insert_append hlt, pairwise_append]
    refine ⟨h b', pairwise_singleton .., fun r hmem r' hr' => ?_⟩
    rw [mem_singleton.mp hr']
    exact hr b' r hmem
  · rw [code_insert_of_not hb]
    exact h b'

theorem Ascends.insertAll_append {is : List Instruction} (h : f.Ascends) (hr : f.InRange) :
    (f.insertAll (.append b) is).Ascends := by
  induction is generalizing f with
  | nil => exact h
  | cons i is ih => exact ih (h.insert_append hr) hr.insert

/-! ### Points in a block -/

/-- The instructions of a block before a point. Only those with numbers below `count` are counted. -/
def codeBefore (f : Function) (count point : Nat) (b : BlockId) : List Register :=
  (f.code b).takeWhile fun r => ¬(point ≤ r ∧ r < count)

theorem codeBefore_eq_code (f : Function) (count : Nat) (b : BlockId) :
    f.codeBefore count count b = f.code b := by
  refine takeWhile_eq_self_iff.mpr fun r _ => ?_
  simp_all

theorem le_of_mem_dropWhile {count point : Nat} {l : List Register} (hl : (l.filter (· < count)).Pairwise (· < ·))
    (hr : r ∈ l.dropWhile fun r => ¬(point ≤ r ∧ r < count)) : point ≤ r := by
  induction l with
  | nil => cases hr
  | cons r' l ih =>
    by_cases hr' : point ≤ r' ∧ r' < count
    · rw [dropWhile_cons_of_neg (by simpa using hr')] at hr
      rw [filter_cons_of_pos (by simpa using hr'.2), pairwise_cons] at hl
      rcases mem_cons.mp hr with rfl | hr
      · exact hr'.1
      · by_cases hlt : r < count
        · have := hl.1 r (mem_filter.mpr ⟨hr, by simpa using hlt⟩)
          exact Nat.le_trans hr'.1 (Nat.le_of_lt this)
        grind
    · rw [dropWhile_cons_of_pos (by simp only [decide_eq_true_eq]; exact hr')] at hr
      grind

section Points

variable {count point point' : Nat} (hcode : ((f.code b).filter (· < count)).Pairwise (· < ·))
include hcode

theorem mem_codeBefore (hr : r ∈ f.code b) (hlt : r < point) : r ∈ f.codeBefore count point b := by
  rw [← takeWhile_append_dropWhile (p := fun r => ¬(point ≤ r ∧ r < count)) (l := f.code b), mem_append] at hr
  exact hr.resolve_right fun hr => Nat.not_lt.mpr (le_of_mem_dropWhile hcode hr) hlt

theorem exists_codeBefore_eq (hle : point ≤ point') :
    ∃ rs, f.codeBefore count point' b = f.codeBefore count point b ++ rs ∧ ∀ r ∈ rs, point ≤ r := by
  have hcode' := takeWhile_append_dropWhile (p := fun r => ¬(point ≤ r ∧ r < count)) (l := f.code b)
  unfold codeBefore
  conv => enter [1, rs, 1, 1]; rw [← hcode']
  rw [takeWhile_append_of_pos fun r hr => ?_]
  · refine ⟨_, rfl, fun r hr => le_of_mem_dropWhile hcode (( takeWhile_prefix _).subset hr)⟩
  · have := mem_takeWhile_imp hr
    grind

end Points

/-! ### The state at a point -/

variable {s s' t u w : RunState} {rs rs' : List Register} {jump : Option Jump}

theorem execInstructions_append : f.execInstructions (rs ++ rs') = f.execInstructions rs >>= fun jump =>
      match jump with
      | some j => pure (some j)
      | none => f.execInstructions rs' := by
  induction rs with
  | nil =>
    rw [nil_append, execInstructions, pure_bind]
  | cons r rs ih =>
    rw [cons_append]
    cases hi : f.instructions[r]? with
    | none => rw [execInstructions_cons_none hi, execInstructions_cons_none hi, ih]
    | some i =>
      by_cases hphi : i.isPhi
      · obtain ⟨sources, lanes, hi⟩ := isPhiAt_iff.mp (show f.isPhiAt r by simp [isPhiAt, hi, hphi])
        rw [execInstructions_cons_phi hi, execInstructions_cons_phi hi, ih]
      · cases hexit : i.exit? with
        | none =>
          have hphi : i.isPhi = false := by simpa using hphi
          rw [execInstructions_cons hi hphi hexit, execInstructions_cons hi hphi hexit, ih, bind_assoc]
        | some j =>
          cases i with
          | jump j' => rw [execInstructions_cons_jump hi, execInstructions_cons_jump hi, pure_bind]
          | discard =>
            rw [execInstructions_cons_discard hi, execInstructions_cons_discard hi, bind_assoc]
            simp only [pure_bind]
          | _ => cases hexit

theorem exists_execInstructions (h : f.execInstructions (rs ++ rs') s = .ok jump u) :
    ∃ jump' t, f.execInstructions rs s = .ok jump' t ∧ ∀ r ∉ rs', u.registers[r]? = t.registers[r]? := by
  rw [execInstructions_append] at h
  obtain ⟨jump', t, hfirst, hrest⟩ := bind_eq_ok.mp h
  refine ⟨jump', t, hfirst, fun r hr => ?_⟩
  cases jump' with
  | some j =>
    obtain ⟨-, rfl⟩ := pure_eq_ok.mp hrest
    rfl
  | none =>
    refine (carriesOut_of_execInstructions hrest).1.keeps r (.inl fun hmem => hr ?_)
    exact ( takeWhile_prefix _).subset hmem

/-- The state in which a run that enters a block comes to a point in it. -/
def stateAt? (f : Function) (count : Nat) (b : BlockId) (point : Nat) (s : RunState) : Option RunState :=
  match f.takePhis b s with
  | .error .. => none
  | .ok _ t =>
    match f.execInstructions (f.codeBefore count point b) t with
    | .error .. => none
    | .ok _ u => some u

variable {count point point' : Nat}

theorem stateAt?_eq_some : f.stateAt? count b point s = some u ↔ ∃ t jump, f.takePhis b s = .ok () t ∧
      f.execInstructions (f.codeBefore count point b) t = .ok jump u := by
  unfold stateAt?
  grind

theorem exists_stateAt? (h : f.execBlock b s = .ok jump s') (count point : Nat) :
    ∃ u, f.stateAt? count b point s = some u := by
  rw [execBlock_eq] at h
  obtain ⟨_, t, htakes, h₁⟩ := bind_eq_ok.mp h
  obtain ⟨j, t', hexec, -⟩ := bind_eq_ok.mp h₁
  obtain ⟨rest, hrest⟩ : f.codeBefore count point b <+: f.code b := takeWhile_prefix _
  rw [← hrest] at hexec
  obtain ⟨jump', u, hu, -⟩ := exists_execInstructions hexec
  exact ⟨u, stateAt?_eq_some.mpr ⟨t, jump', htakes, hu⟩⟩

theorem stateAt?_of_execBlock (h : f.execBlock b s = .ok jump s') (count : Nat) :
    ∃ u, f.stateAt? count b count s = some u ∧ s' = { u with previous := some b } := by
  rw [execBlock_eq] at h
  obtain ⟨_, t, htakes, h₁⟩ := bind_eq_ok.mp h
  obtain ⟨j, t', hexec, h₂⟩ := bind_eq_ok.mp h₁
  obtain ⟨_, s₁, hmodify, hpure⟩ := bind_eq_ok.mp h₂
  obtain rfl := modify_eq_ok.mp hmodify
  obtain ⟨-, rfl⟩ := pure_eq_ok.mp hpure
  rw [← codeBefore_eq_code f count b] at hexec
  exact ⟨t', stateAt?_eq_some.mpr ⟨t, j, htakes, hexec⟩, rfl⟩

theorem takes_of_stateAt? (h : f.stateAt? count b point s = some u) (hr : r ∈ f.phis (f.code b)) :
    ∃ source lanes, f.phiSource? s.previous r = some source ∧ (s.registers[source.value]?).join = some lanes ∧
      (r < s.registers.size → u.registers[r]? = some (some lanes)) := by
  obtain ⟨t, jump, htakes, hexec⟩ := stateAt?_eq_some.mp h
  obtain ⟨source, lanes, hsource, hlanes, htaken⟩ := (takesPhis_of_takePhis htakes).takes r hr
  refine ⟨source, lanes, hsource, hlanes, fun hlt => ?_⟩
  have hphi := isPhiAt_iff.mp (mem_takeWhile_imp hr)
  rw [(carriesOut_of_execInstructions hexec).1.keeps r (.inr hphi), htaken hlt]

/-- Registers that constants are loaded into hold these or nothing yet. -/
def HoldsLoads (f : Function) (s : RunState) : Prop :=
  ∀ (r : Register) (words : List Word) (lanes : Lanes), f.instructions[r]? = some (.loadConst words) →
    (s.registers[r]?).join = some lanes → lanes = .ofWords words

section

variable (h : f.HoldsLoads s)
include h

theorem HoldsLoads.takesPhis (htakes : TakesPhis f rs s s') : f.HoldsLoads s' := by
  intro r words lanes hi hlanes
  rw [htakes.keeps r fun hphi => ?_] at hlanes
  · exact h r words lanes hi hlanes
  · obtain ⟨sources, lanes, hi'⟩ := isPhiAt_iff.mp (mem_takeWhile_imp hphi)
    cases hi.symm.trans hi'

theorem HoldsLoads.carriesOut (hcarries : CarriesOut f rs s s') : f.HoldsLoads s' := by
  intro r words lanes hi hlanes
  by_cases hr : r ∈ f.upToExit rs
  · have hlt : r < s.registers.size := by
      rw [← hcarries.size]
      grind
    rw [hcarries.loads r words hr hi hlt] at hlanes
    exact (Option.some_inj.mp hlanes).symm
  · rw [hcarries.keeps r (.inl hr)] at hlanes
    exact h r words lanes hi hlanes

theorem HoldsLoads.execBlock (hexec : f.execBlock b s = .ok jump s') : f.HoldsLoads s' := by
  obtain ⟨t, t', htakes, hcarries, rfl, -⟩ := execBlock_eq_ok hexec
  have ht' := (h.takesPhis htakes).carriesOut hcarries
  exact ht'

theorem HoldsLoads.stateAt? (hstate : f.stateAt? count b point s = some u) :
    f.HoldsLoads u := by
  obtain ⟨t, jump, htakes, hexec⟩ := stateAt?_eq_some.mp hstate
  exact (h.takesPhis (takesPhis_of_takePhis htakes)).carriesOut (carriesOut_of_execInstructions hexec).1

end

section Points

variable (hcode : ((f.code b).filter (· < count)).Pairwise (· < ·))
include hcode

theorem registers_stateAt?_of_le (h : f.stateAt? count b point s = some u)
    (h' : f.stateAt? count b point' s = some w) (hle : point ≤ point')
    (hr : r < point ∨ point' ≤ r ∧ r < count) : w.registers[r]? = u.registers[r]? := by
  obtain ⟨t, jump, htakes, hexec⟩ := stateAt?_eq_some.mp h
  obtain ⟨t', jump', htakes', hexec'⟩ := stateAt?_eq_some.mp h'
  cases htakes.symm.trans htakes'
  obtain ⟨rs, hrs, hrange⟩ := exists_codeBefore_eq hcode hle
  have hrs' : r ∉ rs := fun hmem => by
    have hbefore : r ∈ f.codeBefore count point' b := by rw [hrs]; exact mem_append_right _ hmem
    rcases hr with hlt | hbehind
    · exact Nat.not_lt.mpr (hrange r hmem) hlt
    · have := mem_takeWhile_imp hbefore
      rw [decide_eq_true_eq] at this
      exact this hbehind
  rw [hrs] at hexec'
  obtain ⟨jump'', u', hexec'', hkeeps⟩ := exists_execInstructions hexec'
  cases hexec.symm.trans hexec''
  exact hkeeps r hrs'

theorem load_of_stateAt? (h : f.stateAt? count b point s = some u) {words : List Word}
    (hr : r ∈ f.upToExit (f.code b)) (hi : f.instructions[r]? = some (.loadConst words))
    (hlt : r < point) (hsize : r < s.registers.size) :
    u.registers[r]? = some (some (.ofWords words)) := by
  obtain ⟨t, jump, htakes, hexec⟩ := stateAt?_eq_some.mp h
  refine (carriesOut_of_execInstructions hexec).1.loads r words ?_ hi ?_
  · have hmem := mem_codeBefore hcode (( takeWhile_prefix _).subset hr) hlt
    obtain ⟨rest, hrest⟩ : f.codeBefore count point b <+: f.code b := takeWhile_prefix _
    rw [← hrest, upToExit, takeWhile_append] at hr
    split at hr
    · rename_i hall
      rw [upToExit, ( takeWhile_prefix _).eq_of_length hall]
      exact hmem
    · exact hr
  · rwa [(takesPhis_of_takePhis htakes).size]

end Points

end Function

namespace Spirv.Structure

/-! ### Walks -/

variable {c c' : Context}

theorem WalkStep.ascends (h : WalkStep c c') (hr : c.function.InRange) (hc : c.function.Ascends) :
    c'.function.Ascends := by
  cases h with
  | plain hgrows =>
    obtain ⟨is, locals, -, hf⟩ := hgrows.function
    rw [hf]
    exact hc.insertAll_append hr
  | phi hstep =>
    obtain ⟨is, c₁, id, t, -, hinserts, -, -, pending, -, hc'⟩ := hstep.defines
    rw [hc']
    change c₁.function.Ascends
    rw [hinserts.function]
    exact hc.insertAll_append hr
  | append block => exact hc.insert_append hr
  | openLoop =>
    intro b
    rw [Context.code_openLoop]
    exact hc b
  | openConditional =>
    intro b
    rw [Context.code_openConditional]
    exact hc b
  | _ => exact hc

theorem WalksOn.ascends (h : WalksOn c c') (hr : c.function.InRange) (hc : c.function.Ascends) :
    c'.function.Ascends := by
  induction h with
  | refl => exact hc
  | tail hsteps hstep ih => exact hstep.ascends (WalksOn.continues hsteps |>.inRange hr) ih

end Spirv.Structure

end ShaderIR
