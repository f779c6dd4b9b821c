import ShaderIR.Proofs.Flow
import ShaderIR.Proofs.Run

/-!
# Filling in phis

When the sources of phis are filled in, a function gains phis at the front of blocks, constants
before the jumps that end them, and sources of phis. Everything that decides where a run goes stays
as it was: the region, the edges, and how control leaves each block.
-/

namespace ShaderIR

open List

/-- An instruction stays as it is, or gains sources if it is a phi. -/
inductive Instruction.Gains : Instruction → Instruction → Prop
  | refl (i : Instruction) : Gains i i
  | sources (sources more : List PhiSource) (lanes : Nat) :
      Gains (.phi sources lanes) (.phi (sources ++ more) lanes)

namespace Instruction.Gains

variable {i i' i'' : Instruction}

protected theorem trans (h : Gains i i') (h' : Gains i' i'') : Gains i i'' := by
  cases h with
  | refl => exact h'
  | sources sources more lanes =>
    cases h' with
    | refl => exact .sources sources more lanes
    | sources _ more' =>
      rw [append_assoc]
      exact .sources sources (more ++ more') lanes

theorem exit?_eq (h : Gains i i') : i'.exit? = i.exit? := by cases h <;> rfl

theorem isPhi_eq (h : Gains i i') : i'.isPhi = i.isPhi := by cases h <;> rfl

theorem eq_of_not_isPhi (h : Gains i i') (hi : i.isPhi = false) : i' = i := by
  cases h with
  | refl => rfl
  | sources => cases hi

end Instruction.Gains

namespace Function

variable {f g h : Function} {b : BlockId} {r : Register} {i : Instruction} {is : List Instruction}
  {l : List Register}

/-- What filling in the sources of phis keeps of a function. -/
structure Settles (f g : Function) : Prop where
  body : g.body = f.body
  size : g.blocks.size = f.blocks.size
  preds : ∀ b, g.preds b = f.preds b
  succs : ∀ b, g.succs b = f.succs b
  instructions : ∀ (r : Register) (i : Instruction), f.instructions[r]? = some i →
    ∃ i', g.instructions[r]? = some i' ∧ i.Gains i'
  inRange : f.InRange → g.InRange
  exit : f.InRange → ∀ b, g.exit? b = f.exit? b
  tidy : f.InRange → f.Tidy → g.Tidy
  jump : f.InRange → ∀ b, g.jump? b = f.jump? b
  jumpsLast : f.InRange → f.JumpsLast → g.JumpsLast
  code : ∀ b, ∀ r ∈ f.code b, r ∈ g.code b
  /-- What was in a block keeps its order there. -/
  order : f.InRange → ∀ b, (g.code b).filter (· < f.instructions.size) = f.code b
  /-- The phis that lead a block still do. -/
  phis : f.InRange → ∀ b, ∀ r ∈ f.phis (f.code b), r ∈ g.phis (g.code b)
  phisLead : f.InRange → ∀ b, f.PhisLead b → g.PhisLead b
  /-- What is carried out on every visit of a block still is. -/
  upToExit : f.InRange → ∀ b, ∀ r ∈ f.upToExit (f.code b), r ∈ g.upToExit (g.code b)

theorem InRange.filter_code (h : f.InRange) (b : BlockId) :
    (f.code b).filter (· < f.instructions.size) = f.code b :=
  filter_eq_self.mpr fun r hr => by simpa using h b r hr

theorem size_le_of_gains (h : ∀ (r : Register) (i : Instruction), f.instructions[r]? = some i →
    ∃ i', g.instructions[r]? = some i' ∧ i.Gains i') : f.instructions.size ≤ g.instructions.size := by
  by_contra hlt
  obtain ⟨i', hi', -⟩ := h _ _ (Array.getElem?_eq_getElem (Nat.not_le.mp hlt))
  exact Nat.lt_irrefl _ (Array.getElem?_eq_some_iff.mp hi').1

namespace Settles

protected theorem refl (f : Function) : Settles f f where
  body := rfl
  size := rfl
  preds := fun _ => rfl
  succs := fun _ => rfl
  instructions := fun _ i hi => ⟨i, hi, .refl i⟩
  inRange := id
  exit := fun _ _ => rfl
  tidy := fun _ => id
  jump := fun _ _ => rfl
  jumpsLast := fun _ => id
  code := fun _ _ => id
  order := fun hr => hr.filter_code
  phis := fun _ _ _ => id
  phisLead := fun _ _ => id
  upToExit := fun _ _ _ => id

protected theorem trans (hf : Settles f g) (hg : Settles g h) : Settles f h where
  body := hg.body.trans hf.body
  size := hg.size.trans hf.size
  preds := fun b => (hg.preds b).trans (hf.preds b)
  succs := fun b => (hg.succs b).trans (hf.succs b)
  instructions := fun r i hi => by
    obtain ⟨i', hi', hgains⟩ := hf.instructions r i hi
    obtain ⟨i'', hi'', hgains'⟩ := hg.instructions r i' hi'
    exact ⟨i'', hi'', hgains.trans hgains'⟩
  inRange := hg.inRange ∘ hf.inRange
  exit := fun hr b => (hg.exit (hf.inRange hr) b).trans (hf.exit hr b)
  tidy := fun hr ht => hg.tidy (hf.inRange hr) (hf.tidy hr ht)
  jump := fun hr b => (hg.jump (hf.inRange hr) b).trans (hf.jump hr b)
  jumpsLast := fun hr hj => hg.jumpsLast (hf.inRange hr) (hf.jumpsLast hr hj)
  code := fun b r hr => hg.code b r (hf.code b r hr)
  order := fun hr b => by
    have hle := size_le_of_gains hf.instructions
    rw [← hf.order hr b, ← hg.order (hf.inRange hr) b, filter_filter]
    grind
  phis := fun hr b r h => hg.phis (hf.inRange hr) b r (hf.phis hr b r h)
  phisLead := fun hr b h => hg.phisLead (hf.inRange hr) b (hf.phisLead hr b h)
  upToExit := fun hr b r h => hg.upToExit (hf.inRange hr) b r (hf.upToExit hr b r h)

theorem getElem?_instructions (hs : Settles f g) (hi : f.instructions[r]? = some i)
    (hphi : i.isPhi = false) : g.instructions[r]? = some i := by
  obtain ⟨i', hi', hgains⟩ := hs.instructions r i hi
  rw [hi', hgains.eq_of_not_isPhi hphi]

theorem phiSource?_eq (hs : Settles f g) {previous : Option BlockId} {source : PhiSource}
    (h : f.phiSource? previous r = some source) : g.phiSource? previous r = some source := by
  unfold phiSource? at h ⊢
  split at h
  · rename_i sources lanes hi
    obtain ⟨i', hi', hgains⟩ := hs.instructions r _ hi
    rw [hi']
    cases hgains with
    | refl => exact h
    | sources _ more =>
      simp only [find?_append, h, Option.some_or]
  · cases h

end Settles

/-! ### Gaining sources -/

section Replace

variable {sources more : List PhiSource} {lanes : Nat}

theorem settles_replace (hr : f.instructions[r]? = some (.phi sources lanes)) :
    Settles f (f.replace r (.phi (sources ++ more) lanes)) := by
  obtain ⟨hlt, -⟩ := Array.getElem?_eq_some_iff.mp hr
  have hself : (f.replace r (.phi (sources ++ more) lanes)).instructions[r]? =
      some (.phi (sources ++ more) lanes) := Array.getElem?_setIfInBounds_self_of_lt hlt
  have hother {r' : Register} (hne : r' ≠ r) :
      (f.replace r (.phi (sources ++ more) lanes)).instructions[r']? = f.instructions[r']? :=
    Array.getElem?_setIfInBounds_ne hne.symm
  have hexit : (f.replace r (.phi (sources ++ more) lanes)).exitAt = f.exitAt := by
    funext r'
    unfold exitAt
    by_cases hne : r' = r
    · rw [hne, hself, hr]
      rfl
    · rw [hother hne]
  have hphi : (f.replace r (.phi (sources ++ more) lanes)).isPhiAt = f.isPhiAt := by
    funext r'
    unfold isPhiAt
    by_cases hne : r' = r
    · rw [hne, hself, hr]
      rfl
    · rw [hother hne]
  have hjump : (f.replace r (.phi (sources ++ more) lanes)).jumpAt = f.jumpAt := by
    funext r'
    unfold jumpAt
    by_cases hne : r' = r
    · rw [hne, hself, hr]
      rfl
    · rw [hother hne]
  refine ⟨rfl, rfl, fun _ => rfl, fun _ => rfl, fun r' i hi => ?_, fun h b r' hr' => ?_, fun _ b => ?_,
    fun _ ht => ?_, fun _ b => ?_, fun _ hlast => ?_, fun _ _ => id, fun h => h.filter_code,
    fun _ b r' => ?_, fun _ b => ?_, fun _ b r' => ?_⟩
  · by_cases hne : r' = r
    · subst hne
      obtain rfl := Option.some_inj.mp (hr.symm.trans hi)
      exact ⟨_, hself, .sources ..⟩
    · exact ⟨i, (hother hne).trans hi, .refl i⟩
  · simpa [replace] using h b r' hr'
  · change (f.code b).findSome? _ = _
    rw [hexit]
    rfl
  · intro b hb
    rw [hexit]
    refine ht b ?_
    rwa [exit?, hexit] at hb
  · rw [jump?_eq, jump?_eq]
    change (f.code b).getLast?.bind (jumpAt _) = _
    rw [hjump]
    rfl
  · intro b r' hr'
    rw [hjump]
    exact hlast b r' hr'
  · change r' ∈ (f.code b).takeWhile _ → r' ∈ (f.code b).takeWhile _
    rw [hphi]
    exact id
  · unfold PhisLead
    rw [hphi]
    exact id
  · change r' ∈ (f.code b).takeWhile _ → r' ∈ (f.code b).takeWhile _
    rw [hexit]
    exact id

end Replace

/-! ### Gaining instructions -/

variable {p : Register → Bool} {l' l : List Register}

theorem mem_takeWhile_insert {x y : Register} (hx : p x) (hy : y ∈ (l ++ l').takeWhile p) :
    y ∈ (l ++ x :: l').takeWhile p := by
  rw [takeWhile_append] at hy ⊢
  split_ifs at hy ⊢
  · rw [takeWhile_cons_of_pos hx]
    simp only [mem_append, mem_cons] at hy ⊢
    tauto
  · exact hy

theorem mem_takeWhile_append {y : Register} (hl' : ∀ z ∈ l'.head?, p z = false)
    (hy : y ∈ (l ++ l').takeWhile p) (m : List Register) : y ∈ (l ++ m).takeWhile p := by
  have hnil : l'.takeWhile p = [] := by
    cases l' with
    | nil => rfl
    | cons z l' => exact takeWhile_cons_of_neg (by simp [hl' z rfl])
  rw [takeWhile_append, hnil, append_nil] at hy
  rw [takeWhile_append]
  grind

theorem takeWhile_congr {q : Register → Bool} (h : ∀ r ∈ l, p r = q r) : l.takeWhile p = l.takeWhile q := by
  induction l with
  | nil => rfl
  | cons r l ih =>
    rw [takeWhile_cons, takeWhile_cons, h r (mem_cons_self ..), ih fun r' hr' => h r' (mem_cons_of_mem r hr')]

theorem mem_dropWhile_append {α : Type} {p : α → Bool} {y : α} {l l' : List α}
    (hy : y ∈ (l ++ l').dropWhile p) : y ∈ l.dropWhile p ∨ y ∈ l' := by
  rw [dropWhile_append] at hy
  split at hy
  · exact .inr ((dropWhile_suffix p).subset hy)
  · exact mem_append.mp hy

theorem mem_dropWhile_append_left {α : Type} {p : α → Bool} {y : α} {l l' : List α}
    (hy : y ∈ l.dropWhile p) : y ∈ (l ++ l').dropWhile p := by
  rw [dropWhile_append, if_neg]
  · exact mem_append_left l' hy
  grind

theorem dropWhile_congr {q : Register → Bool} (h : ∀ r ∈ l, p r = q r) : l.dropWhile p = l.dropWhile q := by
  induction l with
  | nil => rfl
  | cons r l ih =>
    rw [dropWhile_cons, dropWhile_cons, h r (mem_cons_self ..), ih fun r' hr' => h r' (mem_cons_of_mem r hr')]

section Insert

variable {spot : Spot}

theorem isPhiAt_insert_of_lt (hr : r < f.instructions.size) : (f.insert spot i).2.isPhiAt r = f.isPhiAt r := by
  simp [isPhiAt, Array.getElem?_push, Nat.ne_of_lt hr]

theorem isPhiAt_insert_size : (f.insert spot i).2.isPhiAt f.instructions.size = i.isPhi := by
  simp [isPhiAt]

theorem phis_congr (h : ∀ r ∈ l, r < f.instructions.size) :
    (f.insert spot i).2.phis l = f.phis l := takeWhile_congr fun r hr => isPhiAt_insert_of_lt (h r hr)

theorem dropWhile_isPhiAt_insert (h : ∀ r ∈ l, r < f.instructions.size) :
    l.dropWhile (f.insert spot i).2.isPhiAt = l.dropWhile f.isPhiAt :=
  dropWhile_congr fun r hr => isPhiAt_insert_of_lt (h r hr)

theorem upToExit_congr (h : ∀ r ∈ l, r < f.instructions.size) : (f.insert spot i).2.upToExit l = f.upToExit l :=
  takeWhile_congr fun r hr => by rw [exitAt_insert_of_lt (h r hr)]

theorem jumpAt_insert_of_lt (hr : r < f.instructions.size) : (f.insert spot i).2.jumpAt r = f.jumpAt r := by
  simp [jumpAt, Array.getElem?_push, Nat.ne_of_lt hr]

theorem jumpAt_insert_size (hi : i.exit? = none) : (f.insert spot i).2.jumpAt f.instructions.size = none := by
  cases i <;> simp_all [jumpAt, Instruction.jump?, Instruction.exit?]

/-- An instruction that stays in its block may be put in wherever it keeps jumps at the ends of
blocks and phis at their fronts. -/
theorem settles_insert (hi : i.exit? = none) (htidy : f.InRange → f.Tidy → (f.insert spot i).2.Tidy)
    (hjump : f.InRange → spot.block < f.blocks.size → (f.insert spot i).2.jump? spot.block = f.jump? spot.block)
    (hlast : f.InRange → spot.block < f.blocks.size → f.JumpsLast →
      ∀ r ∈ ((f.insert spot i).2.code spot.block).dropLast, (f.insert spot i).2.jumpAt r = none)
    (hphis : f.InRange → spot.block < f.blocks.size → ∀ r ∈ f.phis (f.code spot.block),
      r ∈ (f.insert spot i).2.phis ((f.insert spot i).2.code spot.block))
    (hlead : f.InRange → spot.block < f.blocks.size → f.PhisLead spot.block →
      (f.insert spot i).2.PhisLead spot.block) :
    Settles f (f.insert spot i).2 where
  body := rfl
  size := insert_size
  preds := fun _ => preds_insert
  succs := fun _ => succs_insert
  instructions := fun r i' hi' => by
    obtain ⟨hlt, -⟩ := Array.getElem?_eq_some_iff.mp hi'
    refine ⟨i', ?_, .refl i'⟩
    rw [insert_instructions, Array.getElem?_push, if_neg (Nat.ne_of_lt hlt), hi']
  inRange := fun h => h.insert
  exit := fun h b => exit?_insert h hi
  tidy := htidy
  jump := fun h b => by
    by_cases hb : b = spot.block ∧ spot.block < f.blocks.size
    · obtain ⟨rfl, hlt⟩ := hb
      exact hjump h hlt
    · refine jump?_congr (code_insert_of_not hb) fun r hr => ?_
      rw [insert_instructions, Array.getElem?_push, if_neg (Nat.ne_of_lt (h b r hr))]
  jumpsLast := fun h hj b r hr => by
    by_cases hb : b = spot.block ∧ spot.block < f.blocks.size
    · obtain ⟨rfl, hlt⟩ := hb
      exact hlast h hlt hj r hr
    · rw [code_insert_of_not hb] at hr
      rw [jumpAt_insert_of_lt (h b r (dropLast_subset _ hr)), hj b r hr]
  code := fun b r hr => mem_code_insert.mpr (.inl hr)
  order := fun h b => by
    by_cases hb : b = spot.block ∧ spot.block < f.blocks.size
    · obtain ⟨rfl, hlt⟩ := hb
      obtain ⟨before, after, hold, hnew⟩ := code_insert (i := i) hlt
      rw [hnew, filter_append, filter_cons_of_neg (by simp), ← filter_append, ← hold, h.filter_code]
    · rw [code_insert_of_not hb, h.filter_code]
  phis := fun h b r hr => by
    by_cases hb : b = spot.block ∧ spot.block < f.blocks.size
    · obtain ⟨rfl, hlt⟩ := hb
      exact hphis h hlt r hr
    · rw [code_insert_of_not hb, phis_congr (h b)]
      exact hr
  phisLead := fun h b hb => by
    by_cases hspot : b = spot.block ∧ spot.block < f.blocks.size
    · obtain ⟨rfl, hlt⟩ := hspot
      exact hlead h hlt hb
    · intro r hr
      rw [code_insert_of_not hspot, dropWhile_isPhiAt_insert (h b)] at hr
      rw [isPhiAt_insert_of_lt (h b r ((dropWhile_suffix _).subset hr)), hb r hr]
  upToExit := fun h b r hr => by
    by_cases hb : b = spot.block ∧ spot.block < f.blocks.size
    · obtain ⟨rfl, hlt⟩ := hb
      obtain ⟨before, after, hold, hnew⟩ := code_insert (i := i) hlt
      rw [← upToExit_congr (h spot.block), hold] at hr
      rw [hnew]
      exact mem_takeWhile_insert (by simp [exitAt_insert_size, hi]) hr
    · rw [code_insert_of_not hb, upToExit_congr (h b)]
      exact hr

theorem mem_dropLast_insert_front (hb : b < f.blocks.size)
    (hr : r ∈ ((f.insert (.front b) i).2.code b).dropLast) :
    r = f.instructions.size ∨ r ∈ (f.code b).dropLast := by
  rw [code_insert_front hb] at hr
  cases hcode : f.code b with
  | nil => simp [hcode] at hr
  | cons r' rs =>
    simp_all

theorem settles_insert_front (hi : i.isPhi) : Settles f (f.insert (.front b) i).2 := by
  have hexit : i.exit? = none := by
    cases i with
    | phi => rfl
    | _ => cases hi
  refine settles_insert hexit (fun h ht b' hb' r hr => ?_) (fun h hlt => ?_) (fun h hlt hj r hr => ?_)
    (fun h hlt r hr => ?_) fun h hlt hlead r hr => ?_
  · rw [exit?_insert h hexit] at hb'
    by_cases hb : b' = b ∧ b < f.blocks.size
    · obtain ⟨rfl, hlt⟩ := hb
      rcases mem_dropLast_insert_front hlt hr with rfl | hr
      · rw [exitAt_insert_size, hexit]
      · rw [exitAt_insert_of_lt (h b' r (dropLast_subset _ hr)), ht b' hb' r hr]
    · rw [code_insert_of_not hb] at hr
      rw [exitAt_insert_of_lt (h b' r (dropLast_subset _ hr)), ht b' hb' r hr]
  · simp only [Spot.block] at hlt ⊢
    rw [jump?_eq, jump?_eq, code_insert_front hlt]
    change _ = (f.code b).getLast?.bind f.jumpAt
    cases hcode : (f.code b).getLast? with
    | none =>
      rw [getLast?_eq_none_iff.mp hcode]
      exact jumpAt_insert_size hexit
    | some last =>
      rw [getLast?_cons, hcode]
      exact jumpAt_insert_of_lt (h b last (mem_of_getLast? hcode))
  · rcases mem_dropLast_insert_front hlt hr with rfl | hr
    · exact jumpAt_insert_size hexit
    · rw [jumpAt_insert_of_lt (h b r (dropLast_subset _ hr)), hj b r hr]
  · simp only [Spot.block] at hlt hr ⊢
    rw [code_insert_front hlt, phis, takeWhile_cons_of_pos (by rwa [isPhiAt_insert_size])]
    refine mem_cons_of_mem _ ?_
    change r ∈ (f.insert (.front b) i).2.phis (f.code b)
    rwa [phis_congr (h b)]
  · simp only [Spot.block] at hlt hlead hr
    rw [code_insert_front hlt, dropWhile_cons_of_pos (by rwa [isPhiAt_insert_size]),
      dropWhile_isPhiAt_insert (h b)] at hr
    rw [isPhiAt_insert_of_lt (h b r ((dropWhile_suffix _).subset hr)), hlead r hr]

theorem isPhiAt_of_jump? {init : List Register} {last : Register} (hjump : f.jump? b ≠ none)
    (hcode : f.code b = init ++ [last]) : f.isPhiAt last = false := by
  rw [jump?_eq, hcode, getLast?_concat, Option.bind_some] at hjump
  unfold isPhiAt
  cases hi : f.instructions[last]? with
  | none => rfl
  | some i' => cases i' <;> simp_all [Instruction.jump?, Instruction.isPhi]

theorem settles_insert_beforeJump (hexit : i.exit? = none) (hphi : i.isPhi = false) :
    Settles f (f.insert (.beforeJump b) i).2 := by
  refine settles_insert hexit (fun h ht b' hb' r hr => ?_) (fun h hlt => ?_) (fun h hlt hj r hr => ?_)
    (fun h hlt r hr => ?_) fun h hlt hlead r hr => ?_
  · rw [exit?_insert h hexit] at hb'
    by_cases hb : b' = b ∧ b < f.blocks.size
    · obtain ⟨rfl, hlt⟩ := hb
      rcases code_insert_beforeJump (i := i) hlt with ⟨init, last, -, hold, hnew⟩ | ⟨hjump, hnew⟩
      · have hinit : init = (f.code b').dropLast := by rw [hold, dropLast_concat]
        rw [hnew, dropLast_append_of_ne_nil (by simp)] at hr
        rcases mem_append.mp hr with hr | hr
        · rw [hinit] at hr
          rw [exitAt_insert_of_lt (h b' r (dropLast_subset _ hr)), ht b' hb' r hr]
        · obtain rfl : r = f.instructions.size := by simpa using hr
          rw [exitAt_insert_size, hexit]
      · -- a block without a jump at its end that does not return is not left before its end
        have hnone : f.exit? b' = none := by
          cases hj : f.exit? b' with
          | none => rfl
          | some j =>
            have := ht.jump?_eq hj (by rintro rfl; exact hb' hj)
            simp [hjump] at this
        rw [hnew, dropLast_concat] at hr
        rw [exitAt_insert_of_lt (h b' r hr), exitAt_of_exit?_none hnone hr]
    · rw [code_insert_of_not hb] at hr
      rw [exitAt_insert_of_lt (h b' r (dropLast_subset _ hr)), ht b' hb' r hr]
  · simp only [Spot.block] at hlt ⊢
    rcases code_insert_beforeJump (i := i) hlt with ⟨init, last, -, hold, hnew⟩ | ⟨hjump, hnew⟩
    · rw [jump?_eq, jump?_eq, hnew, hold, append_cons, getLast?_concat, getLast?_concat]
      refine jumpAt_insert_of_lt (h b last ?_)
      simp [hold]
    · rw [hjump, jump?_eq, hnew, getLast?_concat]
      exact jumpAt_insert_size hexit
  · simp only [Spot.block] at hlt hr
    rcases code_insert_beforeJump (i := i) hlt with ⟨init, last, -, hold, hnew⟩ | ⟨hjump, hnew⟩
    · have hinit : init = (f.code b).dropLast := by rw [hold, dropLast_concat]
      rw [hnew, append_cons, dropLast_concat] at hr
      rcases mem_append.mp hr with hr | hr
      · rw [hinit] at hr
        rw [jumpAt_insert_of_lt (h b r (dropLast_subset _ hr)), hj b r hr]
      · obtain rfl := mem_singleton.mp hr
        exact jumpAt_insert_size hexit
    · rw [hnew, dropLast_concat] at hr
      rw [jumpAt_insert_of_lt (h b r hr)]
      cases hr' : f.jumpAt r with
      | none => rfl
      | some j => cases hjump.symm.trans (hj.jump?_eq hr hr')
  · simp only [Spot.block] at hlt hr ⊢
    rcases code_insert_beforeJump (i := i) hlt with ⟨init, last, hjump, hold, hnew⟩ | ⟨-, hnew⟩
    · have hlast := isPhiAt_of_jump? hjump hold
      have hrange := h b
      rw [hold] at hr hrange
      rw [← phis_congr hrange] at hr
      rw [hnew]
      refine mem_takeWhile_append (fun z hz => ?_) hr _
      obtain rfl : z = last := by simpa using hz.symm
      rw [isPhiAt_insert_of_lt (hrange z (by simp)), hlast]
    · rw [hnew]
      rw [← phis_congr (h b), ← append_nil (f.code b)] at hr
      exact mem_takeWhile_append (by simp) hr _
  · simp only [Spot.block] at hlt hlead hr
    have hnew {r : Register} (hr : r = f.instructions.size) :
        (f.insert (.beforeJump b) i).2.isPhiAt r = false := by rw [hr, isPhiAt_insert_size, hphi]
    have hold {r : Register} {l l' : List Register} (hcode : f.code b = l ++ l')
        (hr : r ∈ l.dropWhile (f.insert (.beforeJump b) i).2.isPhiAt) :
        (f.insert (.beforeJump b) i).2.isPhiAt r = false := by
      have hrange : ∀ r ∈ l, r < f.instructions.size := fun r hr => h b r (by simp [hcode, hr])
      rw [dropWhile_isPhiAt_insert hrange] at hr
      rw [isPhiAt_insert_of_lt (hrange r ((dropWhile_suffix _).subset hr))]
      refine hlead r ?_
      rw [hcode]
      exact mem_dropWhile_append_left hr
    rcases code_insert_beforeJump (i := i) hlt with ⟨init, last, hjump, hcode, hcode'⟩ | ⟨-, hcode'⟩
    · rw [hcode'] at hr
      rcases mem_dropWhile_append hr with hr | hr
      · exact hold hcode hr
      · rcases mem_cons.mp hr with hr | hr
        · exact hnew hr
        · obtain rfl := mem_singleton.mp hr
          rw [isPhiAt_insert_of_lt (h b r (by simp [hcode])), isPhiAt_of_jump? hjump hcode]
    · rw [hcode'] at hr
      rcases mem_dropWhile_append hr with hr | hr
      · exact hold (append_nil _).symm hr
      · exact hnew (mem_singleton.mp hr)

theorem settles_insertAll_front (his : ∀ i ∈ is, i.isPhi) : Settles f (f.insertAll (.front b) is) := by
  induction is generalizing f with
  | nil => exact .refl f
  | cons i is ih =>
    exact (settles_insert_front (his i (mem_cons_self ..))).trans (ih fun j hj => his j (mem_cons_of_mem i hj))

theorem settles_insertAll_beforeJump
    (his : ∀ i ∈ is, i.exit? = none ∧ i.isPhi = false) : Settles f (f.insertAll (.beforeJump b) is) := by
  induction is generalizing f with
  | nil => exact .refl f
  | cons i is ih =>
    obtain ⟨hexit, hphi⟩ := his i (mem_cons_self ..)
    exact (settles_insert_beforeJump hexit hphi).trans (ih fun j hj => his j (mem_cons_of_mem i hj))

theorem PhisLead.insert_append {b' : BlockId} (hlead : f.PhisLead b') (h : f.InRange)
    (hphi : i.isPhi = false) : (f.insert (.append b) i).2.PhisLead b' := by
  intro r hr
  have hold (hr : r ∈ (f.code b').dropWhile (f.insert (.append b) i).2.isPhiAt) :
      (f.insert (.append b) i).2.isPhiAt r = false := by
    rw [dropWhile_isPhiAt_insert (h b')] at hr
    rw [isPhiAt_insert_of_lt (h b' r ((dropWhile_suffix _).subset hr)), hlead r hr]
  by_cases hb : b' = b ∧ b < f.blocks.size
  · obtain ⟨rfl, hlt⟩ := hb
    rw [code_insert_append hlt] at hr
    rcases mem_dropWhile_append hr with hr | hr
    · exact hold hr
    · rw [mem_singleton.mp hr, isPhiAt_insert_size, hphi]
  · rw [code_insert_of_not hb] at hr
    exact hold hr

theorem PhisLead.insertAll_append {b' : BlockId} (hlead : f.PhisLead b')
    (h : f.InRange) (his : ∀ i ∈ is, i.isPhi = false) : (f.insertAll (.append b) is).PhisLead b' := by
  induction is generalizing f with
  | nil => exact hlead
  | cons i is ih =>
    exact ih (hlead.insert_append h (his i (mem_cons_self ..))) h.insert fun j hj => his j (mem_cons_of_mem i hj)

/-! ### Where new instructions stand -/

theorem mem_phis_insertAll_front (h : f.InRange) (hb : b < f.blocks.size)
    (his : ∀ i ∈ is, i.isPhi) (hle : f.instructions.size ≤ r)
    (hlt : r < f.instructions.size + is.length) :
    r ∈ (f.insertAll (.front b) is).phis ((f.insertAll (.front b) is).code b) := by
  induction is generalizing f with
  | nil => exact absurd hlt (Nat.not_lt.mpr hle)
  | cons i is ih =>
    have hi := his i (mem_cons_self ..)
    have his' : ∀ j ∈ is, j.isPhi := fun j hj => his j (mem_cons_of_mem i hj)
    rw [insertAll_cons]
    rcases Nat.eq_or_lt_of_le hle with rfl | hlt'
    · refine (settles_insertAll_front his').phis h.insert b _ ?_
      rw [code_insert_front hb, phis, takeWhile_cons_of_pos (by rwa [isPhiAt_insert_size])]
      exact mem_cons_self ..
    · refine ih h.insert (by rwa [insert_size]) his' ?_ ?_
      · rw [insert_instructions, Array.size_push]
        exact hlt'
      · simpa [Nat.add_assoc, Nat.add_comm 1] using hlt

theorem mem_takeWhile_of_forall {x : Register} (hl : ∀ y ∈ l, p y) (hx : p x) :
    x ∈ (l ++ x :: l').takeWhile p := by
  simp_all

theorem mem_upToExit_insert_beforeJump (h : f.InRange) (ht : f.Tidy) (hb : b < f.blocks.size)
    (hi : i.exit? = none) (hphi : i.isPhi = false) (hreturn : f.exit? b ≠ some .return) :
    f.instructions.size ∈ (f.insert (.beforeJump b) i).2.upToExit ((f.insert (.beforeJump b) i).2.code b) := by
  have htidy := (settles_insert_beforeJump (b := b) hi hphi).tidy h ht b (by rwa [exit?_insert h hi])
  have hself : (f.insert (.beforeJump b) i).2.exitAt f.instructions.size = none := by
    rw [exitAt_insert_size, hi]
  rcases code_insert_beforeJump (i := i) hb with ⟨init, last, -, -, hnew⟩ | ⟨-, hnew⟩
  · rw [hnew] at htidy ⊢
    rw [append_cons, dropLast_concat] at htidy
    exact mem_takeWhile_of_forall (fun y hy => by simp [htidy y (mem_append_left _ hy)]) (by simp [hself])
  · rw [hnew] at htidy ⊢
    rw [dropLast_concat] at htidy
    exact mem_takeWhile_of_forall (fun y hy => by simp [htidy y hy]) (by simp [hself])

theorem mem_upToExit_insertAll_beforeJump (h : f.InRange) (ht : f.Tidy)
    (hb : b < f.blocks.size) (his : ∀ i ∈ is, i.exit? = none ∧ i.isPhi = false)
    (hreturn : f.exit? b ≠ some .return)
    (hle : f.instructions.size ≤ r) (hlt : r < f.instructions.size + is.length) :
    r ∈ (f.insertAll (.beforeJump b) is).upToExit ((f.insertAll (.beforeJump b) is).code b) := by
  induction is generalizing f with
  | nil => exact absurd hlt (Nat.not_lt.mpr hle)
  | cons i is ih =>
    obtain ⟨hi, hphi⟩ := his i (mem_cons_self ..)
    have his' : ∀ j ∈ is, j.exit? = none ∧ j.isPhi = false := fun j hj => his j (mem_cons_of_mem i hj)
    rw [insertAll_cons]
    rcases Nat.eq_or_lt_of_le hle with rfl | hlt'
    · exact (settles_insertAll_beforeJump his').upToExit h.insert b _
        (mem_upToExit_insert_beforeJump h ht hb hi hphi hreturn)
    · refine ih h.insert ((settles_insert_beforeJump hi hphi).tidy h ht) (by rwa [insert_size]) his' ?_ ?_ ?_
      · rwa [exit?_insert h hi]
      · rw [insert_instructions, Array.size_push]
        exact hlt'
      · simpa [Nat.add_assoc, Nat.add_comm 1] using hlt

end Insert

end Function

end ShaderIR
