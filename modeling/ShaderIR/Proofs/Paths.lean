import ShaderIR.Proofs.Reading

/-!
# Structure preserves paths

Whatever path the branches of a stream describe, a run of the structured function takes it.
-/

namespace ShaderIR.Spirv

open List

open PhiSources (Settles)

variable {t : Tour} {d : Context}

theorem Tour.Sound.isOpen (h : t.Sound) : Structure.IsOpen t.start 0 where
  lt := by simp [h.blank.blocks]
  exit := by simp [Function.exit?, Function.code, h.blank.blocks]
  inRange := by
    intro b r hr
    cases b <;> simp [Function.code, h.blank.blocks] at hr
  ends := fun b _ => by rw [h.ends]; rfl

theorem Tour.log_eq {log : List Emission} (h : Structure.Walks 0 t.entry none {} t.start t.body t.finish log) :
    t.log = log.map Emission.entry := by
  rw [Tour.log, h.placed, length_append, Nat.add_sub_cancel, take_left, reverse_reverse]

theorem Tour.exit?_arranged (t : Tour) (b : BlockId) :
    t.arranged.function.exit? b = t.finish.function.exit? b := by
  change Function.exit? (Function.withFlow _) b = _
  rw [Function.exit?, Function.code_withFlow]
  rfl

theorem Tour.code_arranged (t : Tour) (b : BlockId) :
    t.arranged.function.code b = t.finish.function.code b := Function.code_withFlow

theorem Tour.inRange_arranged (h : t.finish.function.InRange) : t.arranged.function.InRange := by
  intro b r hr
  rw [t.code_arranged] at hr
  exact h b r hr

theorem Tour.Sound.agrees (h : t.Sound) (hs : Settles t.arranged d) :
    Structure.Agrees (t.chart d.function) (Structure.Own 0 t.start t.finish) t.finish := by
  obtain ⟨log, hwalks⟩ := h.walks
  have hrange : t.finish.function.InRange := hwalks.builds.inRange h.isOpen.inRange
  exact {
    blocks := rfl
    ids := .refl _
    constants := rfl
    loads := fun r bits hi => hs.function.getElem?_instructions hi rfl
    exit := fun b _ => (hs.function.exit (inRange_arranged hrange) b).trans (t.exit?_arranged b)
    code := fun b _ r hr => hs.function.code b r (by rwa [t.code_arranged])
    ends := fun _ _ => rfl }

theorem Tour.Sound.laid (h : t.Sound) (hs : Settles t.arranged d) :
    Laid (t.chart d.function) {} t.entry (sourcesIn t.log d.function.body.head) d.function.body := by
  obtain ⟨log, hwalks⟩ := h.walks
  have hlaid := hwalks.laid h.isOpen (h.agrees hs) fun b _ _ => by rw [← log_eq hwalks]; rfl
  have hbody : d.function.body = t.body := hs.function.body
  rwa [hbody, hwalks.head_eq, log_eq hwalks]

theorem Tour.Sound.arrives (h : t.Sound) (hs : Settles t.arranged d) :
    Arrives (t.chart d.function) none t.entry { region := d.function.body } := by
  obtain ⟨log, hwalks⟩ := h.walks
  have hmarked := hwalks.marked h.isOpen.lt (h.agrees hs) (by rw [← log_eq hwalks]; rfl)
  rw [h.ends] at hmarked
  have hbody : d.function.body = t.body := hs.function.body
  refine ⟨⟨{}, h.laid hs, .nil⟩, none, ?_, .inl rfl⟩
  rwa [hbody]

/-- The run of a machine passes blocks of the stream from `entry` on, each leads to the next by the
branch that ends it, with the condition as it is when control leaves the block, and if the run comes
to its end, the last of them ends the function or drops the fragment. -/
structure Chart.Follows (v : Chart) (entry : Nat) (machine : Machine) : Prop where
  head : ∀ p ∈ (v.passages (machine.visits v.function)).head?, p.source = entry
  isChain : (v.passages (machine.visits v.function)).IsChain v.Goes
  last : (machine.run v.function).1 = none →
    ∃ p, (v.passages (machine.visits v.function)).getLast? = some p ∧ v.Leaves p.source

/-- Whatever machine runs whichever function of a stream that is read as a module, the path it takes
is the one that the branches of the stream describe. -/
theorem passages_follow_branches {options : Options} {words : List Word} {m : Module} {index : Nat}
    {f : Function} (hread : (readModule options words).result = .ok m)
    (hf : m.functions[index]? = some f) :
    ∃ tour, tour? options words index = some tour ∧ tour.source.blocks.head? = some tour.entry ∧
      ∀ machine : Machine, (tour.chart f).Follows tour.entry machine := by
  obtain ⟨t, d, htour, hresolves, rfl⟩ := exists_tour hread hf
  have hsound := sound_of_tour? htour
  refine ⟨t, htour, hsound.entry, fun machine => ?_⟩
  have hsize : (machine.start d.function).registers.size = d.function.instructions.size := by
    simp [Machine.start]
  obtain ⟨hhead, hchain, hend⟩ := (hsound.arrives hresolves.settles).run machine.stepLimit machine.stepLimit hsize
  refine ⟨hhead, hchain, fun hrun => ?_⟩
  unfold Machine.run at hrun
  split at hrun
  · exact hend _ ‹_›
  · cases hrun

/-- A function that runs around a loop for ever: block 7 is the head of the loop, 8 goes on and 9 is
behind it. -/
def endlessLoop : List Word := [0x07230203, 99, 0, 10, 0,
   0x00020013, 1, 0x00030021, 2, 1, 0x00020014, 3, 0x00030029, 3, 4,
   0x00050036, 1, 5, 0, 2,
   0x000200f8, 6, 0x000200f9, 7,
   0x000200f8, 7, 0x000400f6, 9, 8, 0, 0x000400fa, 4, 8, 9,
   0x000200f8, 8, 0x000200f9, 7,
   0x000200f8, 9, 0x000100fd, 0x00010038]

theorem passages_follow_branches_endlessLoop :
    ∃ m f, (readModule {} endlessLoop).result = .ok m ∧ m.functions[0]? = some f ∧
      ∃ tour, tour? {} endlessLoop 0 = some tour ∧ tour.source.blocks.head? = some tour.entry ∧
        ∀ machine : Machine, (tour.chart f).Follows tour.entry machine := by
  have h : hasFunction {} endlessLoop 0 := by decide +kernel
  obtain ⟨m, f, hread, hf⟩ := exists_of_hasFunction h
  exact ⟨m, f, hread, hf, passages_follow_branches hread hf⟩

end ShaderIR.Spirv
