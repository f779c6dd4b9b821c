import ShaderIR.Proofs.Success
import ShaderIR.Proofs.Tilings

/-!
# Walks over streams

A walk hands over the instructions that stand one behind the other from where it starts. It ends where the
handler stops it, or where its range does, or at the first offset where no instruction stands.
-/

namespace ShaderIR.Spirv

open List

/-- The instruction is a slice of a stream before `limit`, as long as the upper half of its first word says. -/
structure RawInstruction.Stands (words : List Word) (limit : Nat) (i : RawInstruction) : Prop where
  slice : ∃ first, (words.drop i.offset).take i.length = first :: i.operands ∧
    (first >>> 16).toNat = i.length ∧ Opcode.ofNumber? (first &&& 0xFFFF).toNat = some i.op
  fits : i.offset + i.length ≤ limit

/-- Instructions that stand one behind the other from `start` up to `stop`. -/
inductive Tiles (words : List Word) (limit : Nat) : (start stop : Nat) → List RawInstruction → Prop where
  | nil (stop : Nat) : Tiles words limit stop stop []
  | cons {start stop : Nat} {i : RawInstruction} {is : List RawInstruction} (h : i.Stands words limit)
      (hstart : i.offset = start) (hrest : Tiles words limit (start + i.length) stop is) :
      Tiles words limit start stop (i :: is)

/-- What is wrong with the first word of an instruction at an offset, with `remaining` words to the end of the range;
the checks are made in this order. -/
def wordFault? (offset remaining : Nat) (first : Word) : Option Error :=
  let count := (first >>> 16).toNat
  let number := (first &&& 0xFFFF).toNat
  if count = 0 then some (.invalidWordCount offset)
  else if remaining < count then some (.instructionOverrun offset count remaining)
  else if Opcode.ofNumber? number = none then some (.unknownOpcode number offset)
  else none

/-- Why a tiling ends at an offset: the range does, or something is wrong there. -/
inductive Ends (words : List Word) (limit offset : Nat) : Option Error → Prop where
  | range (h : offset = limit) : Ends words limit offset none
  | fault {first : Word} {e : Error} (hlt : offset < limit) (hfirst : words[offset]? = some first)
      (h : wordFault? offset (limit - offset) first = some e) : Ends words limit offset (some e)

variable {words : List Word} {limit start stop stop' : Nat} {i j : RawInstruction}
  {is is' : List RawInstruction} {fault fault' : Option Error}

/-! ### One tiling for each stream -/

section

variable (h : i.Stands words limit)
include h

theorem RawInstruction.Stands.getElem? : ∃ first, words[i.offset]? = some first ∧
    (first >>> 16).toNat = i.length ∧ Opcode.ofNumber? (first &&& 0xFFFF).toNat = some i.op := by
  obtain ⟨first, hslice, h⟩ := h.slice
  refine ⟨first, ?_, h⟩
  have hhead := congrArg (·[0]?) hslice
  simpa [getElem?_take_of_lt (show 0 < i.length from Nat.succ_pos _)] using hhead

theorem RawInstruction.Stands.unique (h' : j.Stands words limit)
    (hoffset : i.offset = j.offset) : i = j := by
  obtain ⟨first, hfirst, hlength, hop⟩ := h.getElem?
  obtain ⟨first', hfirst', hlength', hop'⟩ := h'.getElem?
  obtain ⟨_, hslice, -⟩ := h.slice
  obtain ⟨_, hslice', -⟩ := h'.slice
  obtain rfl : first = first' := Option.some_inj.mp (hfirst.symm.trans (hoffset ▸ hfirst'))
  rw [hoffset, ← hlength, hlength', hslice'] at hslice
  cases i
  cases j
  cases hoffset
  cases Option.some_inj.mp (hop.symm.trans hop')
  cases (List.cons.inj hslice).2
  rfl

theorem RawInstruction.Stands.not_ends : ¬ Ends words limit i.offset fault := by
  obtain ⟨first, hfirst, hlength, hop⟩ := h.getElem?
  have hfits := h.fits
  have hpos : 0 < i.length := Nat.succ_pos _
  rintro (hend | ⟨-, hfirst', hfault⟩)
  · omega
  · obtain rfl := Option.some_inj.mp (hfirst.symm.trans hfirst')
    rw [wordFault?, hlength, hop, if_neg (by omega), if_neg (by omega)] at hfault
    cases hfault

end

theorem Ends.lt {e : Error} (h : Ends words limit stop (some e)) : stop < limit := by
  cases h
  assumption

theorem Tiles.stop_unique (h : Tiles words limit start stop is) (hends : Ends words limit stop fault)
    (h' : Tiles words limit start stop' is') (hends' : Ends words limit stop' fault') : stop = stop' := by
  induction h generalizing is' with
  | nil start =>
    cases h' with
    | nil => rfl
    | cons hi hstart _ => exact absurd (hstart ▸ hends) hi.not_ends
  | cons hi hstart _ ih =>
    cases h' with
    | nil => exact absurd (hstart ▸ hends') hi.not_ends
    | cons hi' hstart' hrest =>
      obtain rfl := hi.unique hi' (hstart.trans hstart'.symm)
      exact ih hends hrest

theorem Tiling.tiles_cut (hlimit : limit ≤ words.length) {t : Tiling} (h : start ≤ limit)
    (ht : cut start 0 ((words.take limit).drop start) = t) :
    Tiles words limit start t.stop t.instructions ∧ Ends words limit t.stop t.fault := by
  induction hn : limit - start using Nat.strong_induction_on generalizing start t with
  | _ n ih =>
  have hlength : ((words.take limit).drop start).length = limit - start := by simp [hlimit]
  cases hwords : (words.take limit).drop start with
  | nil =>
    rw [hwords] at ht hlength
    subst ht
    exact ⟨.nil start, .range (Nat.le_antisymm h (Nat.le_of_sub_eq_zero hlength.symm))⟩
  | cons first rest =>
    have hrest : rest.length + 1 = limit - start := by rw [← hlength, hwords, length_cons]
    have hlt : start < limit := by omega
    have hfirst : words[start]? = some first := by
      rw [← getElem?_take_of_lt hlt, ← Nat.add_zero start, ← getElem?_drop, hwords]
      rfl
    rw [hwords, cut, hrest] at ht
    split at ht
    · subst ht
      exact ⟨.nil start, .fault hlt hfirst (if_pos ‹_›)⟩
    next hcount =>
    split at ht
    · subst ht
      exact ⟨.nil start, .fault hlt hfirst (by rw [wordFault?, if_neg hcount, if_pos ‹_›])⟩
    next hover =>
    cases hop : Opcode.ofNumber? (first &&& 0xFFFF).toNat with
    | none =>
      rw [hop] at ht
      subst ht
      exact ⟨.nil start, .fault hlt hfirst (by rw [wordFault?, if_neg hcount, if_neg hover, if_pos hop])⟩
    | some op =>
      have hfits : start + (first >>> 16).toNat ≤ limit := by omega
      -- behind the instruction the rest of the range is cut
      have hdrop : rest.drop ((first >>> 16).toNat - 1) = (words.take limit).drop (start + (first >>> 16).toNat) := by
        rw [← drop_drop, hwords, ← Nat.succ_pred hcount]
        rfl
      have hbehind : start + 1 + ((first >>> 16).toNat - 1) = start + (first >>> 16).toNat := by omega
      rw [hop, cut_skip _ (by omega), hdrop, hbehind] at ht
      obtain ⟨htiles, hends⟩ := ih _ (by omega) hfits rfl rfl
      have hoperands : (rest.take ((first >>> 16).toNat - 1)).length + 1 = (first >>> 16).toNat := by
        rw [length_take]
        omega
      subst ht
      refine ⟨.cons ⟨⟨first, ?_, hoperands.symm, hop⟩, ?_⟩ rfl ?_, hends⟩
      · rw [RawInstruction.length, hoperands, ← take_cons (Nat.pos_of_ne_zero hcount), ← hwords, drop_take,
          take_take, Nat.min_eq_left (by omega)]
      · rwa [RawInstruction.length, hoperands]
      · rwa [RawInstruction.length, hoperands]

/-! ### Handing over -/

section Handing

variable {σ : Type} {handler : RawInstruction → EStateM Error σ Bool}

/-- The handler goes past each of some instructions. -/
inductive Passes (handler : RawInstruction → EStateM Error σ Bool) : σ → List RawInstruction → σ → Prop where
  | nil (s : σ) : Passes handler s [] s
  | cons {s s₁ s₂ : σ} {i : RawInstruction} {is : List RawInstruction} (h : handler i s = .ok true s₁)
      (hrest : Passes handler s₁ is s₂) : Passes handler s (i :: is) s₂

/-- The handler ends a walk at an instruction: it goes not past it, or it fails. -/
inductive EndedBy (handler : RawInstruction → EStateM Error σ Bool) (i : RawInstruction) (s : σ) :
    EStateM.Result Error σ Nat → Prop where
  | stops {s' : σ} (h : handler i s = .ok false s') : EndedBy handler i s (.ok i.offset s')
  | fails {s' : σ} {e : Error} (h : handler i s = .error e s') : EndedBy handler i s (.error e s')

theorem EndedBy.ne_ok_true {s s' : σ} {result : EStateM.Result Error σ Nat} (h : EndedBy handler i s result) :
    handler i s ≠ .ok true s' := by
  cases h <;> simp [*]

theorem handleAll_cases (handler : RawInstruction → EStateM Error σ Bool) (fault : Option Error) (stop : Nat)
    (is : List RawInstruction) (s : σ) :
    (∃ s', Passes handler s is s' ∧ handleAll handler fault stop is s = handleAll handler fault stop [] s') ∨
      ∃ before i rest s', is = before ++ i :: rest ∧ Passes handler s before s' ∧
        EndedBy handler i s' (handleAll handler fault stop is s) := by
  induction is generalizing s with
  | nil => exact .inl ⟨s, .nil s, rfl⟩
  | cons i is ih =>
    have hstep : handleAll handler fault stop (i :: is) s =
      (handler i >>= fun goesOn => if goesOn then handleAll handler fault stop is else pure i.offset) s := rfl
    cases hi : handler i s with
    | error e s' =>
      rw [hstep, EStateM.bind_of_error hi]
      exact .inr ⟨[], i, is, s, rfl, .nil s, .fails hi⟩
    | ok goesOn s' =>
      rw [hstep, EStateM.bind_of_ok hi]
      cases goesOn with
      | false => exact .inr ⟨[], i, is, s, rfl, .nil s, .stops hi⟩
      | true =>
        rcases ih s' with ⟨s'', hpasses, hall⟩ | ⟨before, j, rest, s'', rfl, hpasses, hends⟩
        · exact .inl ⟨s'', .cons hi hpasses, hall⟩
        · exact .inr ⟨i :: before, j, rest, s'', rfl, .cons hi hpasses, hends⟩

end Handing

/-- A walk hands over the instructions that stand one behind the other from its start on. Unless the handler
ends it, it answers the end of its range, or fails with what is wrong at the first offset where no
instruction stands; with a handler that always goes on, it succeeds exactly when instructions tile the
range. -/
theorem walk_tiles_or_faults (words : List Word) (start stop : Nat) (h : start ≤ min stop words.length) :
    ∃ is last fault, Tiles words (min stop words.length) start last is ∧
      Ends words (min stop words.length) last fault ∧
      ∀ {σ : Type} (handler : RawInstruction → EStateM Error σ Bool) (s : σ),
        ((∃ s', Passes handler s is s' ∧ walk words start stop handler s =
            match fault with
            | some e => .error e s'
            | none => .ok last s') ∨
          ∃ before i rest s', is = before ++ i :: rest ∧ Passes handler s before s' ∧
            EndedBy handler i s' (walk words start stop handler s)) ∧
        ((∀ i s, ∃ s', handler i s = .ok true s') → ((∃ n s', walk words start stop handler s = .ok n s') ↔
            ∃ is, Tiles words (min stop words.length) start (min stop words.length) is) ∧
          ∀ n s', walk words start stop handler s = .ok n s' → n = min stop words.length) := by
  have hstream : Tiling.cut start 0 ((words.take (min stop words.length)).drop start) =
      Tiling.ofStream words start stop := by
    rw [Tiling.ofStream, ← take_take, take_length]
  obtain ⟨htiles, hends⟩ := Tiling.tiles_cut (Nat.min_le_right ..) h hstream
  refine ⟨_, _, _, htiles, hends, fun {σ} handler s => ?_⟩
  have hcases := handleAll_cases handler (Tiling.ofStream words start stop).fault
    (Tiling.ofStream words start stop).stop (Tiling.ofStream words start stop).instructions s
  change _ ∨ ∃ before i rest s', _ ∧ _ ∧ EndedBy handler i s' (walk words start stop handler s) at hcases
  refine ⟨hcases.imp_left ?_, fun hgoes => ?_⟩
  · rintro ⟨s', hpasses, hall⟩
    exact ⟨s', hpasses, hall.trans (by cases (Tiling.ofStream words start stop).fault <;> rfl)⟩
  · have hon : ∃ s', walk words start stop handler s = handleAll handler
        (Tiling.ofStream words start stop).fault (Tiling.ofStream words start stop).stop [] s' := by
      rcases hcases with ⟨s', -, hall⟩ | ⟨_, i, _, s', -, -, hended⟩
      · exact ⟨s', hall⟩
      · obtain ⟨_, hi⟩ := hgoes i s'
        exact absurd hi hended.ne_ok_true
    obtain ⟨s', hall⟩ := hon
    cases hfault : (Tiling.ofStream words start stop).fault with
    | none =>
      rw [hfault] at hall hends
      cases hends with
      | range hstop =>
        rw [hstop] at htiles hall
        rw [hall]
        refine ⟨⟨fun _ => ⟨_, htiles⟩, fun _ => ⟨_, s', rfl⟩⟩, fun n s'' hn => ?_⟩
        cases hn
        rfl
    | some e =>
      rw [hfault] at hall hends
      rw [hall]
      refine ⟨⟨?_, ?_⟩, fun n s'' hn => ?_⟩
      · rintro ⟨n, s'', ⟨⟩⟩
      · rintro ⟨is, his⟩
        exact absurd (htiles.stop_unique hends his (.range rfl)) (Nat.ne_of_lt hends.lt)
      · cases hn

theorem walk_tiles_or_faults_twoNops : ∃ is, Tiles [0x10000, 0x10000] 2 0 2 is := by
  obtain ⟨_, _, _, -, -, h⟩ := walk_tiles_or_faults [0x10000, 0x10000] 0 2 (by decide)
  exact ((h (fun _ => pure true) ()).2 fun _ s => ⟨s, rfl⟩).1.mp ⟨2, (), rfl⟩

end ShaderIR.Spirv
