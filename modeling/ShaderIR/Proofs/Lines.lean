import ShaderIR.Proofs.TwinReadings

/-!
# Instructions without a meaning

Instructions that do nothing or name a line of a text are read over in the preamble and in blocks. A
stream to which some are added there is read as the same module. Between functions and between
blocks no such instruction may stand, and a stream that has one is not read.
-/

namespace ShaderIR.Spirv

open EStateM List

/-- Instructions to which instructions without a meaning are added. -/
inductive Padded : List RawInstruction → List RawInstruction → Prop
  | nil : Padded [] []
  | keep {i is is'} : Padded is is' → Padded (i :: is) (i :: is')
  | add {i is is'} : i.isLine = true → Padded is is' → Padded is (i :: is')

/-- Whether instructions without a meaning stand where they are read over, from a place on. -/
def Zone.admits : Zone → List RawInstruction → Bool
  | _, [] => true
  | z, i :: is => (!i.isLine || z.isQuiet) && (z.next i).admits is

/-- The latitude of instructions without a meaning. -/
def linesLatitude (expansion : FwidthExpansion) : Latitude := .named expansion expansion False

variable {i : RawInstruction} {c d : Context}

theorem Zone.next_of_isLine (hi : i.isLine = true) (z : Zone) : z.next i = z := by
  have hop : i.op = .opNop ∨ i.op = .opLine ∨ i.op = .opNoLine := by
    unfold RawInstruction.isLine at hi
    split at hi <;> simp_all
  cases z <;> rcases hop with hop | hop | hop <;> simp [Zone.next, RawInstruction.isTerminator, hop]

variable {is : List RawInstruction} {t : ScanState}

theorem Padded.edited {is' : List RawInstruction} (h : Padded is is') (expansion : FwidthExpansion)
    {z : Zone} (hz : z.admits is' = true) (offset : Nat) :
    Edited (linesLatitude expansion) z is (Tiling.place offset is') := by
  induction h generalizing z offset with
  | nil => exact .nil
  | keep _ ih =>
    rw [Zone.admits, Bool.and_eq_true] at hz
    exact .both rfl (fun h => h.elim) (fun _ _ => rfl) (ih hz.2 _)
  | @add _ _ _ hi _ ih =>
    rw [Zone.admits, Bool.and_eq_true, hi, Zone.next_of_isLine hi] at hz
    exact .line (fun h => h) hz.1 hi (ih hz.2 _)

namespace Scan

/-- The place where a scan is. -/
def zone : ScanState → Zone
  | .outside => .outside
  | .inFunction => .function
  | .inBlock .. => .block

theorem zone_of_step {s : ScanState} (h : step s i c = .ok t d) : zone t = (zone s).next i := by
  cases takes_of_step h with
  | function hop => rw [zone, zone, Zone.next, if_pos hop]
  | functionEnd hop => simp [zone, Zone.next, hop]
  | label hop => rw [zone, zone, Zone.next, if_pos hop]
  | code hend => rw [zone, zone, Zone.next, hend, if_neg Bool.false_ne_true]
  | close hend => rw [zone, zone, Zone.next, if_pos hend]

theorem quiet_of_step {s : ScanState} (hi : i.isLine = true) (h : step s i c = .ok t d) :
    (zone s).isQuiet = true := by
  rw [step_quiet (.inl hi)] at h
  cases s with
  | inBlock => rfl
  | outside | inFunction => exact (throw_eq_ok.mp h).elim

theorem admits_of_steps {fault : Option Error} {stop : Nat} {s : ScanState}
    (h : steps fault stop s is c = .ok () d) : (zone s).admits is = true := by
  induction is generalizing s c with
  | nil => rfl
  | cons i is ih =>
    obtain ⟨t, c₁, hstep, hrest⟩ := bind_eq_ok.mp h
    rw [Zone.admits, ← zone_of_step hstep, ih hrest, Bool.and_true]
    cases hi : i.isLine with
    | false => rfl
    | true => exact quiet_of_step hi hstep

end Scan

theorem Zone.admits_place (z : Zone) (offset : Nat) (is : List RawInstruction) :
    z.admits (Tiling.place offset is) = z.admits is := by
  induction is generalizing z offset with
  | nil => rfl
  | cons i is ih =>
    rw [Tiling.place, Zone.admits, Zone.admits, ih]
    rfl

theorem Zone.admits_preamble_append {before : List RawInstruction}
    (h : ∀ i ∈ before, i.op ≠ .opFunction) (rest : List RawInstruction) :
    Zone.preamble.admits (before ++ rest) = Zone.preamble.admits rest := by
  induction before with
  | nil => rfl
  | cons i before ih =>
    rw [cons_append, Zone.admits, Zone.next, if_neg (h i (by simp)),
      ih fun j hj => h j (mem_cons_of_mem _ hj), Zone.isQuiet, Bool.or_true, Bool.true_and]

theorem admits_of_readModule {options : Options} {words : List Word} {m : Module}
    (h : (readModule options words).result = .ok m) :
    Zone.preamble.admits (Tiling.ofStream words headerLength words.length).instructions = true := by
  obtain ⟨header, c, -, -, -, houtline, -⟩ := readModule_eq_ok h
  obtain ⟨before, rest, c₁, hsplit, hbefore, -, hscan⟩ := readOutline_eq_ok houtline
  have hpreamble : ∀ i ∈ before, i.op ≠ .opFunction := by
    intro i hi hop
    obtain ⟨c₂, c₃, hread⟩ := hbefore i hi
    rw [Preamble.reported_function hop] at hread
    cases (pure_eq_ok.mp hread).1
  rw [hsplit, Zone.admits_preamble_append hpreamble]
  have hadmits := Scan.admits_of_steps hscan
  cases rest with
  | nil => rfl
  | cons i rest =>
    -- the scan begins at the first function
    by_cases hop : i.op = .opFunction
    · rw [Scan.zone, Zone.admits, Zone.next, if_pos hop, Bool.and_eq_true] at hadmits
      rw [Zone.admits, Zone.next, if_pos hop, hadmits.2, Zone.isQuiet, Bool.or_true, Bool.and_true]
    · obtain ⟨e, he⟩ := Scan.step_outside hop
      obtain ⟨t, c₂, hstep, -⟩ := bind_eq_ok.mp hscan
      rw [he] at hstep
      exact (throw_eq_ok.mp hstep).elim

theorem RawInstruction.encodable_of_isLine (hi : i.isLine = true)
    (hlength : i.length < 2 ^ 16) : i.Encodable := by
  obtain ⟨op, offset, operands⟩ := i
  have hop : op = .opNop ∨ op = .opLine ∨ op = .opNoLine := by
    unfold RawInstruction.isLine at hi
    split at hi <;> simp_all
  rcases hop with rfl | rfl | rfl <;> exact ⟨rfl, by simp [Opcode.number], hlength⟩

theorem Padded.encodable {is' : List RawInstruction} (h : Padded is is')
    (his : ∀ i ∈ is, i.Encodable) (hlength : ∀ i ∈ is', i.isLine = true → i.length < 2 ^ 16) :
    ∀ i ∈ is', i.Encodable := by
  induction h with
  | nil => exact his
  | keep _ ih =>
    simp_all
  | add hi _ ih =>
    refine forall_mem_cons.mpr ⟨RawInstruction.encodable_of_isLine hi (hlength _ (by simp) hi), ?_⟩
    exact ih his fun i hi => hlength i (mem_cons_of_mem _ hi)

/-- Instructions without a meaning may be added where they are read over, which changes nothing; a
stream that has one elsewhere is not read. -/
theorem padding_transparent_where_admitted {options : Options} {words : List Word} {m : Module}
    (h : (readModule options words).result = .ok m) {is : List RawInstruction}
    (hpadded : Padded (Tiling.ofStream words headerLength words.length).instructions is)
    (hlength : ∀ i ∈ is, i.isLine = true → i.length < 2 ^ 16) :
    (Zone.preamble.admits is = true →
      (readModule options (words.take headerLength ++ is.flatMap RawInstruction.words)).result = .ok m) ∧
    (Zone.preamble.admits is = false →
      ∃ e, (readModule options (words.take headerLength ++ is.flatMap RawInstruction.words)).result =
        .error e) := by
  obtain ⟨header, -, -, -, hheader, -⟩ := readModule_eq_ok h
  obtain ⟨hwords, hheader'⟩ := Header.read_append hheader (is.flatMap RawInstruction.words)
  have hfault := fault_of_readModule h
  obtain ⟨stop, hcut⟩ := Tiling.ofStream_append hwords
    (hpadded.encodable (Tiling.words_of_ofStream hfault).1 hlength)
  constructor
  · intro hadmits
    have hstreams : StreamsAlike (linesLatitude options.fwidth) words
        (words.take headerLength ++ is.flatMap RawInstruction.words) := by
      refine ⟨?_, fun _ => by rw [hcut], fun h => h.elim⟩
      rw [hcut]
      exact hpadded.edited options.fwidth hadmits headerLength
    have hboth := readings_abreast hstreams (hheader'.trans hheader.symm) options options rfl rfl
    rw [h] at hboth
    obtain ⟨m', w, made, hread, hm, -, -⟩ := hboth
    rw [hread, hm.eq (fun _ => rfl) rfl]
  · intro hadmits
    cases hread : (readModule options (words.take headerLength ++ is.flatMap RawInstruction.words)).result with
    | error e => exact ⟨e, rfl⟩
    | ok m' =>
      have hno := admits_of_readModule hread
      rw [hcut, Zone.admits_place, hadmits] at hno
      cases hno

/-- A function that only returns. -/
def bareReturn : List Word := [0x07230203, 99, 0, 5, 0, 0x00020013, 1, 0x00030021, 2, 1,
   0x00050036, 1, 3, 0, 2, 0x000200f8, 4, 0x000100fd, 0x00010038]

/-- The same function with a line in the preamble and instructions that do nothing in its block. -/
def paddedReturn : List RawInstruction :=
  [⟨.opTypeVoid, 5, [1]⟩, ⟨.opLine, 7, [1, 2, 3]⟩, ⟨.opTypeFunction, 7, [2, 1]⟩,
   ⟨.opFunction, 10, [1, 3, 0, 2]⟩, ⟨.opLabel, 15, [4]⟩, ⟨.opNop, 17, []⟩, ⟨.opNoLine, 17, []⟩,
   ⟨.opReturn, 17, []⟩, ⟨.opFunctionEnd, 18, []⟩]

theorem padding_transparent_where_admitted_paddedReturn : ∃ m, (readModule {} bareReturn).result = .ok m ∧
      Padded (Tiling.ofStream bareReturn headerLength bareReturn.length).instructions paddedReturn ∧
      Zone.preamble.admits paddedReturn = true ∧
      (readModule {} (bareReturn.take headerLength ++
        paddedReturn.flatMap RawInstruction.words)).result = .ok m := by
  have h : hasFunction {} bareReturn 0 := by decide +kernel
  obtain ⟨m, -, hread, -⟩ := exists_of_hasFunction h
  have hinstructions : (Tiling.ofStream bareReturn headerLength bareReturn.length).instructions =
      [⟨.opTypeVoid, 5, [1]⟩, ⟨.opTypeFunction, 7, [2, 1]⟩, ⟨.opFunction, 10, [1, 3, 0, 2]⟩,
       ⟨.opLabel, 15, [4]⟩, ⟨.opReturn, 17, []⟩, ⟨.opFunctionEnd, 18, []⟩] := by decide +kernel
  have hpadded : Padded (Tiling.ofStream bareReturn headerLength bareReturn.length).instructions
      paddedReturn := by
    rw [hinstructions]
    exact .keep (.add rfl (.keep (.keep (.keep (.add rfl (.add rfl (.keep (.keep .nil))))))))
  have hadmits : Zone.preamble.admits paddedReturn = true := by decide
  exact ⟨m, hread, hpadded, hadmits, (padding_transparent_where_admitted hread hpadded (by decide)).1 hadmits⟩

/-- An instruction that does nothing is not read over behind a function, nor between a function and its
first label. -/
theorem padding_rejected : (readModule {} bareReturn).error? = none ∧
      (readModule {} (bareReturn ++ [0x00010000])).error? = some (.unsupportedOpcode .opNop) ∧
      (readModule {} (bareReturn.take 15 ++ [0x00010000] ++ bareReturn.drop 15)).error? =
        some (.regionMismatch 15) := by
  decide +kernel

end ShaderIR.Spirv
