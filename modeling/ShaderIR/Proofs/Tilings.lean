import ShaderIR.Spirv.Stream
import Mathlib.Data.List.Basic
import Mathlib.Data.Nat.Bitwise

/-!
# Streams cut and put together

A stream that can be cut into instructions is its header followed by the words of these instructions,
and the words of instructions are cut into these instructions again, each at the place where it now
stands. To cut a stream from one of its instructions on gives the rest of the instructions.
-/

namespace ShaderIR.Spirv

open List

theorem Opcode.number_of_ofNumber? {n : Nat} {op : Opcode} (h : Opcode.ofNumber? n = some op) :
    op.number = n := by
  unfold Opcode.ofNumber? at h
  split at h
  · cases h
  · cases hfind : Opcode.ruled.find? (·.number = n) with
    | none =>
      rw [hfind] at h
      obtain rfl := Option.some.inj h
      rfl
    | some found =>
      grind

/-! ### First words -/

theorem halves_of_word {length number : Nat} (hlength : length < 2 ^ 16) (hnumber : number < 2 ^ 16) :
    (((length.toUInt32 <<< 16) ||| number.toUInt32) >>> 16).toNat = length ∧
      (((length.toUInt32 <<< 16) ||| number.toUInt32) &&& 0xFFFF).toNat = number := by
  have h16 : (16 : UInt32).toNat % 32 = 16 := rfl
  have hmask : (0xFFFF : UInt32).toNat = 2 ^ 16 - 1 := rfl
  have hsize : 2 ^ 16 < UInt32.size := by decide
  have hword : ((length.toUInt32 <<< 16) ||| number.toUInt32).toNat = length <<< 16 ||| number := by
    have hsmall : length <<< 16 < 2 ^ 32 := by
      rw [Nat.shiftLeft_eq]
      omega
    rw [UInt32.toNat_or, UInt32.toNat_shiftLeft, Nat.toUInt32_eq, Nat.toUInt32_eq,
      UInt32.toNat_ofNat_of_lt' (Nat.lt_trans hlength hsize),
      UInt32.toNat_ofNat_of_lt' (Nat.lt_trans hnumber hsize), h16, Nat.mod_eq_of_lt hsmall]
  rw [UInt32.toNat_shiftRight, UInt32.toNat_and, hword, h16, hmask, Nat.and_two_pow_sub_one_eq_mod,
    Nat.shiftRight_or_distrib, Nat.shiftLeft_shiftRight, Nat.shiftRight_eq_div_pow,
    Nat.div_eq_of_lt hnumber]
  refine ⟨Nat.or_zero _, ?_⟩
  rw [← Nat.shiftLeft_add_eq_or_of_lt hnumber, Nat.shiftLeft_eq, Nat.mul_add_mod_self_right,
    Nat.mod_eq_of_lt hnumber]

theorem word_of_halves (w : Word) : ((w >>> 16).toNat.toUInt32 <<< 16) ||| (w &&& 0xFFFF).toNat.toUInt32 = w := by
  have h16 : (16 : UInt32).toNat % 32 = 16 := rfl
  have hmask : (0xFFFF : UInt32).toNat = 2 ^ 16 - 1 := rfl
  have hlt : w.toNat < 2 ^ 32 := w.toNat_lt
  have hsmall : (w.toNat / 2 ^ 16) <<< 16 < 2 ^ 32 := by
    rw [Nat.shiftLeft_eq]
    omega
  apply UInt32.toNat_inj.mp
  rw [Nat.toUInt32_eq, Nat.toUInt32_eq, UInt32.ofNat_toNat, UInt32.ofNat_toNat, UInt32.toNat_or,
    UInt32.toNat_shiftLeft, UInt32.toNat_shiftRight, UInt32.toNat_and, h16, hmask,
    Nat.and_two_pow_sub_one_eq_mod, Nat.shiftRight_eq_div_pow, Nat.mod_eq_of_lt hsmall,
    ← Nat.shiftLeft_add_eq_or_of_lt (Nat.mod_lt _ (Nat.two_pow_pos 16)), Nat.shiftLeft_eq]
  omega

theorem upper_half_lt (w : Word) : (w >>> 16).toNat < 2 ^ 16 := by
  have h16 : (16 : UInt32).toNat % 32 = 16 := rfl
  have hlt : w.toNat < 2 ^ 32 := w.toNat_lt
  rw [UInt32.toNat_shiftRight, h16, Nat.shiftRight_eq_div_pow]
  omega

theorem lower_half_lt (w : Word) : (w &&& 0xFFFF).toNat < 2 ^ 16 := by
  have hmask : (0xFFFF : UInt32).toNat = 2 ^ 16 - 1 := rfl
  rw [UInt32.toNat_and, hmask, Nat.and_two_pow_sub_one_eq_mod]
  exact Nat.mod_lt _ (Nat.two_pow_pos 16)

/-- An instruction that can be written: the standard has its opcode, and its words can be counted. -/
structure RawInstruction.Encodable (i : RawInstruction) : Prop where
  known : Opcode.ofNumber? i.op.number = some i.op
  number : i.op.number < 2 ^ 16
  length : i.length < 2 ^ 16

theorem RawInstruction.length_words (i : RawInstruction) : i.words.length = i.length := rfl

variable {words : List Word}

namespace Tiling

/-- A tiling behind one more instruction. -/
def cons (i : RawInstruction) (t : Tiling) : Tiling := { t with instructions := i :: t.instructions }

theorem cut_skip {skip : Nat} (offset : Nat) {ws : List Word} (h : skip ≤ ws.length) :
    cut offset skip ws = cut (offset + skip) 0 (ws.drop skip) := by
  induction skip generalizing offset ws with
  | zero => rfl
  | succ skip ih =>
    cases ws with
    | nil => exact absurd h (Nat.not_succ_le_zero _)
    | cons w ws =>
      rw [cut, ih _ (Nat.le_of_succ_le_succ h), drop_succ_cons, Nat.add_assoc, Nat.add_comm 1]

theorem cut_words_append (offset : Nat) {i : RawInstruction} (hi : i.Encodable) (ws : List Word) :
    cut offset 0 (i.words ++ ws) = cons { i with offset } (cut (offset + i.length) 0 ws) := by
  obtain ⟨hcount, hnumber⟩ := halves_of_word hi.length hi.number
  rw [RawInstruction.words, cons_append, cut, hcount, hnumber, hi.known]
  have hpos : i.length ≠ 0 := Nat.succ_ne_zero _
  have hfits : ¬ (i.operands ++ ws).length + 1 < i.length := by
    rw [length_append, RawInstruction.length]
    omega
  rw [if_neg hpos, if_neg hfits]
  have hskip : i.length - 1 = i.operands.length := rfl
  rw [hskip, take_left, cut_skip (offset + 1) (by simp), drop_left, Nat.add_assoc, Nat.add_comm 1]
  rfl

theorem cut_cases (offset : Nat) (ws : List Word) : ws = [] ∨ (∃ e, cut offset 0 ws = ⟨[], some e, offset⟩) ∨
      ∃ (i : RawInstruction) (rest : List Word), i.Encodable ∧ i.offset = offset ∧ ws = i.words ++ rest := by
  cases ws with
  | nil => exact .inl rfl
  | cons first rest =>
    refine .inr ?_
    rw [cut]
    split
    · exact .inl ⟨_, rfl⟩
    next hzero =>
    split
    · exact .inl ⟨_, rfl⟩
    next hfits =>
    cases hop : Opcode.ofNumber? (first &&& 0xFFFF).toNat with
    | none => exact .inl ⟨_, rfl⟩
    | some op =>
      have hnumber := Opcode.number_of_ofNumber? hop
      have hlength : (rest.take ((first >>> 16).toNat - 1)).length + 1 = (first >>> 16).toNat := by
        rw [length_take]
        omega
      refine .inr ⟨⟨op, offset, rest.take ((first >>> 16).toNat - 1)⟩,
        rest.drop ((first >>> 16).toNat - 1), ⟨?_, ?_, ?_⟩, rfl, ?_⟩
      · rwa [hnumber]
      · rw [hnumber]
        exact lower_half_lt first
      · rw [RawInstruction.length, hlength]
        exact upper_half_lt first
      · rw [RawInstruction.words, RawInstruction.length, hlength, hnumber, word_of_halves,
          cons_append, take_append_drop]

/-- Instructions where they stand if they follow each other from `offset` on. -/
def place : (offset : Nat) → List RawInstruction → List RawInstruction
  | _, [] => []
  | offset, i :: is => { i with offset } :: place (offset + i.length) is

theorem cut_flatMap (offset : Nat) {is : List RawInstruction} (h : ∀ i ∈ is, i.Encodable) :
    cut offset 0 (is.flatMap RawInstruction.words) =
      ⟨place offset is, none, offset + (is.flatMap RawInstruction.words).length⟩ := by
  induction is generalizing offset with
  | nil => rfl
  | cons i is ih =>
    rw [flatMap_cons, cut_words_append offset (h i (by simp)),
      ih _ fun j hj => h j (mem_cons_of_mem _ hj), length_append, ← Nat.add_assoc]
    rfl

theorem words_of_cut {offset : Nat} {ws : List Word} (h : (cut offset 0 ws).fault = none) :
    (∀ i ∈ (cut offset 0 ws).instructions, i.Encodable) ∧
      (cut offset 0 ws).instructions.flatMap RawInstruction.words = ws := by
  induction hn : ws.length using Nat.strong_induction_on generalizing offset ws with
  | _ n ih =>
  rcases cut_cases offset ws with rfl | ⟨e, he⟩ | ⟨i, rest, hi, -, rfl⟩
  · exact ⟨fun i hi => (not_mem_nil hi).elim, rfl⟩
  · rw [he] at h
    cases h
  · rw [cut_words_append offset hi] at h ⊢
    have hlt : rest.length < n := by
      rw [← hn, length_append, RawInstruction.length_words, RawInstruction.length]
      omega
    obtain ⟨hrest, hwords⟩ := ih _ hlt h rfl
    refine ⟨?_, ?_⟩
    · intro j hj
      rcases mem_cons.mp hj with rfl | hj
      · exact ⟨hi.known, hi.number, hi.length⟩
      · exact hrest j hj
    · exact congrArg (i.words ++ ·) hwords

/-- Where the last instructions of a tiling begin. -/
def startOf (t : Tiling) (rest : List RawInstruction) : Nat := (rest.head?.map (·.offset)).getD t.stop

theorem startOf_cons (i : RawInstruction) (t : Tiling) (rest : List RawInstruction) :
    (cons i t).startOf rest = t.startOf rest := rfl

/-- To cut from one of its instructions on gives the rest of a tiling. -/
theorem cut_startOf {offset : Nat} {ws : List Word} {before rest : List RawInstruction}
    (h : (cut offset 0 ws).instructions = before ++ rest) :
    offset ≤ (cut offset 0 ws).startOf rest ∧
      cut ((cut offset 0 ws).startOf rest) 0 (ws.drop ((cut offset 0 ws).startOf rest - offset)) =
        { cut offset 0 ws with instructions := rest } := by
  induction before generalizing offset ws with
  | nil =>
    obtain rfl : (cut offset 0 ws).instructions = rest := h
    have hstart : (cut offset 0 ws).startOf (cut offset 0 ws).instructions = offset := by
      rcases cut_cases offset ws with rfl | ⟨e, he⟩ | ⟨i, ws', hi, -, rfl⟩
      · rfl
      · rw [he]
        rfl
      · rw [cut_words_append offset hi]
        rfl
    simp_all
  | cons j before ih =>
    rcases cut_cases offset ws with rfl | ⟨e, he⟩ | ⟨i, ws', hi, -, rfl⟩
    · cases h
    · rw [he] at h
      cases h
    · rw [cut_words_append offset hi] at h ⊢
      obtain ⟨hle, hcut⟩ := ih (List.cons.inj h).2
      rw [startOf_cons]
      generalize (cut (offset + i.length) 0 ws').startOf rest = start at hle hcut ⊢
      have hsub : start - offset = i.words.length + (start - (offset + i.length)) := by
        rw [RawInstruction.length_words]
        omega
      refine ⟨Nat.le_of_add_right_le hle, ?_⟩
      rw [hsub, drop_length_add_append]
      exact hcut

theorem ofStream_startOf {start : Nat} {before rest : List RawInstruction}
    (h : (ofStream words start words.length).instructions = before ++ rest) :
    ofStream words ((ofStream words start words.length).startOf rest) words.length =
      { ofStream words start words.length with instructions := rest } := by
  unfold ofStream at h ⊢
  rw [take_length] at h ⊢
  obtain ⟨hle, hcut⟩ := cut_startOf h
  simp_all

/-- Behind a header, the words of instructions are cut into these instructions. -/
theorem ofStream_append (hwords : headerLength ≤ words.length) {is : List RawInstruction}
    (h : ∀ i ∈ is, i.Encodable) :
    ∃ stop, ofStream (words.take headerLength ++ is.flatMap RawInstruction.words) headerLength
      (words.take headerLength ++ is.flatMap RawInstruction.words).length =
        ⟨place headerLength is, none, stop⟩ := by
  have hlength : (words.take headerLength).length = headerLength := length_take_of_le hwords
  unfold ofStream
  rw [take_length, drop_left' hlength, cut_flatMap headerLength h]
  exact ⟨_, rfl⟩

/-- A stream that can be cut is its header with the words of its instructions. -/
theorem words_of_ofStream (h : (ofStream words headerLength words.length).fault = none) :
    (∀ i ∈ (ofStream words headerLength words.length).instructions, i.Encodable) ∧ words.take headerLength ++
        (ofStream words headerLength words.length).instructions.flatMap RawInstruction.words = words := by
  unfold ofStream at h ⊢
  rw [take_length] at h ⊢
  obtain ⟨hall, hflat⟩ := words_of_cut h
  exact ⟨hall, by rw [hflat, take_append_drop]⟩

end Tiling

theorem Header.read_append {header : Header} (h : Header.read words = .ok header) (rest : List Word) :
    headerLength ≤ words.length ∧ Header.read (words.take headerLength ++ rest) = .ok header := by
  unfold Header.read at h
  split at h
  · next magic version generator bound schema tail =>
    refine ⟨by simp [headerLength], ?_⟩
    simpa [headerLength, Header.read] using h
  · cases h

end ShaderIR.Spirv
