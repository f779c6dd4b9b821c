import Mathlib.Tactic.IntervalCases
import ShaderIR.Proofs.Lanes
import ShaderIR.Proofs.Operands

/-!
# What integer and logic opcodes mean

An opcode has a meaning of its own: a word stands for a number, in two's complement or without a sign,
for a row of bits or for a truth value, and the opcode says what becomes of it. Where the opcode leaves
the result open, as where a divisor is zero or a shift is too far, it says nothing. The code of every
such instruction computes what its opcode means.
-/

namespace ShaderIR

open List

/-! ### What words stand for -/

namespace Word

/-- The number that a word stands for in two's complement. -/
def signed (w : Word) : Int := w.toBitVec.toInt

/-- The word of a number in two's complement; bits that do not fit are lost. -/
def ofInteger (k : Int) : Word := ⟨BitVec.ofInt 32 k⟩

/-- The word that a function of the bits of two words gives bit by bit. -/
def bitwise (f : Bool → Bool → Bool) (a b : Word) : Word :=
  ⟨(BitVec.iunfoldr (fun (k : Fin 32) (_ : Unit) => ((), f a.toBitVec[k] b.toBitVec[k])) ()).2⟩

/-- The word of a truth value: all ones or zero. -/
def ofTruth (p : Prop) [Decidable p] : Word := if p then 0xFFFFFFFF else 0

/-- The truth value that a word stands for, if it stands for one. -/
def truth? (w : Word) : Option Bool :=
  if w = 0xFFFFFFFF then some true else if w = 0 then some false else none

variable {a b : Word}

theorem neg_eq (a : Word) : -a = ofInteger (-a.signed) := by
  apply UInt32.toBitVec_inj.mp
  simp [ofInteger, signed, BitVec.ofInt_neg]

theorem add_eq (a b : Word) : a + b = ofInteger (a.signed + b.signed) := by
  apply UInt32.toBitVec_inj.mp
  simp [ofInteger, signed, BitVec.ofInt_add]

theorem sub_eq (a b : Word) : a - b = ofInteger (a.signed - b.signed) := by
  apply UInt32.toBitVec_inj.mp
  simp [ofInteger, signed, Int.sub_eq_add_neg, BitVec.ofInt_add, BitVec.ofInt_neg, BitVec.sub_eq_add_neg]

theorem mul_eq (a b : Word) : a * b = ofInteger (a.signed * b.signed) := by
  apply UInt32.toBitVec_inj.mp
  simp [ofInteger, signed, BitVec.ofInt_mul]

theorem toNat_ofNat_of_le {k : Nat} (h : k ≤ a.toNat) : (UInt32.ofNat k).toNat = k := by
  rw [UInt32.toNat_ofNat']
  exact Nat.mod_eq_of_lt (Nat.lt_of_le_of_lt h a.toNat_lt)

theorem div_eq (hb : b.toNat ≠ 0) : (if b = 0 then 0 else a / b) = .ofNat (a.toNat / b.toNat) := by
  rw [if_neg (fun h => hb (congrArg UInt32.toNat h))]
  apply UInt32.toNat_inj.mp
  rw [UInt32.toNat_div, toNat_ofNat_of_le (Nat.div_le_self ..)]

theorem mod_eq (hb : b.toNat ≠ 0) : (if b = 0 then 0 else a % b) = .ofNat (a.toNat % b.toNat) := by
  rw [if_neg (fun h => hb (congrArg UInt32.toNat h))]
  apply UInt32.toNat_inj.mp
  rw [UInt32.toNat_mod, toNat_ofNat_of_le (Nat.mod_le ..)]

theorem signedQuotient_eq (h : b.signed ≠ 0 ∧ (a.signed ≠ -2 ^ 31 ∨ b.signed ≠ -1)) :
    AluOp.signedQuotient a b = ofInteger (a.signed.tdiv b.signed) := by
  unfold AluOp.signedQuotient
  rw [if_neg]
  · apply UInt32.toBitVec_inj.mp
    apply BitVec.eq_of_toInt_eq
    have hdiv := Int32.toInt_div a.toInt32 b.toInt32
    simp only [ofInteger, signed, BitVec.toInt_ofInt]
    exact hdiv
  · rintro (rfl | ⟨rfl, rfl⟩)
    · exact h.1 rfl
    · exact h.2.elim (· rfl) (· rfl)

section

variable (hb : b.toNat < 32)
include hb

theorem and_thirtyOne : b &&& 31 = b := by
  apply UInt32.toNat_inj.mp
  rw [UInt32.toNat_and]
  exact Nat.and_two_pow_sub_one_of_lt_two_pow (n := 5) hb

theorem shiftRight_eq : a >>> (b &&& 31) = .ofNat (a.toNat / 2 ^ b.toNat) := by
  apply UInt32.toNat_inj.mp
  rw [and_thirtyOne hb, UInt32.toNat_shiftRight, Nat.mod_eq_of_lt hb, Nat.shiftRight_eq_div_pow,
    toNat_ofNat_of_le (Nat.div_le_self ..)]

theorem shiftLeft_eq : a <<< (b &&& 31) = .ofNat (a.toNat * 2 ^ b.toNat) := by
  apply UInt32.toNat_inj.mp
  rw [and_thirtyOne hb, UInt32.toNat_shiftLeft, Nat.mod_eq_of_lt hb, Nat.shiftLeft_eq, UInt32.toNat_ofNat']

theorem smod_width : b.toBitVec.smod 32#32 = b.toBitVec := by
  have hint : b.toBitVec.toInt = b.toNat := by
    apply BitVec.toInt_eq_toNat_of_lt
    change 2 * b.toNat < _
    omega
  apply BitVec.eq_of_toInt_eq
  rw [BitVec.toInt_smod, hint]
  grind

theorem signedShiftRight_eq : (a.toInt32 >>> (b &&& 31).toInt32).toUInt32 = ofInteger (a.signed / 2 ^ b.toNat) := by
  rw [and_thirtyOne hb]
  apply UInt32.toBitVec_inj.mp
  change (a.toInt32 >>> b.toInt32).toBitVec = _
  rw [Int32.toBitVec_shiftRight]
  change a.toBitVec.sshiftRight' (b.toBitVec.smod 32#32) = _
  rw [smod_width hb]
  change BitVec.ofInt 32 (a.signed >>> b.toNat) = _
  rw [Int.shiftRight_eq_div_pow]
  rfl

end

theorem bitwise_eq {f : Bool → Bool → Bool} {w : Word}
    (h : ∀ k : Fin 32, f a.toBitVec[k] b.toBitVec[k] = w.toBitVec[k]) : bitwise f a b = w := by
  apply UInt32.toBitVec_inj.mp
  apply BitVec.iunfoldr_replace_snd (fun _ => ()) w.toBitVec () rfl
  intro k
  exact congrArg (Prod.mk ()) (h k)

theorem not_eq (a : Word) : ~~~a = bitwise (fun p _ => !p) a a := by
  apply (bitwise_eq _).symm
  simp

theorem or_eq (a b : Word) : a ||| b = bitwise (· || ·) a b := by
  apply (bitwise_eq _).symm
  simp

theorem and_eq (a b : Word) : a &&& b = bitwise (· && ·) a b := by
  apply (bitwise_eq _).symm
  simp

theorem xor_eq (a b : Word) : a ^^^ b = bitwise (· != ·) a b := by
  apply (bitwise_eq _).symm
  simp

/-! ### Truth values -/

theorem ofBool_eq (p : Prop) [Decidable p] : ofBool (decide p) = ofTruth p := by
  by_cases h : p <;> simp [ofBool, ofTruth, h, allOnes]

theorem ofTruth_congr {p q : Prop} [Decidable p] [Decidable q] (h : p ↔ q) : ofTruth p = ofTruth q :=
  if_congr h rfl rfl

theorem ofBool_lt (a b : Word) : ofBool (a < b) = ofTruth (a.toNat < b.toNat) :=
  (ofBool_eq _).trans (ofTruth_congr UInt32.lt_iff_toNat_lt)

theorem ofBool_ge (a b : Word) : ofBool (a ≥ b) = ofTruth (a.toNat ≥ b.toNat) :=
  (ofBool_eq _).trans (ofTruth_congr UInt32.le_iff_toNat_le)

theorem ofBool_signed_lt (a b : Word) : ofBool (a.toInt32 < b.toInt32) = ofTruth (a.signed < b.signed) :=
  (ofBool_eq _).trans (ofTruth_congr Int32.lt_iff_toInt_lt)

theorem ofBool_signed_ge (a b : Word) : ofBool (a.toInt32 ≥ b.toInt32) = ofTruth (a.signed ≥ b.signed) :=
  (ofBool_eq _).trans (ofTruth_congr Int32.le_iff_toInt_le)

theorem signed_inj : a.signed = b.signed ↔ a = b :=
  ⟨fun h => UInt32.toBitVec_inj.mp (BitVec.eq_of_toInt_eq h), congrArg signed⟩

theorem ofBool_eq_iff (a b : Word) : ofBool (a = b) = ofTruth (a.signed = b.signed) :=
  (ofBool_eq _).trans (ofTruth_congr signed_inj.symm)

theorem ofBool_ne_iff (a b : Word) : ofBool (a ≠ b) = ofTruth (a.signed ≠ b.signed) :=
  (ofBool_eq _).trans (ofTruth_congr (not_congr signed_inj.symm))

theorem truth?_eq_some {p : Bool} : truth? a = some p ↔ a = ofTruth p := by
  cases p <;> by_cases h : a = 0xFFFFFFFF <;> by_cases h' : a = 0 <;> simp_all [truth?, ofTruth]

theorem ofTruth_eq_or (p : Prop) [Decidable p] : ofTruth p = 0 ∨ ofTruth p = 0xFFFFFFFF := by
  by_cases h : p <;> simp [ofTruth, h]

theorem ofTruth_ne_zero {p : Bool} : ofTruth p ≠ 0 ↔ p := by
  cases p <;> decide

end Word

namespace Spirv

/-! ### Opcodes -/

namespace Opcode

/-- The opcodes for integers, bits and truth values, those for signed remainders apart. -/
def integerOpcodes : List Opcode :=
  [.opSNegate, .opIAdd, .opISub, .opIMul, .opUDiv, .opSDiv, .opUMod, .opShiftRightLogical,
   .opShiftRightArithmetic, .opShiftLeftLogical, .opNot, .opBitwiseOr, .opBitwiseXor, .opBitwiseAnd,
   .opIEqual, .opINotEqual, .opULessThan, .opSLessThan, .opUGreaterThan, .opSGreaterThan,
   .opULessThanEqual, .opSLessThanEqual, .opUGreaterThanEqual, .opSGreaterThanEqual, .opLogicalNot,
   .opLogicalOr, .opLogicalAnd, .opLogicalEqual, .opLogicalNotEqual, .opSelect, .opAny, .opAll,
   .opUConvert, .opSConvert, .opBitcast]

/-- What a function of truth values makes of words that stand for two of them. -/
def logical (f : Bool → Bool → Bool) (a b : Word) : Option Word := do
  let p ← a.truth?
  let q ← b.truth?
  return .ofTruth (f p q)

/-- What an opcode that works lane by lane makes of one lane of each operand, if it says anything. -/
def lane? : Opcode → List Word → Option Word
  | .opSNegate, [a] => some (.ofInteger (-a.signed))
  | .opIAdd, [a, b] => some (.ofInteger (a.signed + b.signed))
  | .opISub, [a, b] => some (.ofInteger (a.signed - b.signed))
  | .opIMul, [a, b] => some (.ofInteger (a.signed * b.signed))
  | .opUDiv, [a, b] => if b.toNat ≠ 0 then some (.ofNat (a.toNat / b.toNat)) else none
  | .opUMod, [a, b] => if b.toNat ≠ 0 then some (.ofNat (a.toNat % b.toNat)) else none
  -- towards zero; the quotient of the least number and minus one does not fit
  | .opSDiv, [a, b] =>
    if b.signed ≠ 0 ∧ (a.signed ≠ -2 ^ 31 ∨ b.signed ≠ -1) then
      some (.ofInteger (a.signed.tdiv b.signed))
    else none
  | .opShiftRightLogical, [a, b] =>
    if b.toNat < 32 then some (.ofNat (a.toNat / 2 ^ b.toNat)) else none
  | .opShiftRightArithmetic, [a, b] =>
    if b.toNat < 32 then some (.ofInteger (a.signed / 2 ^ b.toNat)) else none
  | .opShiftLeftLogical, [a, b] =>
    if b.toNat < 32 then some (.ofNat (a.toNat * 2 ^ b.toNat)) else none
  | .opNot, [a] => some (.bitwise (fun p _ => !p) a a)
  | .opBitwiseOr, [a, b] => some (.bitwise (· || ·) a b)
  | .opBitwiseXor, [a, b] => some (.bitwise (· != ·) a b)
  | .opBitwiseAnd, [a, b] => some (.bitwise (· && ·) a b)
  | .opIEqual, [a, b] => some (.ofTruth (a.signed = b.signed))
  | .opINotEqual, [a, b] => some (.ofTruth (a.signed ≠ b.signed))
  | .opULessThan, [a, b] => some (.ofTruth (a.toNat < b.toNat))
  | .opSLessThan, [a, b] => some (.ofTruth (a.signed < b.signed))
  | .opUGreaterThan, [a, b] => some (.ofTruth (a.toNat > b.toNat))
  | .opSGreaterThan, [a, b] => some (.ofTruth (a.signed > b.signed))
  | .opULessThanEqual, [a, b] => some (.ofTruth (a.toNat ≤ b.toNat))
  | .opSLessThanEqual, [a, b] => some (.ofTruth (a.signed ≤ b.signed))
  | .opUGreaterThanEqual, [a, b] => some (.ofTruth (a.toNat ≥ b.toNat))
  | .opSGreaterThanEqual, [a, b] => some (.ofTruth (a.signed ≥ b.signed))
  | .opLogicalNot, [a] => a.truth?.map fun p => .ofTruth (!p)
  | .opLogicalOr, [a, b] => logical (· || ·) a b
  | .opLogicalAnd, [a, b] => logical (· && ·) a b
  | .opLogicalEqual, [a, b] => logical (· == ·) a b
  | .opLogicalNotEqual, [a, b] => logical (· != ·) a b
  | .opSelect, [a, b, c] => a.truth?.map fun p => if p then b else c
  -- between integers of one width, and from a bit pattern to itself
  | .opUConvert, [a] | .opSConvert, [a] | .opBitcast, [a] => some a
  | _, _ => none

/-- The truth values of the first `n` lanes. -/
def truths? (n : Nat) (l : Lanes) : Option (List Bool) := (l.toList.take n).mapM Word.truth?

/-- Lane `k` of what an opcode makes of operands, each given with its number of lanes, if it says
anything. An operand of one lane stands for a vector of equal lanes. -/
def result? (op : Opcode) (operands : List (Nat × Lanes)) (k : Nat) : Option Word :=
  match op, operands with
  | .opAny, [(n, l)] => (truths? n l).map fun ps => .ofTruth (ps.any (·))
  | .opAll, [(n, l)] => (truths? n l).map fun ps => .ofTruth (ps.all (·))
  | op, operands => op.lane? (operands.map fun (n, l) => if n = 1 then l.x else l.get k)

/-- Operands of these widths go with a result of `n` lanes. -/
def WidthsFit (n : Nat) (widths : List Nat) : Opcode → Prop
  | .opAny | .opAll => n = 1 ∧ ∀ m ∈ widths, 1 ≤ m ∧ m ≤ 4
  | .opSelect => ∃ m, widths = [m, n, n] ∧ (m = 1 ∨ m = n)
  | _ => ∀ m ∈ widths, m = n

/-- The opcodes whose results are truth values. -/
def truthOpcodes : List Opcode :=
  [.opIEqual, .opINotEqual, .opULessThan, .opSLessThan, .opUGreaterThan, .opSGreaterThan,
   .opULessThanEqual, .opSLessThanEqual, .opUGreaterThanEqual, .opSGreaterThanEqual, .opLogicalNot,
   .opLogicalOr, .opLogicalAnd, .opLogicalEqual, .opLogicalNotEqual, .opAny, .opAll]

end Opcode

/-! ### Rules lane by lane -/

namespace Code.AluRule

theorem logical_eq_some {f : Bool → Bool → Bool} {a b w : Word} (h : Opcode.logical f a b = some w) :
    ∃ p q : Bool, a = .ofTruth p ∧ b = .ofTruth q ∧ w = .ofTruth (f p q) := by
  obtain ⟨p, hp, h⟩ := Option.bind_eq_some_iff.mp h
  obtain ⟨q, hq, h⟩ := Option.bind_eq_some_iff.mp h
  exact ⟨p, q, Word.truth?_eq_some.mp hp, Word.truth?_eq_some.mp hq, (Option.some.inj h).symm⟩

theorem lane?_of_meaning {op : Opcode} {ws : List Word} {w : Word} {rule : AluRule}
    (hrule : ofOpcode? op = some rule) (h : op.lane? ws = some w) : rule.lane? ws = some w := by
  unfold Opcode.lane? at h
  split at h
  case h_34 => cases h
  all_goals cases hrule
  -- numbers
  case h_1 a => exact (congrArg some (Word.neg_eq a)).trans h
  case h_2 a b => exact (congrArg some (Word.add_eq a b)).trans h
  case h_3 a b => exact (congrArg some (Word.sub_eq a b)).trans h
  case h_4 a b => exact (congrArg some (Word.mul_eq a b)).trans h
  case h_5 a b =>
    obtain ⟨hdefined, h⟩ := Option.ite_none_right_eq_some.mp h
    exact (congrArg some (Word.div_eq hdefined)).trans h
  case h_6 a b =>
    obtain ⟨hdefined, h⟩ := Option.ite_none_right_eq_some.mp h
    exact (congrArg some (Word.mod_eq hdefined)).trans h
  case h_7 a b =>
    obtain ⟨hdefined, h⟩ := Option.ite_none_right_eq_some.mp h
    exact (congrArg some (Word.signedQuotient_eq hdefined)).trans h
  case h_8 a b =>
    obtain ⟨hdefined, h⟩ := Option.ite_none_right_eq_some.mp h
    exact (congrArg some (Word.shiftRight_eq hdefined)).trans h
  case h_9 a b =>
    obtain ⟨hdefined, h⟩ := Option.ite_none_right_eq_some.mp h
    exact (congrArg some (Word.signedShiftRight_eq hdefined)).trans h
  case h_10 a b =>
    obtain ⟨hdefined, h⟩ := Option.ite_none_right_eq_some.mp h
    exact (congrArg some (Word.shiftLeft_eq hdefined)).trans h
  -- bits
  case h_11 a => exact (congrArg some (Word.not_eq a)).trans h
  case h_12 a b => exact (congrArg some (Word.or_eq a b)).trans h
  case h_13 a b => exact (congrArg some (Word.xor_eq a b)).trans h
  case h_14 a b => exact (congrArg some (Word.and_eq a b)).trans h
  -- comparisons; by greater, and by less or equal, the operands are exchanged
  case h_15 a b => exact (congrArg some (Word.ofBool_eq_iff a b)).trans h
  case h_16 a b => exact (congrArg some (Word.ofBool_ne_iff a b)).trans h
  case h_17 a b => exact (congrArg some (Word.ofBool_lt a b)).trans h
  case h_18 a b => exact (congrArg some (Word.ofBool_signed_lt a b)).trans h
  case h_19 a b => exact (congrArg some (Word.ofBool_lt b a)).trans h
  case h_20 a b => exact (congrArg some (Word.ofBool_signed_lt b a)).trans h
  case h_21 a b => exact (congrArg some (Word.ofBool_ge b a)).trans h
  case h_22 a b => exact (congrArg some (Word.ofBool_signed_ge b a)).trans h
  case h_23 a b => exact (congrArg some (Word.ofBool_ge a b)).trans h
  case h_24 a b => exact (congrArg some (Word.ofBool_signed_ge a b)).trans h
  -- truth values
  case h_25 | h_30 =>
    obtain ⟨p, hp, rfl⟩ := Option.map_eq_some_iff.mp h
    obtain rfl := Word.truth?_eq_some.mp hp
    cases p <;> rfl
  case h_26 | h_27 | h_28 | h_29 =>
    obtain ⟨p, q, rfl, rfl, rfl⟩ := logical_eq_some h
    cases p <;> cases q <;> rfl
  -- conversions
  all_goals exact h

variable {n k : Nat} {inputs : List (Nat × Lanes)} {rule : AluRule}

/-! ### Reductions -/

theorem toList_fitted {m : Nat} (l : Lanes) (hm : m ≤ 4) : (fitted (m, l)).toList.take m = l.toList.take m := by
  apply ext_getElem?
  intro j
  rw [getElem?_take, getElem?_take]
  split
  · rename_i hj
    rw [Quad.getElem?_toList (by omega), Quad.getElem?_toList (by omega), fitted, Source.get_select_fit hm hj]
  · rfl

theorem map_ne_zero {ws : List Word} {ps : List Bool} (h : ws.mapM Word.truth? = some ps) :
    ws.map (fun w => decide (w ≠ 0)) = ps := by
  induction ws generalizing ps with
  | nil =>
    cases h
    rfl
  | cons w ws ih =>
    rw [mapM_cons] at h
    obtain ⟨p, hp, h⟩ := Option.bind_eq_some_iff.mp h
    obtain ⟨ps', hps, h⟩ := Option.bind_eq_some_iff.mp h
    cases h
    rw [map_cons, ih hps, Word.truth?_eq_some.mp hp]
    simp [Word.ofTruth_ne_zero]

section

variable {m : Nat} {l : Lanes} {ps : List Bool}

theorem x_move (h : Opcode.truths? 1 l = some ps) :
    ∃ p : Bool, ps = [p] ∧ (AluOp.imov.eval [fitted (1, l)] 1).x = .ofTruth p := by
  obtain ⟨p, hp, h⟩ := Option.bind_eq_some_iff.mp h
  cases h
  have hlane : (fitted (1, l)).get 0 = l.x := Source.get_select_fit_one (by decide)
  have hmove : (AluOp.imov.eval [fitted (1, l)] 1).get 0 = (fitted (1, l)).get 0 :=
    AluOp.get_eval rfl (by decide) (by decide)
  exact ⟨p, rfl, hmove.trans (hlane.trans (Word.truth?_eq_some.mp hp))⟩

theorem x_any (h₁ : 1 ≤ m) (h₄ : m ≤ 4) (h : Opcode.truths? m l = some ps) :
    ((AluOp.anyOf m).eval [fitted (m, l)] 1).x = .ofTruth (ps.any (·)) := by
  by_cases hm : m = 1
  · subst hm
    obtain ⟨p, rfl, hp⟩ := x_move h
    refine hp.trans ?_
    cases p <;> rfl
  · have heval : ((AluOp.anyOf m).eval [fitted (m, l)] 1).x =
        .ofBool (((fitted (m, l)).toList.take m).any (· ≠ 0)) := by
      interval_cases m <;> first | rfl | exact (hm rfl).elim
    rw [heval, toList_fitted l h₄, ← map_ne_zero h, any_map, ← Word.ofBool_eq, Bool.decide_eq_true]
    rfl

theorem x_all (h₁ : 1 ≤ m) (h₄ : m ≤ 4) (h : Opcode.truths? m l = some ps) :
    ((AluOp.allOf m).eval [fitted (m, l)] 1).x = .ofTruth (ps.all (·)) := by
  by_cases hm : m = 1
  · subst hm
    obtain ⟨p, rfl, hp⟩ := x_move h
    refine hp.trans ?_
    cases p <;> rfl
  · have heval : ((AluOp.allOf m).eval [fitted (m, l)] 1).x =
        .ofBool (((fitted (m, l)).toList.take m).all (· ≠ 0)) := by
      interval_cases m <;> first | rfl | exact (hm rfl).elim
    rw [heval, toList_fitted l h₄, ← map_ne_zero h, all_map, ← Word.ofBool_eq, Bool.decide_eq_true]
    rfl

end

theorem isSingle_of_mem {op : Opcode} (hop : op ∈ Opcode.integerOpcodes)
    (hrule : ofOpcode? op = some rule) : rule.isSingle := by
  have hall : ∀ op ∈ Opcode.integerOpcodes, ∀ rule ∈ ofOpcode? op, rule.isSingle := by decide
  exact hall op hop rule hrule

theorem width_of_fit {op : Opcode} {ws : List Word} {w : Word} {widths : List Nat}
    (h : op.WidthsFit n widths) (hw : op.lane? ws = some w) : ∀ m ∈ widths, m = 1 ∨ m = n := by
  intro m hm
  unfold Opcode.WidthsFit at h
  split at h
  · cases hw
  · cases hw
  · grind
  · exact .inr (h m hm)

theorem get_value?_of_result? {op : Opcode} {l : Lanes} {w : Word} (hrule : ofOpcode? op = some rule)
    (hn : n ≤ 4) (hk : k < n) (hwidths : op.WidthsFit n (inputs.map (·.1)))
    (hl : rule.value? n inputs = some l) (hw : op.result? inputs k = some w) : l.get k = w := by
  unfold Opcode.result? at hw
  split at hw
  case h_1 m l' =>
    cases hrule
    cases hl
    obtain ⟨rfl, hm⟩ := hwidths
    obtain ⟨h₁, h₄⟩ := hm m (mem_singleton_self m)
    obtain rfl : k = 0 := by omega
    obtain ⟨ps, hps, rfl⟩ := Option.map_eq_some_iff.mp hw
    exact x_any h₁ h₄ hps
  case h_2 m l' =>
    cases hrule
    cases hl
    obtain ⟨rfl, hm⟩ := hwidths
    obtain ⟨h₁, h₄⟩ := hm m (mem_singleton_self m)
    obtain rfl : k = 0 := by omega
    obtain ⟨ps, hps, rfl⟩ := Option.map_eq_some_iff.mp hw
    exact x_all h₁ h₄ hps
  case h_3 =>
    have hv : ∀ v ∈ inputs, v.1 = 1 ∨ v.1 = n := by
      intro v hv
      exact width_of_fit hwidths hw v.1 (mem_map_of_mem hv)
    exact get_value? hn hk hv hl (lane?_of_meaning hrule hw)

end Code.AluRule

theorem Opcode.lane?_truth {op : Opcode} {ws : List Word} {w : Word} (hop : op ∈ truthOpcodes)
    (h : op.lane? ws = some w) : w = 0 ∨ w = 0xFFFFFFFF := by
  unfold lane? at h
  split at h
  case h_25 =>
    obtain ⟨p, -, rfl⟩ := Option.map_eq_some_iff.mp h
    exact Word.ofTruth_eq_or _
  case h_26 | h_27 | h_28 | h_29 =>
    obtain ⟨p, q, -, -, rfl⟩ := Code.AluRule.logical_eq_some h
    exact Word.ofTruth_eq_or _
  case h_34 => cases h
  all_goals
    -- the comparisons of integers; the other opcodes are none for truth values
    first
      | exact absurd hop (by decide)
      | cases h
        exact Word.ofTruth_eq_or _

theorem Opcode.result?_truth {op : Opcode} {operands : List (Nat × Lanes)} {k : Nat} {w : Word}
    (hop : op ∈ truthOpcodes) (h : op.result? operands k = some w) : w = 0 ∨ w = 0xFFFFFFFF := by
  unfold result? at h
  split at h
  case h_1 | h_2 =>
    obtain ⟨ps, -, rfl⟩ := Option.map_eq_some_iff.mp h
    exact Word.ofTruth_eq_or _
  case h_3 => exact lane?_truth hop h

/-- The code of an instruction for integers, bits or truth values runs to its end and leaves in each lane
of the result what the opcode makes of the operands, wherever it says anything. What an opcode for truth
values says is a truth value. -/
theorem integer_opcodes_mean {b : BlockId} {c₀ c : Context} {id : Id} {n : Nat} {rule : Code.AluRule}
    {i : RawInstruction} {ty : TypeId} {rs : List Register} {ns : List Nat} (before : Option Id)
    (h : Code.Operates b c₀ c i ty id n rs ns) (hb : b < c.function.blocks.size)
    (hop : i.op ∈ Opcode.integerOpcodes) (hrule : Code.AluRule.ofOpcode? i.op = some rule)
    (harity : rs.length = rule.arity) (hwidths : i.op.WidthsFit n ns) :
    ∃ c' key r, Body.instruction before i (.append b) c₀ = .ok () c' ∧
      c'.ids.get id = .ok (.tree (.leaf key ty r)) ∧
      ∀ s ls, c'.function.instructions.size ≤ s.registers.size → Hold s rs ls →
        ∃ s' l, runSince c c' b s = .ok none s' ∧ s'.memory = s.memory ∧ s'.value? r = some l ∧
          ∀ k < n, ∀ w, i.op.result? (ns.zip ls) k = some w →
            l.get k = w ∧ (i.op ∈ Opcode.truthOpcodes → w = 0 ∨ w = 0xFFFFFFFF) := by
  obtain ⟨c', key, r, hmade, hid, hrun⟩ := h.run hb (Code.AluRule.isSingle_of_mem hop hrule) harity
  rw [Body.instruction_of_rule before hrule]
  refine ⟨c', key, r, hmade, hid, ?_⟩
  intro s ls hsize hls
  obtain ⟨s', l, hs', hmemory, hr, hl⟩ := hrun s ls hsize hls
  refine ⟨s', l, hs', hmemory, hr, ?_⟩
  intro k hk w hw
  have hfit : i.op.WidthsFit n ((ns.zip ls).map (·.1)) := by
    rwa [List.map_fst_zip (by rw [← h.widths.length_eq, hls.length_eq])]
  exact ⟨Code.AluRule.get_value?_of_result? hrule h.lanes_le hk hfit hl hw,
    fun htruth => Opcode.result?_truth htruth hw⟩

/-- Two vectors of signed numbers in registers, and an id for truth values. -/
def signedPairs : Context where
  options := {}
  ids := ⟨#[{ value := some (.type { ty := 1 }) }, { value := some (.tree (.leaf 0 0 0)) },
    { value := some (.tree (.leaf 1 0 1)) }, {}]⟩
  module := { types := ⟨#[{ shape := .vector .two .i32 }, { shape := .vector .two .bool }]⟩ }
  function := { instructions := #[.undef 2, .undef 2], blocks := #[{ instructions := [0, 1] }] }
  nextKey := 2

/-- The pair minus one and five is compared with one and minus seven. -/
theorem integer_opcodes_mean_signedPairs :
    ∃ c' r, Body.instruction none ⟨.opSGreaterThan, 5, [0, 3, 1, 2]⟩ (.append 0) signedPairs = .ok () c' ∧
      ∀ s, c'.function.instructions.size ≤ s.registers.size →
        Hold s [0, 1] [.ofWords [0xFFFFFFFF, 5], .ofWords [1, 0xFFFFFFF9]] →
        ∃ s' l, runSince signedPairs c' 0 s = .ok none s' ∧ s'.value? r = some l ∧
          l.get 0 = 0 ∧ l.get 1 = 0xFFFFFFFF := by
  have hoperates : Code.Operates 0 signedPairs signedPairs ⟨.opSGreaterThan, 5, [0, 3, 1, 2]⟩ 1 3 2 [0, 1]
      [2, 2] :=
    { type := ⟨0, _, rfl, rfl, rfl⟩
      result := rfl
      shape := ⟨_, rfl, rfl⟩
      operands := rfl
      widths := .cons (by decide) (.cons (by decide) .nil)
      fresh := ⟨_, rfl, rfl⟩ }
  obtain ⟨c', key, r, hmade, -, hrun⟩ := integer_opcodes_mean none hoperates (by decide) (by decide) rfl
    rfl (by simp [Opcode.WidthsFit])
  refine ⟨c', r, hmade, ?_⟩
  intro s hsize hs
  obtain ⟨s', l, hs', -, hl, hlanes⟩ := hrun s _ hsize hs
  exact ⟨s', l, hs', hl, (hlanes 0 (by decide) _ rfl).1, (hlanes 1 (by decide) _ rfl).1⟩

end Spirv

end ShaderIR
