import ShaderIR.Proofs.FloatSum
import ShaderIR.Proofs.IntegerMeaning

/-!
# Comparisons of floats

The bits of a float are a sign, an exponent and a mantissa, which say its value or that it is no number.
Floats compare as their values do. A comparison is asked for as an ordered or an unordered relation, which
differ where an operand is no number; the code of both is the same.
-/

namespace ShaderIR

open Float.Model (Format UnpackedFloat)
open Float.Model.UnpackedFloat

namespace Word

/-- The biased exponent of a float. -/
def exponent (w : Word) : Nat := w.toNat / 2 ^ 23 % 2 ^ 8

/-- The mantissa of a float without its leading one. -/
def mantissa (w : Word) : Nat := w.toNat % 2 ^ 23

/-- Whether bits are those of no number. -/
def isNaN (w : Word) : Bool := w.exponent = 255 ∧ w.mantissa ≠ 0

/-- The absolute value of a float, in units of the least positive one. Infinity counts as the first power
of two behind the largest number. -/
def magnitude (w : Word) : Nat :=
  if w.exponent = 0 then w.mantissa else (2 ^ 23 + w.mantissa) * 2 ^ (w.exponent - 1)

/-- The value of a float, in units of the least positive one. -/
def number (w : Word) : Int := if w.toNat < 2 ^ 31 then w.magnitude else -w.magnitude

end Word

namespace FloatLane

/-- A magnitude with a sign. -/
def signed : Sign → Nat → Int
  | .positive, n => n
  | .negative, n => -n

/-- The value of a float, in units of the least positive one of 32 bits. -/
def rank? : UnpackedFloat → Option Int
  | .notANumber => none
  | .infinity s => some (signed s (2 ^ 23 * 2 ^ 254))
  | .zero _ => some 0
  | .finite s m e _ => some (signed s (m * 2 ^ (e + 149).toNat))

/-- The mantissa has a leading one, or the exponent is the least. -/
def IsCanonical : UnpackedFloat → Prop
  | .finite _ m e _ => m < 2 ^ 24 ∧ -149 ≤ e ∧ e < 105 ∧ (e = -149 ∨ 2 ^ 23 ≤ m)
  | _ => True

theorem scaled_lt {m₁ m₂ k₁ k₂ : Nat} (h₁ : m₁ < 2 ^ 24) (h₂ : 2 ^ 23 ≤ m₂) (hk : k₁ < k₂) :
    m₁ * 2 ^ k₁ < m₂ * 2 ^ k₂ :=
  calc m₁ * 2 ^ k₁ < 2 ^ 24 * 2 ^ k₁ := Nat.mul_lt_mul_of_pos_right h₁ (Nat.two_pow_pos k₁)
    _ = 2 ^ 23 * 2 ^ (k₁ + 1) := by ring
    _ ≤ m₂ * 2 ^ k₂ := Nat.mul_le_mul h₂ (Nat.pow_le_pow_right (by decide) hk)

theorem compare_scaled {m₁ m₂ : Nat} {e₁ e₂ : Int} (h₁ : m₁ < 2 ^ 24) (h₁' : -149 ≤ e₁)
    (h₁'' : e₁ = -149 ∨ 2 ^ 23 ≤ m₁) (h₂ : m₂ < 2 ^ 24) (h₂' : -149 ≤ e₂)
    (h₂'' : e₂ = -149 ∨ 2 ^ 23 ≤ m₂) :
    (compare e₁ e₂).then (compare m₁ m₂) = compare (m₁ * 2 ^ (e₁ + 149).toNat) (m₂ * 2 ^ (e₂ + 149).toNat) := by
  rcases lt_trichotomy e₁ e₂ with he | rfl | he
  · rw [compare_lt_iff_lt.mpr he]
    exact (compare_lt_iff_lt.mpr (scaled_lt h₁ (h₂''.resolve_left (by omega)) (by omega))).symm
  · rw [compare_eq_iff_eq.mpr rfl, ← cmp_eq_compare, ← cmp_eq_compare]
    exact ((strictMono_mul_right_of_pos (Nat.two_pow_pos _)).cmp_map_eq m₁ m₂).symm
  · rw [compare_gt_iff_gt.mpr he]
    exact (compare_gt_iff_gt.mpr (scaled_lt h₂ (h₁''.resolve_left (by omega)) (by omega))).symm

theorem scaled_bounds {m : Nat} {e : Int} (hpos : 0 < m) (h : m < 2 ^ 24) (he : e < 105) :
    0 < m * 2 ^ (e + 149).toNat ∧ m * 2 ^ (e + 149).toNat < 2 ^ 23 * 2 ^ 254 :=
  ⟨Nat.mul_pos hpos (Nat.two_pow_pos _), scaled_lt h (Nat.le_refl _) (by omega)⟩

theorem compare_signed (s : Sign) (a b : Nat) : compare (signed s a) (signed s b) = match s with
      | .positive => compare a b
      | .negative => (compare a b).swap := by
  rcases lt_trichotomy a b with h | rfl | h
  · rw [compare_lt_iff_lt.mpr h]
    cases s
    · exact compare_gt_iff_gt.mpr (Int.neg_lt_neg (Int.ofNat_lt.mpr h))
    · exact compare_lt_iff_lt.mpr (Int.ofNat_lt.mpr h)
  · rw [compare_eq_iff_eq.mpr rfl, compare_eq_iff_eq.mpr rfl]
    cases s <;> rfl
  · rw [compare_gt_iff_gt.mpr h]
    cases s
    · exact compare_lt_iff_lt.mpr (Int.neg_lt_neg (Int.ofNat_lt.mpr h))
    · exact compare_gt_iff_gt.mpr (Int.ofNat_lt.mpr h)

theorem compare_eq {u v : UnpackedFloat} (hu : IsCanonical u) (hv : IsCanonical v) :
    u.compare v = (rank? u).bind fun x => (rank? v).map (compare x) := by
  have hlt {x y : Int} (h : x < y) : some Ordering.lt = some (compare x y) :=
    congrArg some (compare_lt_iff_lt.mpr h).symm
  have hgt {x y : Int} (h : y < x) : some Ordering.gt = some (compare x y) :=
    congrArg some (compare_gt_iff_gt.mpr h).symm
  match u, v with
  | .notANumber, _ => rfl
  | .infinity _, .notANumber | .zero _, .notANumber | .finite .., .notANumber => rfl
  | .infinity s, .infinity t | .infinity s, .zero t | .zero s, .infinity t | .zero s, .zero t =>
    cases s <;> cases t <;> decide
  | .finite s m e hm, .finite t m' e' hm' =>
    obtain ⟨hm₁, he₁, he₂, hnormal⟩ := hu
    obtain ⟨hm₁', he₁', he₂', hnormal'⟩ := hv
    obtain ⟨hpos, -⟩ := scaled_bounds hm hm₁ he₂
    obtain ⟨hpos', -⟩ := scaled_bounds hm' hm₁' he₂'
    have hscaled := compare_scaled hm₁ he₁ hnormal hm₁' he₁' hnormal'
    cases s <;> cases t
    · exact congrArg some ((congrArg Ordering.swap hscaled).trans (compare_signed .negative _ _).symm)
    · exact hlt (by simp only [signed]; omega)
    · exact hgt (by simp only [signed]; omega)
    · exact congrArg some (hscaled.trans (compare_signed .positive _ _).symm)
  | .finite s m e hm, .infinity t | .finite s m e hm, .zero t =>
    obtain ⟨hm₁, -, he₂, -⟩ := hu
    obtain ⟨hpos, hlt'⟩ := scaled_bounds hm hm₁ he₂
    cases s <;> cases t <;> first
      | exact hlt (by simp only [signed]; omega)
      | exact hgt (by simp only [signed]; omega)
  | .infinity s, .finite t m e hm | .zero s, .finite t m e hm =>
    obtain ⟨hm₁, -, he₂, -⟩ := hv
    obtain ⟨hpos, hlt'⟩ := scaled_bounds hm hm₁ he₂
    cases s <;> cases t <;> first
      | exact hlt (by simp only [signed]; omega)
      | exact hgt (by simp only [signed]; omega)

/-! ### The value of a word -/

theorem toNat_unpackExponent (w : Word) : (@unpackExponent .binary32 w.toBitVec).toNat = w.exponent := by
  simp [unpackExponent, Word.exponent, BitVec.extractLsb, Nat.shiftRight_eq_div_pow]

theorem toNat_unpackMantissa (w : Word) : (@unpackMantissa .binary32 w.toBitVec).toNat = w.mantissa := by
  simp [unpackMantissa, Word.mantissa, BitVec.extractLsb]

theorem number_eq (w : Word) :
    w.number = signed (Sign.ofBitVec (@unpackSign .binary32 w.toBitVec)) w.magnitude := by
  have hsign : (@unpackSign .binary32 w.toBitVec).toNat = w.toNat / 2 ^ 31 % 2 := by
    simp [unpackSign, BitVec.extractLsb, Nat.shiftRight_eq_div_pow]
  have hlt := w.toNat_lt
  unfold Word.number Sign.ofBitVec
  split <;> split <;> rename_i hw hzero <;> rw [BitVec.toNat_eq, hsign, BitVec.toNat_ofNat] at hzero
  · rfl
  · omega
  · omega
  · rfl

theorem rank?_unpack (w : Word) : IsCanonical (UnpackedFloat.unpack .binary32 w.toBitVec) ∧
    rank? (UnpackedFloat.unpack .binary32 w.toBitVec) = if w.isNaN then none else some w.number := by
  have hbias : (Format.binary32.exponentBias : Int) = 127 := rfl
  have hbits : (Format.binary32.mantissaBitsWithoutImplicit : Int) = 23 := rfl
  have he := toNat_unpackExponent w
  have hm := toNat_unpackMantissa w
  have hlt : w.exponent < 256 ∧ w.mantissa < 2 ^ 23 := ⟨Nat.mod_lt _ (by decide), Nat.mod_lt _ (by decide)⟩
  simp only [UnpackedFloat.unpack, BitVec.toNat_eq, he, hm]
  rw [number_eq]
  split
  · next hlast =>
    replace hlast : w.exponent = 255 := hlast
    split
    · next hzero =>
      replace hzero : w.mantissa = 0 := hzero
      exact ⟨trivial, by simp [rank?, Word.isNaN, Word.magnitude, hlast, hzero]⟩
    · next hzero => exact ⟨trivial, by simp_all [rank?, Word.isNaN]⟩
  · next hlast =>
    replace hlast : w.exponent ≠ 255 := hlast
    have hnumber : w.isNaN = false := by simp [Word.isNaN, hlast]
    rw [hnumber, if_neg Bool.false_ne_true]
    split
    · next hzero =>
      replace hzero : w.exponent = 0 := hzero
      have hmagnitude : w.magnitude = w.mantissa := if_pos hzero
      rw [hmagnitude]
      split
      · next hm₀ =>
        replace hm₀ : w.mantissa = 0 := hm₀
        rw [hm₀]
        refine ⟨trivial, ?_⟩
        cases Sign.ofBitVec (@unpackSign .binary32 w.toBitVec) <;> rfl
      · have hleast : (w.exponent : Int) - (127 + 23) + 1 = -149 := by omega
        refine ⟨⟨by omega, by omega, by omega, .inl (by omega)⟩, ?_⟩
        rw [rank?, hbias, hbits, hleast, Int.add_left_neg, Int.toNat_zero, pow_zero, Nat.mul_one]
    · next hzero =>
      replace hzero : w.exponent ≠ 0 := hzero
      have hmagnitude : w.magnitude = (2 ^ 23 + w.mantissa) * 2 ^ (w.exponent - 1) := if_neg hzero
      have hleading : (1#1 ++ @unpackMantissa .binary32 w.toBitVec).toNat = 2 ^ 23 + w.mantissa :=
        (toNat_leading _).trans (by rw [hm])
      have hexponent : ((w.exponent : Int) - (127 + 23) + 149).toNat = w.exponent - 1 := by omega
      refine ⟨⟨by omega, by omega, by omega, .inr (by omega)⟩, ?_⟩
      rw [rank?, hmagnitude, hleading, hbias, hbits, hexponent]

theorem unpack_ofBits (w : Word) :
    (Float32.ofBits w).toModel.unpack = UnpackedFloat.unpack .binary32 w.toBitVec := by
  change UnpackedFloat.unpack .binary32 (UnpackedFloat.pack .binary32 (.unpack .binary32 w.toBitVec)) = _
  by_cases h : @unpackExponent .binary32 w.toBitVec = -1#8 ∧ @unpackMantissa .binary32 w.toBitVec ≠ 0#23
  · have hnone : UnpackedFloat.unpack .binary32 w.toBitVec = .notANumber := by
      simp only [UnpackedFloat.unpack, if_pos h.1, if_neg h.2]
    rw [hnone]
    rfl
  · rw [pack_unpack ⟨fun h₁ h₂ => (h ⟨h₁, h₂⟩).elim⟩]

theorem compare_ofBits (a b : Word) :
    (Float32.ofBits a).toModel.unpack.compare (Float32.ofBits b).toModel.unpack =
      if a.isNaN || b.isNaN then none else some (compare a.number b.number) := by
  obtain ⟨ha, hra⟩ := rank?_unpack a
  obtain ⟨hb, hrb⟩ := rank?_unpack b
  rw [unpack_ofBits, unpack_ofBits, compare_eq ha hb, hra, hrb]
  cases a.isNaN <;> cases b.isNaN <;> rfl

end FloatLane

/-- The relations by which floats are compared. -/
inductive FloatRelation where
  | eq
  | ne
  | lt
  | gt
  | le
  | ge
deriving DecidableEq

namespace FloatRelation

/-- Whether a relation holds between two values. -/
def holds : FloatRelation → Int → Int → Bool
  | eq, x, y => x = y
  | ne, x, y => x ≠ y
  | lt, x, y => x < y
  | gt, x, y => x > y
  | le, x, y => x ≤ y
  | ge, x, y => x ≥ y

/-- Whether a relation holds between two words; where one of them is no number, an ordered relation does
not and an unordered one does. -/
def judges (r : FloatRelation) (ordered : Bool) (a b : Word) : Bool :=
  if a.isNaN || b.isNaN then !ordered else r.holds a.number b.number

/-- Whether a relation is computed as an ordered one. -/
def isOrdered (r : FloatRelation) : Bool := r ≠ ne

theorem lt_iff (a b : Word) : Float32.ofBits a < Float32.ofBits b ↔ lt.judges true a b := by
  have hlt : Float32.ofBits a < Float32.ofBits b ↔
      ((Float32.ofBits a).toModel.unpack.compare (Float32.ofBits b).toModel.unpack == some .lt) = true :=
    decide_eq_true_iff
  rw [hlt, FloatLane.compare_ofBits, judges]
  split
  · rfl
  · simp [holds, compare_lt_iff_lt]

theorem le_iff (a b : Word) : Float32.ofBits a ≤ Float32.ofBits b ↔ le.judges true a b := by
  have hle : Float32.ofBits a ≤ Float32.ofBits b ↔
      ((Float32.ofBits a).toModel.unpack.compare (Float32.ofBits b).toModel.unpack).any (·.isLE) = true :=
    decide_eq_true_iff
  rw [hle, FloatLane.compare_ofBits, judges]
  split
  · rfl
  · simp [holds, Ordering.isLE_iff_ne_gt, compare_le_iff_le]

theorem beq_eq (a b : Word) : (Float32.ofBits a == Float32.ofBits b) = eq.judges true a b := by
  change ((Float32.ofBits a).toModel.unpack.compare (Float32.ofBits b).toModel.unpack == some .eq) = _
  rw [FloatLane.compare_ofBits, judges]
  split
  · rfl
  · rw [Bool.eq_iff_iff]
    simp [holds]

theorem gt_judges (ordered : Bool) (a b : Word) : gt.judges ordered a b = lt.judges ordered b a := by
  rw [judges, judges, Bool.or_comm]
  rfl

theorem ge_judges (ordered : Bool) (a b : Word) : ge.judges ordered a b = le.judges ordered b a := by
  rw [judges, judges, Bool.or_comm]
  rfl

theorem judges_eq_iff {r : FloatRelation} {p q : Bool} {a b : Word} :
    r.judges p a b = r.judges q a b ↔ p = q ∨ a.isNaN = false ∧ b.isNaN = false := by
  unfold judges
  cases a.isNaN <;> cases b.isNaN <;> simp

end FloatRelation

theorem Word.ofTruth_inj {p q : Prop} [Decidable p] [Decidable q] : ofTruth p = ofTruth q ↔ (p ↔ q) := by
  by_cases hp : p <;> by_cases hq : q <;> simp [ofTruth, hp, hq]

namespace Spirv

/-- Whether a comparison of floats is an ordered one, and the relation it is for. -/
def Opcode.floatComparison? : Opcode → Option (Bool × FloatRelation)
  | .opFOrdEqual => some (true, .eq)
  | .opFUnordEqual => some (false, .eq)
  | .opFOrdNotEqual => some (true, .ne)
  | .opFUnordNotEqual => some (false, .ne)
  | .opFOrdLessThan => some (true, .lt)
  | .opFUnordLessThan => some (false, .lt)
  | .opFOrdGreaterThan => some (true, .gt)
  | .opFUnordGreaterThan => some (false, .gt)
  | .opFOrdLessThanEqual => some (true, .le)
  | .opFUnordLessThanEqual => some (false, .le)
  | .opFOrdGreaterThanEqual => some (true, .ge)
  | .opFUnordGreaterThanEqual => some (false, .ge)
  | _ => none

namespace Code.AluRule

/-- The rule by which a relation is computed. -/
def ofRelation : FloatRelation → AluRule
  | .eq => .op .feq
  | .ne => .op .fne
  | .lt => .op .flt
  | .gt => .swapped .flt
  | .le => .swapped .fge
  | .ge => .op .fge

theorem ofOpcode?_of_floatComparison? {op : Opcode} {ordered : Bool} {r : FloatRelation}
    (h : op.floatComparison? = some (ordered, r)) : ofOpcode? op = some (ofRelation r) := by
  unfold Opcode.floatComparison? at h
  split at h <;> cases h <;> rfl

theorem lane?_ofRelation (r : FloatRelation) (a b : Word) :
    (ofRelation r).lane? [a, b] = some (.ofTruth (r.judges r.isOrdered a b)) := by
  have hlt (a b : Word) : AluOp.flt.lane a b 0 = .ofTruth (FloatRelation.lt.judges true a b) :=
    (Word.ofBool_eq _).trans (Word.ofTruth_congr (FloatRelation.lt_iff a b))
  have hle (a b : Word) : AluOp.fge.lane a b 0 = .ofTruth (FloatRelation.le.judges true b a) :=
    (Word.ofBool_eq _).trans (Word.ofTruth_congr (FloatRelation.le_iff b a))
  have hbool (p : Bool) : Word.ofBool p = .ofTruth p := by cases p <;> rfl
  cases r with
  | eq => exact congrArg some ((congrArg Word.ofBool (FloatRelation.beq_eq a b)).trans (hbool _))
  | ne =>
    refine congrArg some ((congrArg (fun p => Word.ofBool (!p)) (FloatRelation.beq_eq a b)).trans
      ((hbool _).trans (Word.ofTruth_congr ?_)))
    unfold FloatRelation.judges
    split <;> simp [FloatRelation.holds, FloatRelation.isOrdered]
  | lt => exact congrArg some (hlt a b)
  | gt => exact congrArg some ((hlt b a).trans (by rw [FloatRelation.gt_judges]; rfl))
  | le => exact congrArg some (hle b a)
  | ge => exact congrArg some ((hle a b).trans (by rw [FloatRelation.ge_judges]; rfl))

theorem laneFor_self {n k : Nat} (hk : k < n) (l : Lanes) : laneFor k (n, l) = l.get k := by
  unfold laneFor
  split
  · next hn =>
    obtain rfl : k = 0 := Nat.lt_one_iff.mp (hn ▸ hk)
    rfl
  · rfl

end Code.AluRule

/-- The code of a comparison of floats runs to its end and leaves a truth value in each lane of the result.
Inequality is computed as an unordered relation and every other relation as an ordered one, whatever the
opcode asks for; so the result is the one asked for if that is the same, or if both operands are numbers,
and otherwise it is not. -/
theorem float_comparisons_judge {b : BlockId} {c₀ c : Context} {i : RawInstruction} {ty : TypeId} {id : Id}
    {n : Nat} {p q : Register} {ordered : Bool} {r : FloatRelation} (before : Option Id)
    (h : Code.Operates b c₀ c i ty id n [p, q] [n, n]) (hb : b < c.function.blocks.size)
    (hop : i.op.floatComparison? = some (ordered, r)) :
    ∃ c' key result, Body.instruction before i (.append b) c₀ = .ok () c' ∧
      c'.ids.get id = .ok (.tree (.leaf key ty result)) ∧
      ∀ s l₁ l₂, c'.function.instructions.size ≤ s.registers.size → Hold s [p, q] [l₁, l₂] →
        ∃ s' l, runSince c c' b s = .ok none s' ∧ s'.memory = s.memory ∧ s'.value? result = some l ∧
          ∀ k < n, l.get k = .ofTruth (r.judges r.isOrdered (l₁.get k) (l₂.get k)) ∧
            (l.get k = .ofTruth (r.judges ordered (l₁.get k) (l₂.get k)) ↔
              ordered = r.isOrdered ∨ (l₁.get k).isNaN = false ∧ (l₂.get k).isNaN = false) := by
  have hrule := Code.AluRule.ofOpcode?_of_floatComparison? hop
  obtain ⟨c', key, result, hmade, hid, hrun⟩ := h.run hb
    (show (Code.AluRule.ofRelation r).isSingle by cases r <;> rfl) (by cases r <;> rfl)
  rw [Body.instruction_of_rule before hrule]
  refine ⟨c', key, result, hmade, hid, ?_⟩
  intro s l₁ l₂ hsize hs
  obtain ⟨s', l, hs', hmemory, hresult, hl⟩ := hrun s _ hsize hs
  refine ⟨s', l, hs', hmemory, hresult, ?_⟩
  intro k hk
  have hlane : l.get k = .ofTruth (r.judges r.isOrdered (l₁.get k) (l₂.get k)) := by
    refine Code.AluRule.get_value? h.lanes_le hk (by simp) hl ?_
    rw [← Code.AluRule.lane?_ofRelation, ← Code.AluRule.laneFor_self hk l₁, ← Code.AluRule.laneFor_self hk l₂]
    rfl
  refine ⟨hlane, ?_⟩
  rw [hlane, Word.ofTruth_inj, ← Bool.eq_iff_iff, FloatRelation.judges_eq_iff, eq_comm]

/-- Two floats in registers, and an id for a truth value. -/
def twoFloats : Context where
  options := {}
  ids := ⟨#[{ value := some (.type { ty := 1 }) }, { value := some (.tree (.leaf 0 0 0)) },
    { value := some (.tree (.leaf 1 0 1)) }, {}]⟩
  module := { types := ⟨#[{ shape := .scalar .f32 }, { shape := .scalar .bool }]⟩ }
  function := { instructions := #[.undef 1, .undef 1], blocks := #[{ instructions := [0, 1] }] }
  nextKey := 2

/-- Something that is no number is found not to be below one by an unordered comparison. -/
theorem float_comparisons_judge_twoFloats :
    ∃ c' r, Body.instruction none ⟨.opFUnordLessThan, 5, [0, 3, 1, 2]⟩ (.append 0) twoFloats = .ok () c' ∧
      ∀ s, c'.function.instructions.size ≤ s.registers.size →
        Hold s [0, 1] [.ofWords [0x7FC00000], .ofWords [0x3F800000]] →
        ∃ s' l, runSince twoFloats c' 0 s = .ok none s' ∧ s'.value? r = some l ∧ l.get 0 = 0 := by
  have hoperates : Code.Operates 0 twoFloats twoFloats ⟨.opFUnordLessThan, 5, [0, 3, 1, 2]⟩ 1 3 1 [0, 1] [1, 1] :=
    { type := ⟨0, _, rfl, rfl, rfl⟩
      result := rfl
      shape := ⟨_, rfl, rfl⟩
      operands := rfl
      widths := .cons (by decide) (.cons (by decide) .nil)
      fresh := ⟨_, rfl, rfl⟩ }
  obtain ⟨c', key, r, hmade, -, hrun⟩ := float_comparisons_judge none hoperates (by decide) rfl
  refine ⟨c', r, hmade, ?_⟩
  intro s hsize hs
  obtain ⟨s', l, hs', -, hl, hlanes⟩ := hrun s _ _ hsize hs
  exact ⟨s', l, hs', hl, (hlanes 0 (by decide)).1⟩

/-- Against something that is no number, equality is not found unordered, and inequality not ordered. -/
theorem nan_comparisons_differ :
    (Code.AluRule.ofOpcode? .opFUnordEqual).bind (·.lane? [0x7FC00000, 0x3F800000]) = some 0 ∧
      FloatRelation.eq.judges false 0x7FC00000 0x3F800000 = true ∧
      (Code.AluRule.ofOpcode? .opFOrdNotEqual).bind (·.lane? [0x7FC00000, 0x3F800000]) = some 0xFFFFFFFF ∧
      FloatRelation.ne.judges true 0x7FC00000 0x3F800000 = false := by
  decide +kernel

end Spirv

end ShaderIR
