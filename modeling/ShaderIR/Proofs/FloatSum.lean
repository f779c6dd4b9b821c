import Mathlib
import ShaderIR.Alu.Eval

/-!
# Sums of products of float lanes

The bits of a number determine it, and a number has one pattern of bits. Products may be taken in
either order, and negative zero adds nothing; so a dot product, which starts from negative zero, is
the plain sum of its products from left to right.
-/

namespace ShaderIR

open Float.Model (Format UnpackedFloat)
open Float.Model.UnpackedFloat

namespace FloatLane

/-! ### The bits of a number -/

theorem toBitVec_ofBitVec (v : BitVec 1) : (Sign.ofBitVec v).toBitVec = v := by
  revert v
  decide

theorem packComponents_eq {b : BitVec Format.binary32.numBits} {e : BitVec Format.binary32.exponentBits}
    {m : BitVec Format.binary32.mantissaBitsWithoutImplicit} (he : unpackExponent b = e)
    (hm : unpackMantissa b = m) :
    packComponents .binary32 (Sign.ofBitVec (unpackSign b)) e m = b := by
  subst he hm
  simp only [packComponents, toBitVec_ofBitVec, unpackSign, unpackExponent, unpackMantissa, BitVec.extractLsb]
  ext i hi
  grind

variable {s : Sign} {e : BitVec 8} {m : BitVec 23}

theorem pack_subnormal {k : Int} (hk : k = -149) (h : 0 < m.toNat) :
    UnpackedFloat.pack .binary32 (.finite s m.toNat k h) = packComponents .binary32 s 0#8 m := by
  have hlog : m.toNat.log2 < 23 := (Nat.log2_lt (Nat.ne_of_gt h)).mpr m.isLt
  have hexponent : (k + Format.binary32.exponentBias +
      Format.binary32.mantissaBitsWithoutImplicit).toNat = 1 := by
    rw [hk]
    decide
  have hbits : Format.binary32.mantissaBits = 24 := rfl
  simp only [UnpackedFloat.pack, hexponent]
  grind

theorem toNat_leading (m : BitVec 23) : (1#1 ++ m).toNat = 2 ^ 23 + m.toNat := by
  rw [BitVec.toNat_append, ← Nat.shiftLeft_add_eq_or_of_lt m.isLt]
  rfl

theorem pack_normal {k : Int} (hk : k = e.toNat - 150) (h : 0 < (1#1 ++ m).toNat) (h₀ : e ≠ 0#8) (h₁ : e ≠ -1#8) :
    UnpackedFloat.pack .binary32 (.finite s (1#1 ++ m).toNat k h) = packComponents .binary32 s e m := by
  have hm := m.isLt
  have he : e.toNat ≠ 0 ∧ e.toNat < 255 := by
    have hlt := e.isLt
    have hne : e.toNat ≠ 255 := fun he => h₁ (BitVec.eq_of_toNat_eq he)
    exact ⟨fun he => h₀ (BitVec.eq_of_toNat_eq he), by omega⟩
  have hlog : (1#1 ++ m).toNat.log2 = 23 := by
    rw [toNat_leading, Nat.log2_eq_iff (by omega)]
    omega
  have hexponent : (k + Format.binary32.exponentBias +
      Format.binary32.mantissaBitsWithoutImplicit).toNat = e.toNat := by
    have hbias : (Format.binary32.exponentBias : Int) = 127 := rfl
    grind
  have hmantissa : BitVec.ofNat 23 (1#1 ++ m).toNat = m := by
    grind
  simp only [UnpackedFloat.pack, hexponent, hlog]
  have hlt : ¬2 ^ Format.binary32.exponentBits ≤ e.toNat + 1 := by
    change ¬256 ≤ e.toNat + 1
    omega
  rw [if_neg hlt, if_pos (by decide), BitVec.ofNat_toNat, BitVec.setWidth_eq]
  exact congrArg _ hmantissa

theorem pack_unpack {b : BitVec Format.binary32.numBits} (h : Format.binary32.Valid b) :
    UnpackedFloat.pack .binary32 (UnpackedFloat.unpack .binary32 b) = b := by
  have hbias : (Format.binary32.exponentBias : Int) = 127 := rfl
  have hbits : (Format.binary32.mantissaBitsWithoutImplicit : Int) = 23 := rfl
  simp only [UnpackedFloat.unpack]
  split
  case isTrue hlast =>
    split
    case isTrue hm => exact packComponents_eq hlast hm
    case isFalse hm => exact (h.eq_packedNaN hlast hm).symm
  case isFalse hlast =>
    split
    case isTrue hzero =>
      split
      case isTrue hm => exact packComponents_eq hzero hm
      case isFalse hm =>
        have hk : (unpackExponent b).toNat = 0 := by rw [hzero]; rfl
        exact (pack_subnormal (by rw [hk, hbias, hbits]; rfl) _).trans (packComponents_eq hzero rfl)
    case isFalse hzero =>
      exact (pack_normal (by rw [hbias, hbits]; omega) _ hzero hlast).trans (packComponents_eq rfl rfl)

theorem model_pack_unpack (a : Float32.Model) : .pack a.unpack = a := by
  obtain ⟨bits, h⟩ := a
  have hbits : UnpackedFloat.pack .binary32 (UnpackedFloat.unpack .binary32 bits.toBitVec) =
      bits.toBitVec := pack_unpack h
  simp only [Float32.Model.pack, Float32.Model.unpack, hbits]

/-! ### Two laws of arithmetic -/

theorem sign_mul_comm (s t : Sign) : s * t = t * s := by
  cases s <;> cases t <;> rfl

theorem unpacked_mul_comm (a b : UnpackedFloat) :
    UnpackedFloat.mul .binary32 a b = UnpackedFloat.mul .binary32 b a := by
  cases a <;> cases b <;>
    simp only [UnpackedFloat.mul, sign_mul_comm, Nat.mul_comm, Int.add_comm]

theorem mul_comm (a b : Float32) : a * b = b * a :=
  congrArg (fun u => Float32.ofModel (.pack u)) (unpacked_mul_comm _ _)

theorem unpacked_zero_add (a : UnpackedFloat) : UnpackedFloat.add .binary32 (.zero .negative) a = a := by
  cases a with
  | zero s => cases s <;> rfl
  | _ => rfl

theorem negZero_add (a : Float32) : -0.0 + a = a := by
  refine congrArg Float32.ofModel ?_
  change Float32.Model.pack (UnpackedFloat.add .binary32 (.zero .negative) a.toModel.unpack) = _
  rw [unpacked_zero_add, model_pack_unpack]

/-! ### Sums -/

/-- The sum of float lanes from left to right. -/
def sumLanes : List Word → Word
  | [] => 0
  | w :: ws => ws.foldl (AluOp.floatBinary (· + ·)) w

theorem toBits_foldl (xs : List Float32) (x : Float32) : (xs.foldl (· + ·) x).toBits =
      (xs.map Float32.toBits).foldl (AluOp.floatBinary (· + ·)) x.toBits := by
  induction xs generalizing x with
  | nil => rfl
  | cons y xs ih => simp [ih, AluOp.floatBinary]

theorem toBits_sum {xs : List Float32} (h : xs ≠ []) : (sum xs).toBits = sumLanes (xs.map Float32.toBits) := by
  cases xs with
  | nil => exact (h rfl).elim
  | cons x xs =>
    rw [sum, List.foldl_cons, negZero_add, toBits_foldl]
    rfl

end FloatLane

theorem AluOp.dotProduct_eq {n : Nat} (hpos : 0 < n) (h : n ≤ 4) (x y : Lanes) : dotProduct n x y =
      FloatLane.sumLanes ((List.range n).map fun k => floatBinary (· * ·) (x.get k) (y.get k)) := by
  have hproducts (g : Word × Word → Float32) : ((x.toList.zip y.toList).take n).map g =
      (List.range n).map fun k => g (x.get k, y.get k) := by
    interval_cases n <;> rfl
  rw [dotProduct, hproducts, FloatLane.toBits_sum (by simpa using hpos.ne'), List.map_map]
  rfl

end ShaderIR
