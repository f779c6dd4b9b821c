import Mathlib.Tactic.IntervalCases
import ShaderIR.Evaluate
import ShaderIR.Spirv.Code.Memory

/-!
# Lane by lane

What single lanes of registers and slots are after a source has been read through a swizzle, an
operation has been carried out, or a slot has been written through a mask.
-/

namespace ShaderIR

namespace Quad

variable {α β : Type}

theorem ext_get {p q : Quad α} (h : ∀ i < 4, p.get i = q.get i) : p = q := by
  obtain ⟨x, y, z, w⟩ := p
  obtain ⟨x', y', z', w'⟩ := q
  rw [Quad.mk.injEq]
  exact ⟨h 0 (by decide), h 1 (by decide), h 2 (by decide), h 3 (by decide)⟩

@[simp] theorem get_map (f : α → β) (q : Quad α) (i : Nat) : (q.map f).get i = f (q.get i) := by
  simp only [get, map]
  split <;> rfl

@[simp] theorem get_splat (a : α) (i : Nat) : (splat a).get i = a := by
  simp only [get, splat]
  split <;> rfl

theorem get_ofFn {f : Nat → α} {i : Nat} (h : i < 4) : (ofFn f).get i = f i := by
  interval_cases i <;> rfl

theorem getElem?_toList {q : Quad α} {i : Nat} (h : i < 4) : q.toList[i]? = some (q.get i) := by
  interval_cases i <;> rfl

end Quad

namespace Source

variable {r : Register} {l : Lanes} {n i : Nat}

theorem get_select (s : Source) : (s.select l).get i = l.get (s.swizzle.get i &&& 3).toNat := Quad.get_map ..

theorem get_select_whole (h : i < 4) : ((whole r).select l).get i = l.get i := by
  have hlane : ((whole 0).swizzle.get i &&& 3).toNat = i := by
    interval_cases i <;> decide
  rw [get_select]
  exact congrArg l.get hlane

theorem get_select_lane (j : UInt8) : ((lane r j).select l).get i = l.get (j &&& 3).toNat := by
  rw [get_select, lane, Quad.get_splat]

theorem get_select_fit (hn : n ≤ 4) (hi : i < n) : ((fit r n).select l).get i = l.get i := by
  have hlane : ((fit 0 n).swizzle.get i &&& 3).toNat = i := by
    interval_cases n <;> interval_cases i <;> decide
  rw [get_select]
  exact congrArg l.get hlane

theorem get_select_fit_one (hi : i < 4) : ((fit r 1).select l).get i = l.x := by
  have hlane : ((fit 0 1).swizzle.get i &&& 3).toNat = 0 := by
    interval_cases i <;> decide
  rw [get_select]
  exact congrArg l.get hlane

end Source

theorem AluOp.get_eval {op : AluOp} {inputs : List Lanes} {n i : Nat} (hop : op.inputWidth? = none)
    (hn : n ≤ 4) (hi : i < n) :
    (op.eval inputs n).get i = op.lane ((inputs[0]?.getD Lanes.zero).get i)
      ((inputs[1]?.getD Lanes.zero).get i) ((inputs[2]?.getD Lanes.zero).get i) := by
  have h4 : i < 4 := by omega
  simp only [eval, hop, Quad.get_ofFn h4, if_pos hi]

theorem get_maskedLanes {n i : Nat} (hn : n ≤ 4) (hi : i < n) (new old : Lanes) :
    (maskedLanes (Spirv.Code.laneMask n) new old).get i = new.get i := by
  interval_cases n <;> interval_cases i <;> rfl

theorem get_eval_ine_zero {n i : Nat} (hn : n ≤ 4) (hi : i < n) (r q : Register) (l : Lanes) :
    (AluOp.ine.eval [(Source.fit r n).select l, (Source.fit q 1).select (.ofWords [0])] n).get i =
      Word.ofBool (l.get i ≠ 0) := by
  rw [AluOp.get_eval rfl hn hi]
  simp only [List.getElem?_cons_zero, List.getElem?_cons_succ, Option.getD_some,
    Source.get_select_fit hn hi, Source.get_select_fit_one (show i < 4 by omega)]
  rfl

end ShaderIR
