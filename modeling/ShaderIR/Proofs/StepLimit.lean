import ShaderIR.Proofs.Coverage

/-!
# What the limit of a run does

A run that may enter `n` blocks is the beginning of every run that may enter more. Either it comes to its
end within `n` blocks, and then the limit plays no part in it, or it enters all `n` and is stopped at the
next.
-/

namespace ShaderIR

open EStateM List

namespace Function

variable {f : Function} {p : Position} {s s' : RunState}

theorem ne_stepLimit_of_enter {e : EvalError} (h : f.enter p s = .error e s') (n : Nat) : e ≠ .stepLimit n := by
  have hnext (jump : Option Jump) : EStateM.FailsWith (fun e : EvalError => e ≠ .stepLimit n) (p.next jump) := by
    unfold Position.next
    split
    · split
      · split <;> exact .pure _
      · refine .bind (fun _ e _ hregister => ?_) fun _ => .pure _
        obtain ⟨r, rfl⟩ := Exec.failsWith_register _ hregister
        exact nofun
      · exact .pure _
    · exact .pure _
    all_goals
      split
      · exact .pure _
      · exact .throw nofun
  rcases bind_eq_error.mp h with hexec | ⟨jump, t, -, hjump⟩
  · obtain ⟨r, rfl⟩ | ⟨r, -, -, rfl⟩ := error_of_execBlock hexec <;> exact nofun
  · exact hnext jump hjump

/-- The run from here comes to its end within `steps` blocks. -/
def Ends (f : Function) (steps : Nat) (p : Position) (s : RunState)
    (result : EStateM.Result EvalError RunState Unit) : Prop :=
  (∀ n s', result ≠ .error (.stepLimit n) s') ∧ ∀ limit k, f.execFrom limit (steps + k) p s = result

theorem Ends.execFrom_eq {steps : Nat} {result : EStateM.Result EvalError RunState Unit}
    (h : f.Ends steps p s result) (limit : Nat) : f.execFrom limit steps p s = result := h.2 limit 0

/-- The run from here enters `steps` blocks and would go on. -/
def Outlasts (f : Function) (steps : Nat) (p : Position) (s : RunState) : Prop :=
  (f.visits steps p s).length = steps ∧ ∀ limit, ∃ s', f.execFrom limit steps p s = .error (.stepLimit limit) s'

theorem execFrom_of_enter {limit k : Nat} {q : Option Position} (h : f.enter p s = .ok q s') :
    f.execFrom limit (k + 1) p s =
      match q with
      | none => .ok () s'
      | some q => f.execFrom limit k q s' := by
  rw [execFrom, bind_of_ok h]
  cases q <;> rfl

theorem ends_or_outlasts (steps : Nat) : (∃ result, f.Ends steps p s result) ∨ f.Outlasts steps p s := by
  induction steps generalizing p s with
  | zero => exact .inr ⟨rfl, fun limit => ⟨s, rfl⟩⟩
  | succ steps ih =>
    cases henter : f.enter p s with
    | error e t =>
      refine .inl ⟨.error e t, fun n s' hn => ?_, fun limit k => ?_⟩
      · cases hn
        exact ne_stepLimit_of_enter henter n rfl
      · rw [Nat.succ_add]
        exact bind_of_error henter
    | ok q t =>
      cases q with
      | none =>
        refine .inl ⟨.ok () t, fun _ _ => nofun, fun limit k => ?_⟩
        rw [Nat.succ_add, execFrom_of_enter henter]
      | some q =>
        rcases ih (p := q) (s := t) with ⟨result, hresult, hends⟩ | ⟨hlength, hstopped⟩
        · refine .inl ⟨result, hresult, fun limit k => ?_⟩
          rw [Nat.succ_add, execFrom_of_enter henter]
          exact hends limit k
        · refine .inr ⟨?_, fun limit => ?_⟩
          · rw [visits, henter, length_cons, hlength]
          · obtain ⟨u, hu⟩ := hstopped limit
            exact ⟨u, (execFrom_of_enter henter).trans hu⟩

theorem Outlasts.of_le {m n : Nat} (h : f.Outlasts n p s) (hle : m ≤ n) : f.Outlasts m p s := by
  refine (ends_or_outlasts m).resolve_left ?_
  rintro ⟨result, hresult, hends⟩
  obtain ⟨k, rfl⟩ := Nat.exists_eq_add_of_le hle
  obtain ⟨u, hu⟩ := h.2 0
  exact hresult 0 u ((hends 0 k).symm.trans hu)

theorem visits_eq_take {m n : Nat} (h : m ≤ n) : f.visits m p s = (f.visits n p s).take m := by
  induction m generalizing n p s with
  | zero => rfl
  | succ m ih =>
    obtain ⟨n, rfl⟩ := Nat.exists_eq_add_of_le' (Nat.le_trans (Nat.le_add_left 1 m) h)
    rw [visits, visits]
    grind

end Function

namespace Machine

/-- The machine with another limit for its runs. -/
def withLimit (machine : Machine) (n : Nat) : Machine := { machine with stepLimit := n }

variable {machine : Machine} {f : Function} {n : Nat}

theorem run_withLimit : (machine.withLimit n).run f =
    match f.execFrom n n { region := f.body } (machine.start f) with
    | .ok _ s => (none, ⟨s.memory, s.discarded, n⟩)
    | .error e s => (some e, ⟨s.memory, s.discarded, n⟩) := rfl

theorem outlasts_iff : ((machine.withLimit n).run f).1 = some (.stepLimit n) ↔
    f.Outlasts n { region := f.body } (machine.start f) := by
  rw [run_withLimit]
  constructor
  · intro hrun
    refine (f.ends_or_outlasts n).resolve_left ?_
    rintro ⟨result, hends⟩
    rw [hends.execFrom_eq n] at hrun
    cases result with
    | ok _ s => cases hrun
    | error e s =>
      cases hrun
      exact hends.1 n s rfl
  · rintro ⟨-, hstopped⟩
    obtain ⟨s, hs⟩ := hstopped n
    rw [hs]

end Machine

/-- A run enters no more blocks than its limit allows, and the limit only cuts it short. With a lower
limit it enters the first of the same blocks. If it is not stopped by the limit, it comes to the same with
every higher one; if it is, it has entered as many blocks as it may, and every lower limit stops it. -/
theorem limit_only_truncates (machine : Machine) (f : Function) (n : Nat) :
    ((machine.withLimit n).visits f).length ≤ n ∧
      (∀ m ≤ n, (machine.withLimit m).visits f = ((machine.withLimit n).visits f).take m) ∧
      (((machine.withLimit n).run f).1 ≠ some (.stepLimit n) →
        ∀ m ≥ n, ((machine.withLimit m).run f).1 = ((machine.withLimit n).run f).1 ∧
          ((machine.withLimit m).run f).2.memory = ((machine.withLimit n).run f).2.memory ∧
          ((machine.withLimit m).run f).2.discarded = ((machine.withLimit n).run f).2.discarded) ∧
      (((machine.withLimit n).run f).1 = some (.stepLimit n) → ((machine.withLimit n).visits f).length = n ∧
          ∀ m ≤ n, ((machine.withLimit m).run f).1 = some (.stepLimit m)) := by
  have htake {m : Nat} (h : m ≤ n) : (machine.withLimit m).visits f = ((machine.withLimit n).visits f).take m :=
    Function.visits_eq_take h
  refine ⟨?_, fun m => htake, fun hends m hle => ?_, fun hstopped => ?_⟩
  · rw [htake (Nat.le_refl n)]
    exact length_take_le ..
  · obtain ⟨result, hresult⟩ := (f.ends_or_outlasts n).resolve_right (mt Machine.outlasts_iff.mpr hends)
    obtain ⟨k, rfl⟩ := Nat.exists_eq_add_of_le hle
    rw [Machine.run_withLimit, Machine.run_withLimit, hresult.2 _ k, hresult.execFrom_eq n]
    cases result <;> exact ⟨rfl, rfl, rfl⟩
  · have houtlasts := Machine.outlasts_iff.mp hstopped
    exact ⟨houtlasts.1, fun m hle => Machine.outlasts_iff.mpr (houtlasts.of_le hle)⟩

end ShaderIR
