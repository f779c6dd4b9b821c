import Mathlib.Order.Defs.Unbundled
import Mathlib.Tactic.Common

/-!
# Computations that succeed

A chain of computations succeeds exactly if each of its links does, and then the links hand the state
on from one to the next. Many links only look something up and leave the state as it was.
-/

namespace EStateM

variable {ε σ α β : Type} {s s' : σ}

/-- The state in which a computation ends, whether it succeeds or fails. -/
def Result.state : Result ε σ α → σ
  | .ok _ s | .error _ s => s

variable {f : α → EStateM ε σ β} {m : EStateM ε σ α} {l : List α}

theorem bind_eq_ok {b : β} : (m >>= f) s = .ok b s' ↔ ∃ a t, m s = .ok a t ∧ f a t = .ok b s' := by
  change EStateM.bind m f s = _ ↔ _
  unfold EStateM.bind
  cases m s with
  | ok a t => simp
  | error e t => simp

theorem state_bind_pure {b : β} : ((m >>= fun _ => pure b) s).state = (m s).state := by
  change (EStateM.bind m _ s).state = _
  unfold EStateM.bind
  cases m s <;> rfl

theorem bind_eq_error {e : ε} :
    (m >>= f) s = .error e s' ↔ m s = .error e s' ∨ ∃ a t, m s = .ok a t ∧ f a t = .error e s' := by
  change EStateM.bind m f s = _ ↔ _
  unfold EStateM.bind
  cases m s with
  | ok a t => simp
  | error e t => simp

theorem bind_of_ok {a : α} {t : σ} (h : m s = .ok a t) : (m >>= f) s = f a t := by
  change EStateM.bind m f s = _
  rw [EStateM.bind, h]

theorem bind_of_error {e : ε} (h : m s = .error e s') : (m >>= f) s = .error e s' := bind_eq_error.mpr (.inl h)

theorem bind_congr_of_ok {m' : EStateM ε σ α} {f' : α → EStateM ε σ β} (hm : m s = m' s)
    (hf : ∀ a t, m' s = .ok a t → f a t = f' a t) : (m >>= f) s = (m' >>= f') s := by
  change EStateM.bind m f s = EStateM.bind m' f' s
  unfold EStateM.bind
  grind

theorem pure_eq_ok {a b : α} : (pure a : EStateM ε σ α) s = .ok b s' ↔ a = b ∧ s = s' := by
  change EStateM.Result.ok a s = _ ↔ _
  simp

theorem get_eq_ok {t : σ} : (get : EStateM ε σ σ) s = .ok t s' ↔ t = s ∧ s' = s := by
  change EStateM.Result.ok s s = _ ↔ _
  simp [eq_comm]

theorem get_bind {f : σ → EStateM ε σ β} : (get >>= f) s = f s s := rfl

theorem getBind_eq_ok {f : σ → EStateM ε σ β} {b : β} : (get >>= f) s = .ok b s' ↔ f s s = .ok b s' := Iff.rfl

theorem modify_eq_ok {f : σ → σ} {u : PUnit} : (modify f : EStateM ε σ PUnit) s = .ok u s' ↔ s' = f s := by
  change EStateM.Result.ok PUnit.unit (f s) = _ ↔ _
  simp [eq_comm]

theorem modifyGet_eq_ok {f : σ → α × σ} {a : α} : (modifyGet f : EStateM ε σ α) s = .ok a s' ↔ f s = (a, s') := by
  change EStateM.Result.ok (f s).1 (f s).2 = _ ↔ _
  simp [Prod.ext_iff]

theorem throw_eq_ok {e : ε} {a : α} : (throw e : EStateM ε σ α) s = .ok a s' ↔ False := by
  change EStateM.Result.error e s = _ ↔ _
  simp

theorem exists_ok_of_check {p : α → σ → Bool} (h : (match m s with
      | .ok a s' => p a s'
      | .error .. => false) = true) : ∃ a s', m s = .ok a s' ∧ p a s' = true := by
  split at h
  · next a s' hm => exact ⟨a, s', hm, h⟩
  · cases h

theorem forM_append_eq_ok {f : α → EStateM ε σ PUnit} {l' : List α} {u : PUnit} :
    (l ++ l').forM f s = .ok u s' ↔ ∃ t, l.forM f s = .ok u t ∧ l'.forM f t = .ok u s' := by
  induction l generalizing s with
  | nil =>
    constructor
    · exact fun h => ⟨s, rfl, h⟩
    · rintro ⟨t, ht, h⟩
      obtain ⟨-, rfl⟩ := pure_eq_ok.mp ht
      exact h
  | cons a l ih =>
    constructor
    · intro h
      obtain ⟨_, t, ha, hrest⟩ := bind_eq_ok.mp h
      obtain ⟨t', hl, hl'⟩ := ih.mp hrest
      exact ⟨t', bind_eq_ok.mpr ⟨_, t, ha, hl⟩, hl'⟩
    · rintro ⟨t', h, hl'⟩
      obtain ⟨_, t, ha, hl⟩ := bind_eq_ok.mp h
      exact bind_eq_ok.mpr ⟨_, t, ha, ih.mpr ⟨t', hl, hl'⟩⟩

/-- A computation that leaves the state as it was whenever it succeeds. -/
def Looks (m : EStateM ε σ α) : Prop := ∀ ⦃s : σ⦄ ⦃a : α⦄ ⦃s' : σ⦄, m s = .ok a s' → s' = s

namespace Looks

protected theorem pure (a : α) : Looks (pure a : EStateM ε σ α) := fun _ _ _ h => (pure_eq_ok.mp h).2.symm

protected theorem get : Looks (get : EStateM ε σ σ) := fun _ _ _ h => (get_eq_ok.mp h).2

protected theorem throw (e : ε) : Looks (throw e : EStateM ε σ α) := fun _ _ _ h => (throw_eq_ok.mp h).elim

protected theorem bind (hm : Looks m) (hf : ∀ a, Looks (f a)) : Looks (m >>= f) := by
  intro s b s' h
  obtain ⟨a, t, h₁, h₂⟩ := bind_eq_ok.mp h
  rw [hf a h₂, hm h₁]

protected theorem mapM (hf : ∀ a, Looks (f a)) : ∀ l : List α, Looks (l.mapM f)
  | [] => by
    rw [List.mapM_nil]
    exact .pure []
  | a :: l => by
    rw [List.mapM_cons]
    exact (hf a).bind fun b => (Looks.mapM hf l).bind fun bs => .pure (b :: bs)

theorem bind_eq_ok (hm : Looks m) {b : β} :
    (m >>= f) s = .ok b s' ↔ ∃ a, m s = .ok a s ∧ f a s = .ok b s' := by
  rw [EStateM.bind_eq_ok]
  constructor
  · rintro ⟨a, t, ha, h⟩
    obtain rfl := hm ha
    exact ⟨a, ha, h⟩
  · rintro ⟨a, ha, h⟩
    exact ⟨a, s, ha, h⟩

theorem forall₂_of_mapM (hf : ∀ a, Looks (f a)) {bs : List β} (h : l.mapM f s = .ok bs s') :
    List.Forall₂ (fun a b => f a s = .ok b s) l bs := by
  induction l generalizing bs s' with
  | nil =>
    rw [List.mapM_nil] at h
    obtain ⟨rfl, -⟩ := pure_eq_ok.mp h
    exact .nil
  | cons a l ih =>
    rw [List.mapM_cons, (hf a).bind_eq_ok] at h
    obtain ⟨b, hb, h⟩ := h
    obtain ⟨bs', hbs', h⟩ := (Looks.mapM hf l).bind_eq_ok.mp h
    obtain ⟨rfl, -⟩ := pure_eq_ok.mp h
    exact .cons hb (ih hbs')

end Looks

/-- Every success of a computation takes the state along a relation. -/
def Along (R : σ → σ → Prop) (m : EStateM ε σ α) : Prop := ∀ ⦃s : σ⦄ ⦃a : α⦄ ⦃s' : σ⦄, m s = .ok a s' → R s s'

namespace Along

variable {R : σ → σ → Prop}

theorem of_looks [Std.Refl R] (h : Looks m) : Along R m := by
  intro s a s' hm
  rw [h hm]
  exact Std.Refl.refl s

protected theorem pure [Std.Refl R] (a : α) : Along R (pure a : EStateM ε σ α) := .of_looks (.pure a)

protected theorem get [Std.Refl R] : Along R (get : EStateM ε σ σ) := .of_looks .get

protected theorem throw (e : ε) : Along R (throw e : EStateM ε σ α) := fun _ _ _ h => (throw_eq_ok.mp h).elim

protected theorem modify {f : σ → σ} (h : ∀ s, R s (f s)) : Along R (modify f : EStateM ε σ PUnit) := by
  intro s a s' hm
  obtain rfl := modify_eq_ok.mp hm
  exact h s

protected theorem modifyGet {f : σ → α × σ} (h : ∀ s, R s (f s).2) : Along R (modifyGet f : EStateM ε σ α) := by
  intro s a s' hm
  have hs := h s
  rw [modifyGet_eq_ok.mp hm] at hs
  exact hs

variable [IsTrans σ R]

protected theorem bind (hm : Along R m) (hf : ∀ a, Along R (f a)) : Along R (m >>= f) := by
  intro s b s' h
  obtain ⟨a, t, h₁, h₂⟩ := bind_eq_ok.mp h
  exact IsTrans.trans _ _ _ (hm h₁) (hf a h₂)

variable [Std.Refl R]

protected theorem forM {f : α → EStateM ε σ PUnit} (hf : ∀ a, Along R (f a)) : ∀ l : List α, Along R (l.forM f)
  | [] => .pure _
  | a :: l => (hf a).bind fun _ => Along.forM hf l

protected theorem mapM (hf : ∀ a, Along R (f a)) : ∀ l : List α, Along R (l.mapM f)
  | [] => by
    rw [List.mapM_nil]
    exact .pure []
  | a :: l => by
    rw [List.mapM_cons]
    exact (hf a).bind fun b => (Along.mapM hf l).bind fun bs => .pure (b :: bs)

protected theorem foldlM {f : β → α → EStateM ε σ β} (hf : ∀ b a, Along R (f b a)) :
    ∀ (l : List α) (b : β), Along R (l.foldlM f b)
  | [], _ => .pure _
  | a :: l, b => (hf b a).bind fun b' => Along.foldlM hf l b'

end Along

theorem forM_keeps {I : σ → Prop} {f : α → EStateM ε σ PUnit}
    (hf : ∀ a ⦃s s' : σ⦄, f a s = .ok ⟨⟩ s' → I s → I s') (h : l.forM f s = .ok ⟨⟩ s') (hs : I s) :
    I s' := by
  induction l generalizing s with
  | nil =>
    obtain ⟨-, rfl⟩ := pure_eq_ok.mp h
    exact hs
  | cons a l ih =>
    obtain ⟨_, t, ha, hl⟩ := bind_eq_ok.mp h
    exact ih hl (hf a ha hs)

/-! ### Success -/

theorem exists_foldlM {I : β → σ → Prop} {f : β → α → EStateM ε σ β}
    (hf : ∀ a ∈ l, ∀ b s, I b s → ∃ b' s', f b a s = .ok b' s' ∧ I b' s') {b : β} {s : σ}
    (h : I b s) : ∃ b' s', l.foldlM f b s = .ok b' s' ∧ I b' s' := by
  induction l generalizing b s with
  | nil => exact ⟨b, s, rfl, h⟩
  | cons a l ih =>
    obtain ⟨b₁, s₁, ha, h₁⟩ := hf a (List.mem_cons_self ..) b s h
    obtain ⟨b₂, s₂, hl, h₂⟩ := ih (fun a' ha' => hf a' (List.mem_cons_of_mem a ha')) h₁
    refine ⟨b₂, s₂, ?_, h₂⟩
    rw [List.foldlM_cons, bind_of_ok ha, hl]

theorem exists_mapM {I : σ → Prop} (hf : ∀ a ∈ l, ∀ s, I s → ∃ b s', f a s = .ok b s' ∧ I s')
    {s : σ} (h : I s) : ∃ bs s', l.mapM f s = .ok bs s' ∧ I s' := by
  induction l generalizing s with
  | nil => exact ⟨[], s, rfl, h⟩
  | cons a l ih =>
    obtain ⟨b, s₁, ha, h₁⟩ := hf a (List.mem_cons_self ..) s h
    obtain ⟨bs, s₂, hl, h₂⟩ := ih (fun a' ha' => hf a' (List.mem_cons_of_mem a ha')) h₁
    refine ⟨b :: bs, s₂, ?_, h₂⟩
    rw [List.mapM_cons, bind_of_ok ha, bind_of_ok hl]
    rfl

theorem exists_forM {I : σ → Prop} {f : α → EStateM ε σ PUnit}
    (hf : ∀ a ∈ l, ∀ s, I s → ∃ s', f a s = .ok ⟨⟩ s' ∧ I s') {s : σ} (h : I s) :
    ∃ s', l.forM f s = .ok ⟨⟩ s' ∧ I s' := by
  induction l generalizing s with
  | nil => exact ⟨s, rfl, h⟩
  | cons a l ih =>
    obtain ⟨s₁, ha, h₁⟩ := hf a (List.mem_cons_self ..) s h
    obtain ⟨s₂, hl, h₂⟩ := ih (fun a' ha' => hf a' (List.mem_cons_of_mem a ha')) h₁
    exact ⟨s₂, (bind_of_ok ha).trans hl, h₂⟩

end EStateM
