import ShaderIR.Proofs.Positions
import Mathlib.Data.List.Nodup
import Mathlib.Data.List.Flatten
import Mathlib.Data.List.Perm.Subperm

/-!
# Each block once

If the blocks of a function nest, its walk makes the code of each of them at most once, whatever comes of
it. Blocks nest if each lies in one region, a block that several branches lead to is a merge block or heads
a loop, and those are come to in one way from inside of their region. Branches to where the innermost
selection or loop comes together, or to the header of the innermost loop, leave the region and do not
count. The continue target of a loop is a block like others: if two branches lead there, its code is made
twice.
-/

namespace ShaderIR.Spirv

open List

open Relation

/-- The region of a position does not come together there. -/
def Position.IsOpen (p : Position) : Prop := p.scope.stop ≠ some p.source

instance (p : Position) : Decidable p.IsOpen := inferInstanceAs (Decidable (_ ≠ _))

namespace Context

/-- The positions that a walk goes to from the code of a block. -/
def next (c : Context) (p : Position) : List Position := (c.into p ++ c.onTo p).filter (·.IsOpen)

/-- The positions at other blocks that a walk goes to from a position. Where a loop is opened, these are
the positions it goes to from the code of the header, and the one behind the loop. -/
def steps (c : Context) (p : Position) : List Position :=
  match c.turn? p with
  | some (.loop m) => (c.onTo p).filter (·.IsOpen) ++ c.next (.inLoop p.source m)
  | _ => c.next p

/-- The blocks that branches of a function lead to, one entry for each branch. -/
def branched (c : Context) (f : SourceFunction) : List Nat :=
  f.blocks.flatMap fun s => c.blocks[s]?.toList.flatMap c.branchTargets

/-- The blocks that a walk of a function goes to, one entry for each way there. -/
def ways (c : Context) (f : SourceFunction) (scopes : Nat → Scope) : List Nat :=
  f.blocks.head?.toList ++ f.blocks.flatMap fun s => (c.steps ⟨s, scopes s⟩).map (·.source)

/-- A construct of a function comes together at a block. -/
def IsMerge (c : Context) (f : SourceFunction) (t : Nat) : Prop :=
  ∃ s ∈ f.blocks, ∃ code ∈ c.blocks[s]?, c.mergeTarget? code = some t

/-- A block heads a loop. -/
def IsHeader (c : Context) (t : Nat) : Prop := ∃ code ∈ c.blocks[t]?, (code.loop? {} t).isSome

instance (c : Context) (f : SourceFunction) (t : Nat) : Decidable (c.IsMerge f t) :=
  inferInstanceAs (Decidable (∃ s ∈ f.blocks, _))

instance (c : Context) (t : Nat) : Decidable (c.IsHeader t) :=
  inferInstanceAs (Decidable (∃ code ∈ c.blocks[t]?, _))

/-- The blocks of a function nest: each lies in the region given by `scopes`, a block that several branches
lead to is a merge block or heads a loop, and there is one way to those. -/
structure Nests (c : Context) (f : SourceFunction) (scopes : Nat → Scope) : Prop where
  entry : ∀ s ∈ f.blocks.head?, scopes s = {}
  inside : ∀ s ∈ f.blocks, ∀ q ∈ c.steps ⟨s, scopes s⟩, q.source ∈ f.blocks ∧ q.scope = scopes q.source
  branches : ∀ t ∈ c.branched f, 1 < (c.branched f).count t → c.IsMerge f t ∨ c.IsHeader t
  joints : ∀ t ∈ c.ways f scopes, c.IsMerge f t ∨ c.IsHeader t ∨ f.blocks.head? = some t →
    (c.ways f scopes).count t ≤ 1

instance (c : Context) (f : SourceFunction) (scopes : Nat → Scope) : Decidable (c.Nests f scopes) :=
  decidable_of_iff (_ ∧ _ ∧ _ ∧ _)
    ⟨fun h => ⟨h.1, h.2.1, h.2.2.1, h.2.2.2⟩, fun h => ⟨h.entry, h.inside, h.branches, h.joints⟩⟩

/-- A walk goes from one block of a function to another. -/
def LeadsTo (c : Context) (f : SourceFunction) (scopes : Nat → Scope) (s t : Nat) : Prop :=
  s ∈ f.blocks ∧ t ∈ (c.steps ⟨s, scopes s⟩).map (·.source)

end Context

/-! ### Every block has one way in -/

section Forest

variable {r : Nat → Nat → Prop} {root s t x y : Nat}

theorem not_transGen_of_unique (hroot : ∀ s, ¬r s root) (hunique : ∀ s s' t, r s t → r s' t → s = s')
    (hs : ReflTransGen r root s) : ¬TransGen r s s := by
  induction hs with
  | refl =>
    grind
  | @tail a b _ hab ih =>
    intro h
    obtain ⟨a', hba', ha'b⟩ := TransGen.tail'_iff.mp h
    obtain rfl := hunique _ _ _ hab ha'b
    exact ih (TransGen.head' hab hba')

theorem not_reached_of_unique (hroot : ∀ s, ¬r s root) (hunique : ∀ s s' t, r s t → r s' t → s = s')
    (hs : ReflTransGen r root s) (hx : r s x) (hy : r s y) (hne : x ≠ y) (hxt : ReflTransGen r x t) :
    ¬ReflTransGen r y t := by
  intro hyt
  -- one of the two would be reached from the other, and so through their common predecessor
  have hcycle {x y : Nat} (hx : r s x) (hy : r s y) (hne : x ≠ y) (hyx : ReflTransGen r y x) : False := by
    rcases hyx.cases_tail with heq | ⟨a, hya, hax⟩
    · exact hne heq
    · obtain rfl := hunique _ _ _ hx hax
      exact not_transGen_of_unique hroot hunique hs (TransGen.head' hy hya)
  have hswap : Relator.RightUnique (Function.swap r) := fun _ _ _ h h' => hunique _ _ _ h h'
  rcases ReflTransGen.total_of_right_unique hswap hxt.swap hyt.swap with h | h
  · exact hcycle hx hy hne h.swap
  · exact hcycle hy hx hne.symm h.swap

end Forest

/-! ### One way to every block -/

theorem count_flatMap_le {α : Type} {l : List α} {f g : α → List Nat} {t : Nat}
    (h : ∀ a ∈ l, (f a).count t ≤ (g a).count t) : (l.flatMap f).count t ≤ (l.flatMap g).count t := by
  induction l with
  | nil => simp
  | cons a l ih =>
    grind

namespace Context

variable {c : Context} {f : SourceFunction} {scopes : Nat → Scope} {p : Position} {t : Nat}

theorem isOpen_of_turn? {r : Turn} (h : c.turn? p = some r) : p.IsOpen := by
  intro hstop
  rw [turn?, if_pos hstop] at h
  cases h

theorem turn?_inLoop_ne {s m : Nat} (n : Nat) : c.turn? (.inLoop s m) ≠ some (.loop n) := by
  intro h
  obtain ⟨code, -, hturns⟩ := turns_of_turn? h
  cases hturns with
  | loop hloop =>
    simp only [SourceBlock.loop?, Position.inLoop] at hloop
    split at hloop <;> simp at hloop

theorem steps_of_loop {m : Nat} (h : c.turn? p = some (.loop m)) :
    c.steps p = (c.onTo p).filter (·.IsOpen) ++ c.next (.inLoop p.source m) := by
  rw [steps, h]

theorem steps_of_ne (h : ∀ m, c.turn? p ≠ some (.loop m)) : c.steps p = c.next p := by
  rw [steps]
  split
  · exact (h _ ‹_›).elim
  · rfl

theorem next_of_turn? {r : Turn} (h : c.turn? p = some r) :
    c.next p = (r.into p ++ r.onTo p).filter (·.IsOpen) := by
  rw [next, into_of_turn? h, onTo_of_turn? h]

theorem count_next_le (hturn : ∀ m, c.turn? p ≠ some (.loop m))
    (ht : ∀ code ∈ c.blocks[p.source]?, c.mergeTarget? code ≠ some t) :
    ((c.next p).map (·.source)).count t ≤ (c.blocks[p.source]?.toList.flatMap c.branchTargets).count t := by
  cases hr : c.turn? p with
  | none => simp [next, into, onTo, hr]
  | some r =>
    obtain ⟨code, hcode, hturns⟩ := turns_of_turn? hr
    rw [next_of_turn? hr, hcode, Option.toList_some, flatMap_singleton]
    refine (((filter_sublist.map _).count_le t).trans ?_)
    cases hturns with
    | loop => exact (hturn _ hr).elim
    | branch _ htargets =>
      rw [htargets]
      simp only [Turn.into, Turn.onTo, nil_append]
      split <;> simp [Position.beside]
    | bypassTrue _ htargets | bypassFalse _ htargets =>
      rw [htargets]
      simp only [Turn.into, Turn.onTo, nil_append]
      split <;> simp [Position.beside, count_cons]
    | @fork _ _ m _ htargets _ hm =>
      have hne : m ≠ t := fun heq => ht code hcode (heq ▸ hm)
      rw [htargets]
      simp only [Turn.into, Turn.onTo]
      split <;> simp [Position.beside, Position.inArm, count_cons, hne]

theorem count_steps_le (ht : ∀ code ∈ c.blocks[p.source]?, c.mergeTarget? code ≠ some t) :
    ((c.steps p).map (·.source)).count t ≤ (c.blocks[p.source]?.toList.flatMap c.branchTargets).count t := by
  by_cases hloop : ∃ m, c.turn? p = some (.loop m)
  · obtain ⟨m, hturn⟩ := hloop
    obtain ⟨code, hcode, hturns⟩ := turns_of_turn? hturn
    have hne : m ≠ t := by
      rintro rfl
      cases hturns with
      | loop _ hm => exact ht code hcode hm
    have hbehind : (((c.onTo p).filter (·.IsOpen)).map (·.source)).count t = 0 := by
      refine Nat.le_zero.mp (((filter_sublist.map _).count_le t).trans ?_)
      simp [onTo_of_turn? hturn, Turn.onTo, Position.beside, hne]
    rw [steps_of_loop hturn, map_append, count_append, hbehind, Nat.zero_add]
    exact count_next_le (p := .inLoop p.source m) turn?_inLoop_ne ht
  · have hturn := fun m h => hloop ⟨m, h⟩
    rw [steps_of_ne hturn]
    exact count_next_le hturn ht

theorem Nests.nodup_ways (h : c.Nests f scopes) : (c.ways f scopes).Nodup := by
  rw [nodup_iff_count_le_one]
  intro t
  by_cases hmem : t ∈ c.ways f scopes
  swap
  · simp [count_eq_zero_of_not_mem hmem]
  by_cases hjoint : c.IsMerge f t ∨ c.IsHeader t ∨ f.blocks.head? = some t
  · exact h.joints t hmem hjoint
  -- any other block is come to by branches only, and at most one leads there
  simp only [not_or] at hjoint
  obtain ⟨hmerge, hheader, hhead⟩ := hjoint
  have hentry : f.blocks.head?.toList.count t = 0 := by
    refine count_eq_zero_of_not_mem fun ht => hhead (by simpa using ht)
  have hbranched : (c.branched f).count t ≤ 1 := by
    by_contra hlt
    have hlt := Nat.lt_of_not_le hlt
    have hmem : t ∈ c.branched f := count_pos_iff.mp (Nat.lt_trans Nat.zero_lt_one hlt)
    rcases h.branches t hmem hlt with h | h
    · exact hmerge h
    · exact hheader h
  rw [ways, count_append, hentry, Nat.zero_add]
  refine (count_flatMap_le fun s hs => ?_).trans hbranched
  exact count_steps_le fun code hcode hm => hmerge ⟨s, hs, code, hcode, hm⟩

end Context

namespace Context.Nests

variable {c : Context} {f : SourceFunction} {scopes : Nat → Scope} {entry s s' t : Nat} {p q : Position}
  (h : c.Nests f scopes)
include h

theorem not_leadsTo_entry (hentry : f.blocks.head? = some entry) (s : Nat) :
    ¬c.LeadsTo f scopes s entry := by
  rintro ⟨hs, ht⟩
  have honce := h.nodup_ways
  rw [ways, hentry] at honce
  grind

theorem nodup_steps (hs : s ∈ f.blocks) : ((c.steps ⟨s, scopes s⟩).map (·.source)).Nodup :=
  (nodup_flatMap.mp (nodup_append.mp h.nodup_ways).2.1).1 s hs

theorem unique (hs : c.LeadsTo f scopes s t) (hs' : c.LeadsTo f scopes s' t) : s = s' := by
  by_contra hne
  have hpairwise := (nodup_flatMap.mp (nodup_append.mp h.nodup_ways).2.1).2
  have : Std.Symm (Function.onFun List.Disjoint fun s => (c.steps ⟨s, scopes s⟩).map (·.source)) :=
    ⟨fun _ _ h _ ha ha' => h ha' ha⟩
  exact hpairwise.forall hs.1 hs'.1 hne hs.2 hs'.2

end Context.Nests

/-! ### Where a walk can be in a function whose blocks nest -/

/-- A walk from the first block of a function can be at a position: in the region of its block, or at the
header of a loop inside of the loop. -/
inductive Context.Standing (c : Context) (f : SourceFunction) (scopes : Nat → Scope) (entry : Nat) :
    Position → Prop
  | block {s} (hs : s ∈ f.blocks) (hreached : ReflTransGen (c.LeadsTo f scopes) entry s) :
      Standing c f scopes entry ⟨s, scopes s⟩
  | header {s m} (hs : s ∈ f.blocks) (hreached : ReflTransGen (c.LeadsTo f scopes) entry s)
      (hturn : c.turn? ⟨s, scopes s⟩ = some (.loop m)) : Standing c f scopes entry (.inLoop s m)

variable {d : Context} {t : Turn}

namespace Context

variable {c : Context} {f : SourceFunction} {scopes : Nat → Scope} {entry s m : Nat} {p q : Position}

namespace Standing

variable (h : c.Standing f scopes entry p)
include h

theorem source_mem : p.source ∈ f.blocks := by cases h <;> assumption

theorem reached : ReflTransGen (c.LeadsTo f scopes) entry p.source := by
  cases h <;> assumption

theorem steps_sublist : (c.steps p).Sublist (c.steps ⟨p.source, scopes p.source⟩) := by
  cases h with
  | block => exact .refl _
  | header _ _ hturn =>
    rw [steps_of_ne turn?_inLoop_ne, Position.inLoop, steps_of_loop hturn]
    exact sublist_append_right _ _

theorem leadsTo (hq : q ∈ c.steps p) : c.LeadsTo f scopes p.source q.source :=
  ⟨h.source_mem, mem_map_of_mem (h.steps_sublist.subset hq)⟩

theorem nodup (hn : c.Nests f scopes) : ((c.steps p).map (·.source)).Nodup :=
  (hn.nodup_steps h.source_mem).sublist (h.steps_sublist.map _)

protected theorem step (hn : c.Nests f scopes) (hq : q ∈ c.steps p) :
    c.Standing f scopes entry q := by
  obtain ⟨hmem, hscope⟩ := hn.inside p.source h.source_mem q (h.steps_sublist.subset hq)
  have hblock := Standing.block hmem (h.reached.tail (h.leadsTo hq))
  rwa [← hscope] at hblock

end Standing

/-! ### What a walk treads is reached through different blocks -/

/-- Some blocks are all different, and each is the one of a position or reached through certain ones. -/
structure Part (c : Context) (f : SourceFunction) (scopes : Nat → Scope) (p : Position)
    (used : List Position) (l : List Nat) : Prop where
  nodup : l.Nodup
  mem : ∀ t ∈ l, t = p.source ∨ ∃ q ∈ used, ReflTransGen (c.LeadsTo f scopes) q.source t

/-- Some blocks are trod at most once in a walk from a position. -/
structure Once (c : Context) (f : SourceFunction) (scopes : Nat → Scope) (p : Position) (l : List Nat) :
    Prop extends c.Part f scopes p (c.steps p) l where
  isOpen : l ≠ [] → p.IsOpen

variable {used : List Position} {l l' : List Nat}

theorem Once.nil : c.Once f scopes p [] := ⟨⟨.nil, by simp⟩, fun h => (h rfl).elim⟩

theorem Part.single : c.Part f scopes p [] [p.source] := ⟨by simp, by simp⟩

theorem Part.once (h : c.Part f scopes p used l) (hused : used ⊆ c.steps p) (hopen : p.IsOpen) :
    c.Once f scopes p l :=
  ⟨⟨h.nodup, fun t ht => (h.mem t ht).imp_right fun ⟨q, hq, hreach⟩ => ⟨q, hused hq, hreach⟩⟩, fun _ => hopen⟩

theorem Once.reached (h : c.Once f scopes p l) (hp : c.Standing f scopes entry p) :
    ∀ t ∈ l, ReflTransGen (c.LeadsTo f scopes) p.source t := by
  intro t ht
  rcases h.mem t ht with rfl | ⟨q, hq, hreach⟩
  · exact .refl
  · exact .head (hp.leadsTo hq) hreach

section Nests

variable (hn : c.Nests f scopes) (hentry : f.blocks.head? = some entry)

include hn hentry

section

variable (hp : c.Standing f scopes entry p)
include hp

theorem Part.extend (h : c.Part f scopes p used l)
    (hused : used ⊆ c.steps p) (hq : q ∈ c.steps p) (hne : ∀ r ∈ used, r.source ≠ q.source)
    (h' : c.Once f scopes q l') : c.Part f scopes p (used ++ [q]) (l ++ l') := by
  have hroot := hn.not_leadsTo_entry hentry
  have hunique : ∀ s s' t, c.LeadsTo f scopes s t → c.LeadsTo f scopes s' t → s = s' := fun _ _ _ => hn.unique
  have hreached := h'.reached (hp.step hn hq)
  refine ⟨nodup_append.mpr ⟨h.nodup, h'.nodup, ?_⟩, fun t ht => ?_⟩
  · rintro t ht _ ht' rfl
    rcases h.mem t ht with rfl | ⟨r, hr, hreach⟩
    · exact not_transGen_of_unique hroot hunique hp.reached (TransGen.head' (hp.leadsTo hq) (hreached _ ht'))
    · exact not_reached_of_unique hroot hunique hp.reached (hp.leadsTo (hused hr)) (hp.leadsTo hq)
        (hne r hr) hreach (hreached t ht')
  · rcases mem_append.mp ht with ht | ht
    · refine (h.mem t ht).imp_right fun ⟨r, hr, hreach⟩ => ⟨r, mem_append_left _ hr, hreach⟩
    · exact .inr ⟨q, by simp, hreached t ht⟩

theorem Once.loop (hturn : c.turn? p = some (.loop m))
    (h : c.Once f scopes (.inLoop p.source m) l) (h' : c.Once f scopes (p.beside m) l') :
    c.Once f scopes p (l ++ l') := by
  have hsteps := steps_of_loop hturn
  have hinside : c.steps (.inLoop p.source m) = c.next (.inLoop p.source m) := steps_of_ne turn?_inLoop_ne
  have hpart : c.Part f scopes p (c.next (.inLoop p.source m)) l := ⟨h.nodup, hinside ▸ h.mem⟩
  have hused : c.next (.inLoop p.source m) ⊆ c.steps p := by simp [hsteps]
  by_cases hnil : l' = []
  · rw [hnil, append_nil]
    exact hpart.once hused (isOpen_of_turn? hturn)
  · have hbehind : p.beside m ∈ (c.onTo p).filter (·.IsOpen) := by
      simpa [onTo_of_turn? hturn, Turn.onTo] using h'.isOpen hnil
    have hq : p.beside m ∈ c.steps p := by simp [hsteps, hbehind]
    have hnodup := hp.nodup hn
    rw [hsteps, map_append] at hnodup
    refine (hpart.extend hn hentry hp hused hq (fun r hr heq => ?_) h').once ?_ (isOpen_of_turn? hturn)
    · grind
    · exact append_subset.mpr ⟨hused, by simpa using hq⟩

theorem Part.of_sublist {y : List (Position × List Nat)}
    (hsub : (y.map (·.1)).Sublist (c.steps p)) (h : ∀ x ∈ y, c.Once f scopes x.1 x.2) :
    c.Part f scopes p (y.map (·.1)) (p.source :: y.flatMap (·.2)) := by
  induction y using List.reverseRecOn with
  | nil => exact .single
  | append_singleton y x ih =>
    rw [map_append] at hsub
    have hnodup := (hp.nodup hn).sublist (hsub.map _)
    have hsub' := (sublist_append_left _ _).trans hsub
    have hpart := ih hsub' fun y hy => h y (mem_append_left _ hy)
    have hq : x.1 ∈ c.steps p := hsub.subset (by simp)
    have hne : ∀ r ∈ y.map (·.1), r.source ≠ x.1.source := by
      grind
    simpa using hpart.extend hn hentry hp hsub'.subset hq hne (h x (by simp))

/-- From a block that opens no loop, different positions lead to different blocks. -/
theorem Once.of_sublist {y : List (Position × List Nat)}
    (hturn : c.turn? p = some t) (hloop : ∀ m, t ≠ .loop m)
    (hsub : (y.map (·.1)).Sublist (t.into p ++ t.onTo p)) (h : ∀ x ∈ y, c.Once f scopes x.1 x.2) :
    c.Once f scopes p (p.source :: y.flatMap (·.2)) := by
  -- only positions with blocks behind them matter, and those are open
  have hflatMap : y.flatMap (·.2) = (y.filter (·.2 ≠ [])).flatMap (·.2) := by
    clear hsub h
    induction y with
    | nil => rfl
    | cons x y ih =>
      grind
  have hopen : ∀ q ∈ (y.filter (·.2 ≠ [])).map (·.1), q.IsOpen := by
    intro q hq
    obtain ⟨x, hx, rfl⟩ := mem_map.mp hq
    obtain ⟨hx, hne⟩ := mem_filter.mp hx
    exact (h x hx).isOpen (by simpa using hne)
  have hsteps : c.steps p = (t.into p ++ t.onTo p).filter (·.IsOpen) := by
    rw [steps_of_ne fun m hm => hloop m (Option.some.inj (hturn.symm.trans hm)), next, into_of_turn? hturn,
      onTo_of_turn? hturn]
  have hsub' : ((y.filter (·.2 ≠ [])).map (·.1)).Sublist (c.steps p) := by
    rw [hsteps, ← filter_eq_self.mpr fun q hq => decide_eq_true (hopen q hq)]
    exact ((filter_sublist.map _).trans hsub).filter _
  rw [hflatMap]
  exact (Part.of_sublist hn hentry hp hsub' fun x hx => h x (mem_of_mem_filter hx)).once hsub'.subset
    (isOpen_of_turn? hturn)

theorem Once.on {t : Nat} (hturn : c.turn? p = some (.on t))
    (h : c.Once f scopes (p.beside t) l) (hstays : l ≠ [] → p.scope.Stays t) :
    c.Once f scopes p (p.source :: l) := by
  by_cases hnil : l = []
  · rw [hnil]
    exact Part.single.once (nil_subset _) (isOpen_of_turn? hturn)
  · have honce := Once.of_sublist (y := [(p.beside t, l)]) hn hentry hp hturn nofun
      (by simp [Turn.into, Turn.onTo, hstays hnil]) (by simpa using h)
    simpa using honce

theorem Once.fork {onTrue onFalse : Nat} {l₁ l₂ l₃ : List Nat}
    (hturn : c.turn? p = some (.fork onTrue onFalse m)) (h₁ : c.Once f scopes (p.inArm m onTrue) l₁)
    (h₂ : c.Once f scopes (p.inArm m onFalse) l₂) (h₃ : c.Once f scopes (p.beside m) l₃)
    (hstays : l₃ ≠ [] → p.scope.Stays m) : c.Once f scopes p (p.source :: (l₁ ++ l₂ ++ l₃)) := by
  by_cases hnil : l₃ = []
  · have honce := Once.of_sublist (y := [(p.inArm m onTrue, l₁), (p.inArm m onFalse, l₂)]) hn hentry hp hturn
      nofun (by simp [Turn.into]) (by simpa using ⟨h₁, h₂⟩)
    simpa [hnil] using honce
  · have honce := Once.of_sublist
      (y := [(p.inArm m onTrue, l₁), (p.inArm m onFalse, l₂), (p.beside m, l₃)]) hn hentry hp hturn nofun
      (by simp [Turn.into, Turn.onTo, hstays hnil]) (by simpa using ⟨h₁, h₂, h₃⟩)
    simpa using honce

end

/-! ### What a walk treads -/

omit hn hentry in
theorem mem_steps_of_onTo (hturn : c.turn? p = some t) (hq : q ∈ t.onTo p) (hopen : q.IsOpen) :
    q ∈ c.steps p := by
  have hmem : q ∈ (c.onTo p).filter (·.IsOpen) := by simpa [onTo_of_turn? hturn, hopen] using hq
  by_cases hloop : ∃ m, c.turn? p = some (.loop m)
  · obtain ⟨m, hm⟩ := hloop
    rw [steps_of_loop hm]
    exact mem_append_left _ hmem
  · rw [steps_of_ne fun m hm => hloop ⟨m, hm⟩, next, filter_append]
    exact mem_append_right _ hmem

omit hn hentry in
theorem mem_steps_of_into (hturn : c.turn? p = some t) (hloop : ∀ m, t ≠ .loop m)
    (hq : q ∈ t.into p) (hopen : q.IsOpen) : q ∈ c.steps p := by
  rw [steps_of_ne fun m hm => hloop m (Option.some.inj (hturn.symm.trans hm)), next_of_turn? hturn]
  simp [hq, hopen]

omit hentry in
theorem Standing.onTo (h : c.Standing f scopes entry p) (hturn : c.turn? p = some t)
    (hq : q ∈ t.onTo p) (hopen : q.IsOpen) : c.Standing f scopes entry q :=
  h.step hn (mem_steps_of_onTo hturn hq hopen)

omit hentry in
theorem Standing.into (h : c.Standing f scopes entry p) (hturn : c.turn? p = some t)
    (hq : q ∈ t.into p) (hopen : q.IsOpen) : c.Standing f scopes entry q := by
  by_cases hloop : ∃ m, t = .loop m
  · obtain ⟨m, rfl⟩ := hloop
    obtain rfl := mem_singleton.mp hq
    cases h with
    | block hs hreached => exact .header hs hreached hturn
    | header => exact (turn?_inLoop_ne m hturn).elim
  · exact h.step hn (mem_steps_of_into hturn (fun m hm => hloop ⟨m, hm⟩) hq hopen)

theorem once_of_treads (h : Structure.Treads c p l) (hp : p.IsOpen → c.Standing f scopes entry p) :
    c.Once f scopes p l := by
  induction h with
  | stop => exact .nil
  | @loop _ _ _ _ hturn _ _ ihbody ihrest =>
    have hp := hp (isOpen_of_turn? hturn)
    apply Once.loop hn hentry hp hturn
    · exact ihbody fun hopen => hp.into hn hturn (by simp [Turn.into]) hopen
    · exact ihrest fun hopen => hp.onTo hn hturn (by simp [Turn.onTo]) hopen
  | @on p t l hturn _ hleft ih =>
    have hp := hp (isOpen_of_turn? hturn)
    by_cases hstays : p.scope.Stays t
    · refine .on hn hentry hp hturn (ih hstays fun hopen => ?_) fun _ => hstays
      exact hp.onTo hn hturn (by simp [Turn.onTo, hstays]) hopen
    · rw [hleft hstays]
      exact .on hn hentry hp hturn .nil fun h => (h rfl).elim
  | @fork p _ _ m _ _ _ hturn _ _ _ hleft ihtrue ihfalse ihrest =>
    have hp := hp (isOpen_of_turn? hturn)
    have htrue := ihtrue fun hopen => hp.into hn hturn (by simp [Turn.into]) hopen
    have hfalse := ihfalse fun hopen => hp.into hn hturn (by simp [Turn.into]) hopen
    by_cases hstays : p.scope.Stays m
    · refine .fork hn hentry hp hturn htrue hfalse (ihrest hstays fun hopen => ?_) fun _ => hstays
      exact hp.onTo hn hturn (by simp [Turn.onTo, hstays]) hopen
    · rw [hleft hstays]
      exact .fork hn hentry hp hturn htrue hfalse .nil fun h => (h rfl).elim
  | leave hstop => exact Part.single.once (nil_subset _) hstop

omit hentry in
theorem Standing.mem_of_reached (h : c.Standing f scopes entry p)
    (hreach : ReflTransGen (c.LeadsTo f scopes) p.source s) : s ∈ f.blocks := by
  rcases hreach.cases_tail with rfl | ⟨a, -, ha, hs⟩
  · exact h.source_mem
  · obtain ⟨q, hq, rfl⟩ := mem_map.mp hs
    exact (hn.inside a ha q hq).1

end Nests

/-- The ids of the results of the instructions of a block that are carried out. -/
def resultsAt (c : Context) (s : Nat) : List Id := c.blocks[s]?.toList.flatMap (·.results)

end Context

namespace Structure

variable {c c' : Context} {f : SourceFunction} {scopes : Nat → Scope} {entry : Nat} {e : Error}
  {k k' : Call} {log : List Emission} {l : List Nat}

/-! ### Walks that are asked for -/

section Nests

variable (hn : c.Nests f scopes) (hentry : f.blocks.head? = some entry)

include hn hentry

theorem Walks.once {block : BlockId} {source : Nat} {before : Option Nat} {scope : Scope}
    {d' : Context} {region : Region} (h : Walks block source before scope d region d' log)
    (hd : Carries c d)
    (hp : Position.IsOpen ⟨source, scope⟩ → c.Standing f scopes entry ⟨source, scope⟩) :
    c.Once f scopes ⟨source, scope⟩ (log.map (·.source)) := by
  by_cases hnil : log = []
  · rw [hnil]
    exact .nil
  · exact Context.once_of_treads hn hentry (h.treads (fun h => (hnil h).elim) hd) hp

namespace Call

omit hentry in
theorem Asks.standing (h : k.Asks k' log) (hk : Carries c k.state)
    (hp : c.Standing f scopes entry k.position) (hopen : k'.position.IsOpen) :
    c.Standing f scopes entry k'.position := by
  have hmoves := h.moves
  simp only [Context.into, Context.onTo, hk.turn?_eq] at hmoves
  rcases hmoves with ⟨hinto, -⟩ | ⟨honTo, -⟩
  · obtain ⟨t, ht, hq⟩ := mem_flatMap.mp hinto
    exact hp.into hn (Option.mem_toList.mp ht) hq hopen
  · obtain ⟨t, ht, hq⟩ := mem_flatMap.mp honTo
    exact hp.onTo hn (Option.mem_toList.mp ht) hq hopen

theorem Asks.once (h : k.Asks k' log) (hk : Carries c k.state)
    (hp : c.Standing f scopes entry k.position) (h' : c.Once f scopes k'.position l) :
    c.Once f scopes k.position (log.map (·.source) ++ l) := by
  cases h with
  | body hopens =>
    have hturn := (hk.turn?_eq _).symm.trans hopens.turn?
    simpa using Context.Once.loop hn hentry hp hturn h' .nil
  | behind hopens hbody =>
    have hturn := (hk.turn?_eq _).symm.trans hopens.turn?
    have hasks := Asks.body hopens
    have hbody := hbody.once hn hentry (hk.trans hasks.carries) (hasks.standing hn hk hp)
    exact .loop hn hentry hp hturn hbody h'
  | branch hmakes hop hlabel htarget hstays =>
    have hturn := (hk.turn?_eq _).symm.trans (hmakes.turn?_of_branch hop hlabel htarget)
    exact .on hn hentry hp hturn h' fun _ => hstays
  | bypass hforks hbypasses hstays =>
    have hturn := (hk.turn?_eq _).symm.trans (hforks.turn?_of_bypasses hbypasses)
    exact .on hn hentry hp hturn h' fun _ => hstays
  | trueArm hselects =>
    have hturn := (hk.turn?_eq _).symm.trans hselects.turn?
    have honce := Context.Once.fork hn hentry hp hturn h' .nil .nil fun h => (h rfl).elim
    simpa [emission, position] using honce
  | falseArm hselects htrue =>
    have hturn := (hk.turn?_eq _).symm.trans hselects.turn?
    have hasks := Asks.trueArm hselects
    have htrue := htrue.once hn hentry (hk.trans hasks.carries) (hasks.standing hn hk hp)
    have honce := Context.Once.fork hn hentry hp hturn htrue h' .nil fun h => (h rfl).elim
    simpa [emission, position] using honce
  | join hselects htrue hfalse hstays =>
    have hturn := (hk.turn?_eq _).symm.trans hselects.turn?
    have hasks := Asks.trueArm hselects
    have hasks' := Asks.falseArm hselects htrue
    have htrue := htrue.once hn hentry (hk.trans hasks.carries) (hasks.standing hn hk hp)
    have hfalse := hfalse.once hn hentry (hk.trans hasks'.carries) (hasks'.standing hn hk hp)
    have honce := Context.Once.fork hn hentry hp hturn htrue hfalse h' fun _ => hstays
    simpa [emission, position] using honce

end Call

end Nests

/-! ### Walks that fail -/

theorem Walks.code {block : BlockId} {source : Nat} {before : Option Nat} {scope : Scope}
    {d' : Context} {region : Region} (h : Walks block source before scope d region d' log) :
    ∀ x ∈ log, d.blocks[x.source]? = some x.code := by
  intro x hx
  obtain ⟨hmade, hbefore, -⟩ := h.logged.made x hx
  rw [← hbefore.continues.blocks]
  exact hmade.code

namespace Call

theorem Asks.code (h : k.Asks k' log) : ∀ x ∈ log, k.state.blocks[x.source]? = some x.code := by
  cases h with
  | body => simp
  | behind _ hbody => exact hbody.code
  | branch hmakes => simpa [emission] using hmakes.found
  | bypass hforks => simpa [emission] using hforks.found
  | trueArm hselects => simpa [emission] using hselects.found
  | falseArm hselects htrue =>
    have hblocks := (Asks.trueArm hselects).carries.blocks
    intro x hx
    rcases mem_cons.mp hx with rfl | hx
    · exact hselects.found
    · exact hblocks ▸ htrue.code x hx
  | join hselects htrue hfalse =>
    have hblocks := (Asks.trueArm hselects).carries.blocks
    have hblocks' := (Asks.falseArm hselects htrue).carries.blocks
    intro x hx
    rcases mem_cons.mp hx with rfl | hx
    · exact hselects.found
    · rcases mem_append.mp hx with hx | hx
      · exact hblocks ▸ htrue.code x hx
      · exact hblocks' ▸ hfalse.code x hx

/-- How far a walk got that failed: code was made of certain blocks, of each once, and if an id was found to
be defined twice, it is a result of that code. -/
structure Trod (c : Context) (f : SourceFunction) (scopes : Nat → Scope) (k : Call) (e : Error)
    (c' : Context) (made : List (Nat × BlockId)) : Prop where
  placed : c'.placed = made.reverse ++ k.state.placed
  once : c.Once f scopes k.position (made.map (·.1))
  fails : k.state.Fails (made.flatMap fun x => c.resultsAt x.1) e c'

end Call

end Structure

theorem Context.Fails.of_still {results : List Id} {c c' : Context} {e : Error}
    (h : c.Learns results d) (hstill : d.Still c') (he : e.redefined? = none) :
    c.Fails results e c' :=
  ⟨results, prefix_rfl, h.congr rfl hstill.ids, fun id hid => by simp [he] at hid⟩

theorem Context.Learns.fails {l results : List Id} {c c' : Context} {e : Error} (h : c.Learns l d)
    (hfails : d.Fails results e c') : c.Fails (l ++ results) e c' := by
  obtain ⟨l', hl', hlearns, hid⟩ := hfails.learns
  refine ⟨l ++ l', (prefix_append_right_inj _).mpr hl', h.trans hlearns, fun id hsome => ?_⟩
  simp_all

namespace Structure.Call

variable {c c' : Context} {f : SourceFunction} {scopes : Nat → Scope} {entry : Nat} {e : Error}
  {k k' : Call} {log : List Emission} {made : List (Nat × BlockId)}

theorem Enters.resultsAt_eq {code : SourceBlock} (h : k.Enters code) (hk : Carries c k.state) :
    c.resultsAt k.source = code.results := by
  have hcode : c.blocks[k.source]? = some code := hk.blocks ▸ h.found
  simp [Context.resultsAt, hcode]

theorem Asks.learns_resultsAt (h : k.Asks k' log) (hk : Carries c k.state) :
    k.state.Learns ((log.map Emission.entry).flatMap fun x => c.resultsAt x.1) k'.state := by
  have hresults : (log.map Emission.entry).flatMap (fun x => c.resultsAt x.1) = log.flatMap (·.code.results) := by
    rw [flatMap_map]
    refine flatMap_congr fun x hx => ?_
    have hcode : c.blocks[x.source]? = some x.code := hk.blocks ▸ h.code x hx
    simp [Context.resultsAt, Emission.entry, hcode]
  rw [hresults]
  exact h.learns

theorem Asks.trod (h : k.Asks k' log) (hn : c.Nests f scopes) (hentry : f.blocks.head? = some entry)
    (hk : Carries c k.state) (hp : c.Standing f scopes entry k.position)
    (h' : k'.Trod c f scopes e c' made) : k.Trod c f scopes e c' (log.map Emission.entry ++ made) where
  placed := by rw [h'.placed, h.placed, reverse_append, append_assoc]
  once := by
    have honce := h.once hn hentry hk hp h'.once
    simpa [Emission.entry, Function.comp_def] using honce
  fails := by
    rw [flatMap_append]
    exact (h.learns_resultsAt hk).fails h'.fails

theorem exists_trod (hn : c.Nests f scopes) (hentry : f.blocks.head? = some entry) (n : Nat)
    (hk : Carries c k.state) (hp : k.position.IsOpen → c.Standing f scopes entry k.position)
    (h : (walkFrom n).answer k = .error e c') : ∃ made, k.Trod c f scopes e c' made := by
  induction n generalizing k with
  | zero =>
    cases h
    exact ⟨[], rfl, .nil, .of_still (.of_ids rfl) (.refl _) rfl⟩
  | succ n ih =>
    cases breaks_of_answer (walkFrom_sound n) h with
    | before hstill he => exact ⟨[], hstill.placed, .nil, .of_still (.of_ids rfl) hstill he⟩
    | within henters _ hemit =>
      obtain ⟨hfails, hplaced⟩ := fails_of_emitBody hemit
      refine ⟨[(k.source, k.block)], hplaced, ?_, ?_⟩
      · exact Context.Part.single.once (nil_subset _) henters.stop
      · simpa [henters.resultsAt_eq hk] using hfails
    | behind hmakes hstill he =>
      refine ⟨[(k.source, k.block)], hstill.placed.trans (placed_of_emitBody hmakes.emit), ?_, ?_⟩
      · exact Context.Part.single.once (nil_subset _) hmakes.stop
      · simpa [hmakes.resultsAt_eq hk] using Context.Fails.of_still hmakes.learns hstill he
    | asked hasks hanswer =>
      obtain ⟨code, henters⟩ := hasks.enters
      have hp := hp henters.stop
      obtain ⟨made, hmade⟩ := ih (hk.trans hasks.carries) (hasks.standing hn hk hp) hanswer
      exact ⟨_, hasks.trod hn hentry hk hp hmade⟩

end Structure.Call

/-! ### The walk of a function -/

/-- Between two states, code of blocks of a function was made, of each at most once. -/
def Context.MakesOnce (f : SourceFunction) (c c' : Context) : Prop :=
  ∃ made : List (Nat × BlockId), c'.placed = made ++ c.placed ∧ (made.map (·.1)).Nodup ∧
    ∀ s ∈ made.map (·.1), s ∈ f.blocks

namespace Context.Once

variable {c d d' : Context} {f : SourceFunction} {scopes : Nat → Scope} {entry : Nat} {p : Position}
  {made : List (Nat × BlockId)}

theorem mem_blocks (h : c.Once f scopes p (made.map (·.1))) (hn : c.Nests f scopes)
    (hp : c.Standing f scopes entry p) : ∀ s ∈ made.map (·.1), s ∈ f.blocks :=
  fun s hs => hp.mem_of_reached hn (h.reached hp s hs)

theorem makesOnce (h : c.Once f scopes p (made.map (·.1))) (hn : c.Nests f scopes)
    (hp : c.Standing f scopes entry p) (hplaced : d'.placed = made.reverse ++ d.placed) :
    d.MakesOnce f d' := by
  refine ⟨made.reverse, hplaced, ?_, fun s hs => ?_⟩
  · rw [map_reverse]
    exact nodup_reverse.mpr h.nodup
  · rw [map_reverse, mem_reverse] at hs
    exact h.mem_blocks hn hp s hs

end Context.Once

/-- A walk that fails because an id is defined twice, in a function whose blocks nest, has found one that
had a meaning before or that two instructions of the function define. -/
theorem Structure.Call.Trod.knows_or_count {c c' : Context} {f : SourceFunction} {scopes : Nat → Scope}
    {entry : Nat} {k : Call} {e : Error} {made : List (Nat × BlockId)} (h : k.Trod c f scopes e c' made)
    (hn : c.Nests f scopes) (hp : c.Standing f scopes entry k.position) {id : Id}
    (hid : e.redefined? = some id) :
    k.state.Knows id ∨ 1 < (f.blocks.flatMap c.resultsAt).count id := by
  obtain ⟨l, -, hlearns, hredefined⟩ := h.fails.learns
  obtain ⟨hl, hknows⟩ := hredefined id hid
  refine ((hlearns.knows id).mp hknows).imp_right fun hmem => ?_
  -- the id is among the results of what was made for the second time
  have htwice : 1 < (l ++ [id]).count id := by
    simp_all
  obtain ⟨blocks, hperm, hsub⟩ := h.once.nodup.subperm (h.once.mem_blocks hn hp)
  calc 1 < (l ++ [id]).count id := htwice
    _ ≤ (made.flatMap fun x => c.resultsAt x.1).count id := hl.sublist.count_le id
    _ = ((made.map (·.1)).flatMap c.resultsAt).count id := by rw [flatMap_map]
    _ = (blocks.flatMap c.resultsAt).count id := (hperm.flatMap_right _).symm.count_eq id
    _ ≤ (f.blocks.flatMap c.resultsAt).count id := (hsub.flatMap _).count_le id

open Structure in
/-- Whatever comes of the walk of a function whose blocks nest, it makes the code of every block at most once.
So it finds no id to be defined twice that had no meaning before and that one instruction defines. -/
theorem code_made_once {options : Options} {words : List Word} {c d : Context} {index entry : Nat}
    {f : SourceFunction} {scopes : Nat → Scope} (houtline : outline? options words = some c)
    (hstart : start? options words index = some (entry, d)) (hf : c.functions[index]? = some f)
    (hnests : c.Nests f scopes) :
    (∀ region d', Structure.walk entry d = .ok region d' → d.MakesOnce f d') ∧
    ∀ e d', Structure.walk entry d = .error e d' → d.MakesOnce f d' ∧
      ∀ id, e = .idRedefined id → d.Knows id ∨ 1 < (f.blocks.flatMap c.resultsAt).count id := by
  have hstarts := starts_of_start? houtline hstart
  obtain ⟨g, hg, hentry⟩ := hstarts.entry
  obtain rfl : g = f := Option.some.inj (hg.symm.trans hf)
  have hp : c.Standing g scopes entry ⟨entry, {}⟩ := by
    have hblock : c.Standing g scopes entry ⟨entry, scopes entry⟩ := .block (List.mem_of_head? hentry) .refl
    rwa [hnests.entry entry hentry] at hblock
  constructor
  · intro region d' hwalk
    obtain ⟨log, -, hwalks⟩ := walks_of_walk hwalk
    have honce := hwalks.once hnests hentry hstarts.carries fun _ => hp
    have hmade : log.map (·.source) = (log.map Emission.entry).map (·.1) := by simp [Emission.entry]
    rw [hmade] at honce
    exact honce.makesOnce hnests hp hwalks.placed
  · intro e d' hwalk
    obtain ⟨made, htrod⟩ := Call.exists_trod (k := ⟨0, entry, none, [], {}, d⟩) hnests hentry
      (walkBound d.blocks.size) hstarts.carries (fun _ => hp) hwalk
    refine ⟨htrod.once.makesOnce hnests hp htrod.placed, ?_⟩
    rintro id rfl
    exact htrod.knows_or_count hnests hp rfl

/-- A loop around a selection: its header may leave the loop, and the selection comes together before the
block that goes back. -/
def nestedSelection : List Word := [0x07230203, 99, 0, 15, 0,
   0x00020013, 1, 0x00020014, 2, 0x00030021, 3, 1, 0x00030029, 2, 4,
   0x00050036, 1, 5, 0, 3,
   0x000200f8, 6, 0x000200f9, 7,
   0x000200f8, 7, 0x000400f6, 12, 11, 0, 0x000400fa, 4, 8, 12,
   0x000200f8, 8, 0x000300f7, 10, 0, 0x000400fa, 4, 9, 10,
   0x000200f8, 9, 0x000200f9, 10,
   0x000200f8, 10, 0x00030001, 2, 13, 0x000200f9, 11,
   0x000200f8, 11, 0x00030001, 2, 14, 0x000200f9, 7,
   0x000200f8, 12, 0x000100fd, 0x00010038]

/-- The regions of the blocks of `nestedSelection`. -/
def nestedScopes (s : Nat) : Scope :=
  match s with
  | 0 | 1 | 6 => {}
  | 3 => { breakTo := some 6, continueTo := some 1, stop := some 4 }
  | _ => { breakTo := some 6, continueTo := some 1 }

theorem code_made_once_nestedSelection :
    ∃ c entry d f, outline? {} nestedSelection = some c ∧ start? {} nestedSelection 0 = some (entry, d) ∧
      c.functions[0]? = some f ∧ c.Nests f nestedScopes ∧
      (∀ region d', Structure.walk entry d = .ok region d' → d.MakesOnce f d') ∧
      ∀ e d', Structure.walk entry d = .error e d' → d.MakesOnce f d' ∧
        ∀ id, e = .idRedefined id → d.Knows id ∨ 1 < (f.blocks.flatMap c.resultsAt).count id := by
  obtain ⟨c, houtline⟩ := Option.isSome_iff_exists.mp
    (show (outline? {} nestedSelection).isSome by decide +kernel)
  obtain ⟨⟨entry, d⟩, hstart⟩ := Option.isSome_iff_exists.mp
    (show (start? {} nestedSelection 0).isSome by decide +kernel)
  have hfunction : ∀ c ∈ outline? {} nestedSelection, c.functions[0]?.isSome := by decide +kernel
  obtain ⟨f, hf⟩ := Option.isSome_iff_exists.mp (hfunction c houtline)
  have hnests : ∀ c ∈ outline? {} nestedSelection, ∀ f ∈ c.functions[0]?, c.Nests f nestedScopes := by
    decide +kernel
  have hnests := hnests c houtline f hf
  exact ⟨c, entry, d, f, houtline, hstart, hf, hnests, code_made_once houtline hstart hf hnests⟩

/-- A block is named as the continue target of a loop of a function. -/
def Context.IsContinueTarget (c : Context) (f : SourceFunction) (t : Nat) : Prop :=
  ∃ s ∈ f.blocks, ∃ code ∈ c.blocks[s]?, ∃ targets ∈ code.loop? {} s, (c.ids.block targets.2).toOption = some t

instance (c : Context) (f : SourceFunction) (t : Nat) : Decidable (c.IsContinueTarget f t) :=
  inferInstanceAs (Decidable (∃ s ∈ f.blocks, _))

/-- A loop around a selection: one arm and the block behind the selection both branch to the continue
target of the loop. -/
def sharedContinue : List Word := [0x07230203, 99, 0, 15, 0,
   0x00020013, 1, 0x00020014, 2, 0x00030021, 3, 1, 0x00030029, 2, 4,
   0x00050036, 1, 5, 0, 3,
   0x000200f8, 6, 0x000200f9, 7,
   0x000200f8, 7, 0x000400f6, 12, 11, 0, 0x000400fa, 4, 8, 12,
   0x000200f8, 8, 0x000300f7, 10, 0, 0x000400fa, 4, 9, 10,
   0x000200f8, 9, 0x000200f9, 11,
   0x000200f8, 10, 0x00030001, 2, 13, 0x000200f9, 11,
   0x000200f8, 11, 0x00030001, 2, 14, 0x000200f9, 7,
   0x000200f8, 12, 0x000100fd, 0x00010038]

/-- The failure of a walk, with what was made until then. -/
def Structure.failure? (entry : Nat) (d : Context) : Option (Error × Context) :=
  match walk entry d with
  | .ok .. => none
  | .error e d' => some (e, d')

theorem Structure.walk_eq_error_of_failure? {entry : Nat} {d' : Context} {e : Error}
    (h : failure? entry d = some (e, d')) : walk entry d = .error e d' := by
  unfold failure? at h
  split at h
  · cases h
  · cases h
    assumption

/-- Code is made twice of a continue target that two branches lead to, and an id that one instruction defines
is then found to be defined twice. -/
theorem sharedContinue_made_twice :
    ∃ c entry d f, outline? {} sharedContinue = some c ∧ start? {} sharedContinue 0 = some (entry, d) ∧
      c.functions[0]? = some f ∧
      (∀ t ∈ c.branched f, 1 < (c.branched f).count t → c.IsMerge f t ∨ c.IsHeader t ∨ c.IsContinueTarget f t) ∧
      (∀ s ∈ f.blocks, ∀ code ∈ c.blocks[s]?, (c.branchTargets code).Nodup) ∧
      (f.blocks.flatMap c.resultsAt).Nodup ∧
      ∃ d', Structure.walk entry d = .error (.idRedefined 14) d' ∧ ¬d.Knows 14 ∧
        ∃ s, c.IsContinueTarget f s ∧ d'.placed.countP (·.1 = s) = 2 := by
  obtain ⟨c, houtline⟩ := Option.isSome_iff_exists.mp (show (outline? {} sharedContinue).isSome by decide +kernel)
  obtain ⟨⟨entry, d⟩, hstart⟩ := Option.isSome_iff_exists.mp
    (show (start? {} sharedContinue 0).isSome by decide +kernel)
  have hfunction : ∀ c ∈ outline? {} sharedContinue, c.functions[0]?.isSome := by decide +kernel
  obtain ⟨f, hf⟩ := Option.isSome_iff_exists.mp (hfunction c houtline)
  have hsource : ∀ c ∈ outline? {} sharedContinue, ∀ f ∈ c.functions[0]?,
      (∀ t ∈ c.branched f, 1 < (c.branched f).count t → c.IsMerge f t ∨ c.IsHeader t ∨ c.IsContinueTarget f t) ∧
      (∀ s ∈ f.blocks, ∀ code ∈ c.blocks[s]?, (c.branchTargets code).Nodup) ∧
      (f.blocks.flatMap c.resultsAt).Nodup ∧ c.IsContinueTarget f 5 := by decide +kernel
  have hwalk : ∀ x ∈ start? {} sharedContinue 0, (x.2.ids.get 14).toOption = none ∧
      ∃ y ∈ Structure.failure? x.1 x.2, y.1 = .idRedefined 14 ∧ y.2.placed.countP (·.1 = 5) = 2 := by
    decide +kernel
  obtain ⟨hbranches, htargets, hresults, htarget⟩ := hsource c houtline f hf
  obtain ⟨hfresh, ⟨_, d'⟩, hfailure, rfl, hcount⟩ := hwalk _ hstart
  refine ⟨c, entry, d, f, houtline, hstart, hf, hbranches, htargets, hresults, d',
    Structure.walk_eq_error_of_failure? hfailure, ?_, 5, htarget, hcount⟩
  rintro ⟨v, hv⟩
  rw [hv] at hfresh
  cases hfresh

end ShaderIR.Spirv
