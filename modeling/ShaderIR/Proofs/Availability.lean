import Mathlib.Data.Finset.Card
import ShaderIR.Proofs.Matching

/-!
# Values that can be had

The value of an id that stands for a tree or a constant can always be had. So the sources of a phi can
be filled in if every block that is asked for its value has one listed or has predecessors: each block
is asked once for a phi of its own, and there are only so many blocks.
-/

namespace ShaderIR

open EStateM List

namespace Spirv

/-! ### Trees -/

namespace Emit

variable {spot : Spot} {c : Context}

theorem exists_constantTreeWithin {depth : Nat} {k : ConstantId} (h : c.Grounded)
    (hk : k < c.module.constants.size) (hdepth : k < depth) :
    ∃ t c', constantTreeWithin depth k spot c = .ok t c' := by
  induction depth generalizing c k with
  | zero => exact absurd hdepth (Nat.not_lt_zero k)
  | succ depth ih =>
    rw [constantTreeWithin, lift_of_ok (constant_eq_ok.mpr ⟨rfl, rfl⟩)]
    cases hvalue : (c.constantAt k).value with
    | composite children =>
      simp only
      -- children come before the constant
      have hchild : ∀ child ∈ children, ∀ d, (∃ is, Inserts spot is c d) →
          ∃ t d', constantTreeWithin depth child spot d = .ok t d' ∧ ∃ is, Inserts spot is c d' := by
        rintro child hchild d ⟨is, hd⟩
        have hlt := h.children k _ children (Context.getElem?_constantAt hk) hvalue child hchild
        obtain ⟨t, d', ht⟩ := ih (h.of_inserts hd) (by rw [hd.constants]; exact Nat.lt_trans hlt hk)
          (Nat.lt_of_lt_of_le hlt (Nat.le_of_lt_succ hdepth))
        obtain ⟨words, hplants, -⟩ := plants_constantTreeWithin ht
        exact ⟨t, d', ht, _, hd.trans hplants.inserts⟩
      obtain ⟨ts, d, hts, -⟩ := exists_mapM hchild ⟨[], .refl spot c⟩
      rw [← mapM_at] at hts
      exact ⟨_, _, (bind_of_ok hts).trans rfl⟩
    | flat bits =>
      simp only
      rw [lift_of_ok (Lower.shape_eq_ok.mpr ⟨rfl, rfl⟩)]
      cases hs : (c.module.types.shape? (c.constantAt k).ty).getD .void with
      | matrix columns rows scalar =>
        have hs : c.module.types.shape? (c.constantAt k).ty = some (.matrix columns rows scalar) := by
          cases hshape : c.module.types.shape? (c.constantAt k).ty with
          | none => simp [hshape] at hs
          | some s => simpa [hshape] using hs
        simp only
        rw [lift_of_ok (Lower.childType_of_child? (Types.child?_matrix hs 0))]
        obtain ⟨ts, d, hts, -⟩ := exists_mapM (I := fun _ => True)
          (f := fun column => (do Lower.leaf _ (← loadConst column) : Emit Tree) spot)
          (l := pieces rows.lanes columns.lanes bits) (fun column _ d _ => ⟨_, _, rfl, trivial⟩) trivial
        rw [← mapM_at] at hts
        exact ⟨_, _, (bind_of_ok hts).trans rfl⟩
      | _ => exact ⟨_, _, rfl⟩

theorem exists_treeOf {id : Id} (h : c.Grounded)
    (hid : (∃ t, c.ids.get id = .ok (.tree t)) ∨ ∃ k, c.ids.get id = .ok (.constant k)) :
    ∃ t c', treeOf id spot c = .ok t c' := by
  unfold treeOf
  rcases hid with ⟨t, hget⟩ | ⟨k, hget⟩
  · rw [lift_of_ok (Lower.lookup_eq_ok.mpr ⟨hget, rfl⟩)]
    exact ⟨t, c, rfl⟩
  · rw [lift_of_ok (Lower.lookup_eq_ok.mpr ⟨hget, rfl⟩)]
    have hk := h.ids id k hget
    obtain ⟨t, c', ht⟩ : ∃ t c', constantTreeWithin _ k spot c = .ok t c' :=
      exists_constantTreeWithin h hk (Nat.lt_succ_of_lt hk)
    exact ⟨t, c', getBind_eq_ok.mpr ht⟩

end Emit

/-! ### Sources -/

/-- An id stands for a value. -/
def IdTable.HasValue (ids : IdTable) (id : Id) : Prop :=
  ∃ v ∈ (ids.get id).toOption, v.kind = .value ∨ v.kind = .constant

instance (ids : IdTable) (id : Id) : Decidable (ids.HasValue id) := inferInstanceAs (Decidable (∃ v ∈ _, _))

theorem IdTable.HasValue.get {ids : IdTable} {id : Id} (h : ids.HasValue id) :
    (∃ t, ids.get id = .ok (.tree t)) ∨ ∃ k, ids.get id = .ok (.constant k) := by
  obtain ⟨v, hget, hkind⟩ := h
  cases hid : ids.get id with
  | error e => simp [hid, Except.toOption] at hget
  | ok w =>
    obtain rfl : w = v := by simpa [hid, Except.toOption] using hget
    cases w with
    | tree t => exact .inl ⟨t, rfl⟩
    | constant k => exact .inr ⟨k, rfl⟩
    | _ => simp [Value.kind] at hkind

namespace PhiSources

/-- The blocks that are asked for the value of a phi in `block`: its predecessors, and those of blocks
that no value is listed for. -/
inductive Asked (c : Context) (pairs : List (Id × Id)) (block : BlockId) : BlockId → Prop
  | pred {p} (hp : p ∈ c.function.preds block) : Asked c pairs block p
  | back {p q} (hq : Asked c pairs block q) (hlisted : c.listed? pairs q = none)
      (hp : p ∈ c.function.preds q) : Asked c pairs block p

/-- Every block that is asked for the value of a phi can answer: a value is listed for it, or other
blocks lead there. -/
structure Answers (c : Context) (pairs : List (Id × Id)) (block : BlockId) : Prop where
  lt : ∀ p, Asked c pairs block p → p < c.function.blocks.size
  value : ∀ p, Asked c pairs block p → ∀ value ∈ c.listed? pairs p, c.ids.HasValue value
  preds : ∀ p, Asked c pairs block p → c.listed? pairs p = none → c.function.preds p ≠ []

/-- How many of the first `n` blocks have no phi of their own yet. -/
def unmade (n : Nat) (made : Made) : Nat := ((Finset.range n).filter (made.lookup · = none)).card

variable {made made' : Made} {n : Nat}

theorem unmade_le_self (n : Nat) (made : Made) : unmade n made ≤ n := by
  simpa [unmade] using Finset.card_filter_le (Finset.range n) (made.lookup · = none)

theorem unmade_le (h : ∀ b, made'.lookup b = none → made.lookup b = none) : unmade n made' ≤ unmade n made := by
  apply Finset.card_le_card
  grind

theorem unmade_cons_lt {b : BlockId} (phi : Tree) (hb : b < n) (h : made.lookup b = none) :
    unmade n ((b, phi) :: made) < unmade n made := by
  apply Finset.card_lt_card
  rw [Finset.ssubset_iff_of_subset]
  · exact ⟨b, by simp [hb, h], by simp⟩
  grind

section Progress

variable {c₀ c : Context} {pairs : List (Id × Id)} {ty : TypeId} {block : BlockId}

/-- A state that filling in phis can lead to, with phis for as many blocks at least. -/
structure Reached (c₀ : Context) (made made' : Made) (c : Context) : Prop where
  settles : Settles c₀ c
  made : ∀ b, made'.lookup b = none → made.lookup b = none

/-- A phi can be filled in with what can be found at the ends of some blocks. -/
theorem exists_fill {find : BlockId → Made → Lower (Tree × Made)} {preds : List BlockId}
    (hfind : ∀ p ∈ preds, ∀ made' c, Reached c₀ made made' c →
      ∃ t made'' c', find p made' c = .ok (t, made'') c' ∧ Reached c₀ made' made'' c')
    (phi : Tree) (hs : Settles c₀ c) :
    ∃ made' c', fill find phi preds made c = .ok made' c' ∧ Reached c₀ made made' c' := by
  refine exists_foldlM (I := Reached c₀ made) ?_ ⟨hs, fun _ h => h⟩
  intro p hp made₁ c₁ h₁
  obtain ⟨t, made₂, c₂, hfound, h₂⟩ := hfind p hp made₁ c₁ h₁
  refine ⟨made₂, c₂.withSources phi p t, ?_, h₂.settles.trans (settles_withSources ..),
    fun b hb => h₁.made b (h₂.made b hb)⟩
  rw [bind_of_ok hfound]
  exact bind_of_ok (addSources_eq_ok (u := ()).mpr rfl)

variable (hanswers : Answers c₀ pairs block) (hg : c₀.Grounded)
  (hphi : ∀ spot d, c₀.module.types.Extends d.module.types → ∃ t d', Code.phiTree ty spot d = .ok t d')
include hanswers hg hphi

theorem exists_valueAt {depth : Nat} {p : BlockId} (hp : Asked c₀ pairs block p) (hs : Settles c₀ c)
    (hdepth : unmade c₀.function.blocks.size made < depth) :
    ∃ t made' c', valueAt pairs ty depth p made c = .ok (t, made') c' ∧ Reached c₀ made made' c' := by
  -- every phi that is made on the way is one for a block that had none
  induction depth generalizing made c p with
  | zero => exact absurd hdepth (Nat.not_lt_zero _)
  | succ depth ih =>
    have hg' : c.Grounded := hg.of_extends (fun _ _ h => by rwa [hs.ids] at h) hs.constants hs.types
    rw [valueAt, bind_of_ok (listedAt?_eq_ok.mpr ⟨rfl, rfl⟩)]
    cases hlisted : c.listed? pairs p with
    | some value =>
      have hvalue := (hanswers.value p hp value (hs.listed? pairs p ▸ hlisted)).get
      rw [← hs.ids] at hvalue
      obtain ⟨t, c', ht⟩ : ∃ t c', Emit.treeOf value (.beforeJump p) c = .ok t c' := Emit.exists_treeOf hg' hvalue
      have hfinds := @Finds.listed pairs ty p made c value t c' hlisted ht
      exact ⟨t, made, c', bind_of_ok ht, hs.trans (settles_of_finds_and_fills.1 hfinds), fun _ h => h⟩
    | none =>
      have hlisted₀ : c₀.listed? pairs p = none := (hs.listed? pairs p).symm.trans hlisted
      cases hknown : made.lookup p with
      | some known => exact ⟨known, made, c, rfl, hs, fun _ h => h⟩
      | none =>
        obtain ⟨t, d, ht⟩ := hphi (.front p) c hs.types
        have hs' : Settles c d := by
          obtain ⟨is, his, hplants⟩ := Code.plants_phiTree ht
          refine .of_inserts hplants.inserts (Function.settles_insertAll_front fun i hi => ?_)
          obtain ⟨lanes, rfl⟩ := his i hi
          rfl
        have hpreds : d.function.preds p = c₀.function.preds p := (hs.trans hs').function.preds p
        have hne : c₀.function.preds p ≠ [] := hanswers.preds p hp hlisted₀
        have hin : p < d.function.blocks.size := by
          rw [(hs.trans hs').function.size]
          exact hanswers.lt p hp
        have hlt := unmade_cons_lt t (hanswers.lt p hp) hknown
        obtain ⟨made', c', hfill, hreached⟩ : ∃ made' c',
            fill (valueAt pairs ty depth) t (c₀.function.preds p) ((p, t) :: made) d = .ok made' c' ∧
              Reached c₀ ((p, t) :: made) made' c' := by
          refine exists_fill (fun q hq made₁ c₁ h₁ => ?_) t (hs.trans hs')
          exact ih (.back hp hlisted₀ hq) h₁.settles
            (Nat.lt_of_le_of_lt (unmade_le h₁.made) (Nat.lt_of_lt_of_le hlt (Nat.le_of_lt_succ hdepth)))
        refine ⟨t, made', c', ?_, hreached.settles, fun b hb => ?_⟩
        · change (Code.phiTree ty (.front p) >>= _) c = _
          rw [bind_of_ok ht, bind_of_ok (predecessors_eq_ok.mpr ⟨hin, rfl, rfl⟩), hpreds,
            if_neg (by simpa using hne)]
          exact bind_of_ok hfill
        · have := hreached.made b hb
          grind

end Progress

/-- The sources of a phi can be filled in, if it waits for any: its type and its values are known, it
stands in a block, and every block that is asked for its value can answer. -/
structure Resolvable (c : Context) (source : Nat) (i : RawInstruction) : Prop where
  named : ∃ id, i.operand 1 = .ok id
  pending : ∀ id tree, i.operand 1 = .ok id → (id, tree) ∈ c.pendingPhis →
    ∃ typeId v pairs block, i.operand 0 = .ok typeId ∧ c.ids.typeValue typeId = .ok v ∧
      Code.phiPairs i = .ok pairs ∧ c.placed.lookup source = some block ∧
      block < c.function.blocks.size ∧ Answers c pairs block ∧
      ∀ spot d, c.module.types.Extends d.module.types → ∃ t d', Code.phiTree v.ty spot d = .ok t d'

variable {c₀ c c' : Context} {source : Nat} {i : RawInstruction}

theorem exists_resolve (h : Resolvable c₀ source i) (hg : c₀.Grounded) (hs : Settles c₀ c)
    (hpending : c.pendingPhis ⊆ c₀.pendingPhis) : ∃ c', resolve source i c = .ok () c' := by
  obtain ⟨id, hid⟩ := h.named
  rw [resolve, bind_of_ok (Lower.operand_eq_ok.mpr ⟨hid, rfl⟩), get_bind]
  cases htree : c.pendingPhis.lookup id with
  | none => exact ⟨c, rfl⟩
  | some tree =>
    obtain ⟨before, after, hsplit, -⟩ := lookup_eq_some_iff.mp htree
    have hmem : (id, tree) ∈ c₀.pendingPhis := hpending (by simp [hsplit])
    obtain ⟨typeId, v, pairs, block, htype, hv, hpairs, hplaced, hblock, hanswers, hphi⟩ :=
      h.pending id tree hid hmem
    rw [← hs.ids] at hv
    let d : Context := { c with pendingPhis := c.pendingPhis.filter (·.1 ≠ id) }
    have hplaced : d.placed.lookup source = some block := by rwa [← hs.placed] at hplaced
    have hd : Settles c₀ (d.reported (.phi id)) := { hs with }
    obtain ⟨made, c', hfill, -⟩ : ∃ made c', fill (valueAt pairs v.ty (d.function.blocks.size + 1)) tree
        (d.function.preds block) [] (d.reported (.phi id)) = .ok made c' ∧ Reached c₀ [] made c' := by
      refine exists_fill (fun p hp made₁ c₁ h₁ => ?_) tree hd
      refine exists_valueAt hanswers hg hphi (.pred ?_) h₁.settles ?_
      · rwa [← hs.function.preds]
      · rw [← hs.function.size]
        exact Nat.lt_succ_of_le (unmade_le_self ..)
    refine ⟨c', ?_⟩
    have hin : block < (d.reported (.phi id)).function.blocks.size := by
      rw [hd.function.size]
      exact hblock
    have hv' : Lower.typeOperand i 0 d = .ok v.ty d :=
      Lower.typeOperand_eq_ok.mpr ⟨⟨typeId, v, htype, hv, rfl⟩, rfl⟩
    dsimp only
    rw [bind_of_ok (modify_eq_ok (u := ⟨⟩).mpr rfl), bind_of_ok hv',
      bind_of_ok (Lower.ofExcept_eq_ok.mpr ⟨hpairs, rfl⟩),
      get_bind]
    rw [hplaced]
    dsimp only
    rw [bind_of_ok (Lower.report_eq_ok (u := ()).mpr rfl), get_bind,
      bind_of_ok (predecessors_eq_ok.mpr ⟨hin, rfl, rfl⟩)]
    exact bind_of_ok hfill

theorem exists_resolveAll {f : SourceFunction} (hg : c.Grounded)
    (h : ∀ x ∈ phisOf c f, Resolvable c x.1 x.2) : ∃ c', resolveAll f c = .ok () c' := by
  have hphi : ∀ x ∈ phisOf c f, ∀ d, Settles c d ∧ d.pendingPhis ⊆ c.pendingPhis →
      ∃ d', resolve x.1 x.2 d = .ok () d' ∧ Settles c d' ∧ d'.pendingPhis ⊆ c.pendingPhis := by
    rintro x hx d ⟨hs, hpending⟩
    obtain ⟨d', hd'⟩ := exists_resolve (h x hx) hg hs hpending
    have hresolves := resolves_of_resolve hd'
    exact ⟨d', hd', hs.trans hresolves.settles, fun p hp => hpending (hresolves.pendingPhis.1 hp)⟩
  suffices h : ∃ c', resolveAll f c = .ok () c' ∧ Settles c c' ∧ c'.pendingPhis ⊆ c.pendingPhis from
    h.imp fun _ h => h.1
  refine exists_forM ?_ ⟨.refl c, List.Subset.refl _⟩
  intro source hsource d hd
  rw [get_bind, hd.1.blocks]
  cases hcode : c.blocks[source]? with
  | none => exact ⟨d, rfl, hd⟩
  | some code =>
    refine exists_forM (fun i hi d hd => hphi (source, i) ?_ d hd) hd
    rw [mem_filter, decide_eq_true_eq] at hi
    exact mem_phisOf.mpr ⟨hsource, code, hcode, hi⟩

end PhiSources

end Spirv

end ShaderIR
