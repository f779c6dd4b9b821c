import ShaderIR.Text
import ShaderIR.Proofs.Referents

/-!
# Readers that look everything up

What reads a module looks things up by number. The readers of the library pass over numbers that have no
referent, and stop at a depth where types and constants could go round in circles. Those here do neither:
they take every number at its word and give up at the first that leads nowhere, and at the depth.

In a closed module no reader gives up. The listing, the initial memory and the runs come out as they do
from the readers of the library, so these never pass over anything there.
-/

namespace ShaderIR

open List

theorem mapM_eq_some_map {α β : Type} {f : α → Option β} {g : α → β} {l : List α}
    (h : ∀ a ∈ l, f a = some (g a)) : l.mapM f = some (l.map g) := by
  induction l with
  | nil => rfl
  | cons a l ih =>
    simp_all

namespace Types

/-- The text of a type whose references go at most `depth` deep. -/
def textWithin? (types : Types) : (depth : Nat) → TypeId → Option String
  | 0, _ => none
  | depth + 1, ty => do
    match ← types.get? ty with
    | { name := some name, .. } => return name
    | { name := none, shape } =>
      match shape with
      | .void => return "void"
      | .scalar s => return s.text
      | .vector size s => return "vec" ++ size.text ++ "<" ++ s.text ++ ">"
      | .matrix columns rows s =>
        return "mat" ++ columns.text ++ "x" ++ rows.text ++ "<" ++ s.text ++ ">"
      | .array base length =>
        return "array<" ++ (← textWithin? types depth base) ++ ", " ++ toString length ++ ">"
      | .struct members =>
        let texts ← members.mapM fun m => textWithin? types depth m.ty
        return "struct \x7b " ++ commaSeparated texts ++ " \x7d"
      | .function result params =>
        let texts ← params.mapM (textWithin? types depth)
        return "fn(" ++ commaSeparated texts ++ ") -> " ++ (← textWithin? types depth result)
      | .sampler dim shadow arrayed result =>
        return "sampler" ++ dim.text ++ (if arrayed then "_array" else "")
          ++ (if shadow then "_shadow" else "") ++ "<" ++ result.text ++ ">"

/-- The text of a type. -/
def text? (types : Types) (ty : TypeId) : Option String := types.textWithin? (types.size + 1) ty

theorem textWithin?_eq {types : Types} (h : ∀ i t, types.get? i = some t → ∀ j ∈ t.shape.mentions, j < i)
    {depth : Nat} {ty : TypeId} (hty : ty < types.size) (hdepth : ty < depth) :
    types.textWithin? depth ty = some (types.textWithin depth ty) := by
  induction depth generalizing ty with
  | zero => exact absurd hdepth (Nat.not_lt_zero ty)
  | succ depth ih =>
    obtain ⟨t, ht⟩ : ∃ t, types.get? ty = some t := ⟨_, Array.getElem?_eq_getElem hty⟩
    have hpart : ∀ j ∈ t.shape.mentions, types.textWithin? depth j = some (types.textWithin depth j) := by
      grind
    rw [textWithin?, textWithin, ht]
    obtain ⟨name, shape⟩ := t
    cases name with
    | some name => rfl
    | none =>
      cases shape with
      | array base length => simp [hpart base (by simp [Shape.mentions])]
      | struct members =>
        have hmembers : members.mapM (fun m => types.textWithin? depth m.ty) =
            some (members.map fun m => types.textWithin depth m.ty) :=
          mapM_eq_some_map fun m hm => hpart m.ty (mem_map_of_mem hm)
        simp [hmembers]
      | function result params =>
        have hparams : params.mapM (types.textWithin? depth) = some (params.map (types.textWithin depth)) :=
          mapM_eq_some_map fun p hp => hpart p (mem_cons_of_mem result hp)
        simp [hparams, hpart result (by simp [Shape.mentions])]
      | _ => rfl

end Types

/-! ### Constants -/

variable {c : ConstantId}

namespace Constants

variable {α : Type}

/-- What is made of a constant whose children go at most `depth` deep: `flat` of the lanes of a flat one,
`composite` of what is made of the children of another. -/
def foldWithin? (constants : Constants) (flat : TypeId → List Word → Option α) (composite : List α → α) :
    (depth : Nat) → ConstantId → Option α
  | 0, _ => none
  | depth + 1, c => do
    let k ← constants[c]?
    match k.value with
    | .flat bits => flat k.ty bits
    | .composite children =>
      let parts ← children.mapM (foldWithin? constants flat composite depth)
      return composite parts

/-- What is made of a constant. -/
def fold? (constants : Constants) (flat : TypeId → List Word → Option α) (composite : List α → α)
    (c : ConstantId) : Option α :=
  constants.foldWithin? flat composite (constants.size + 1) c

/-- The text of a constant. -/
def text? (constants : Constants) (c : ConstantId) : Option String :=
  constants.fold? (fun _ bits => some ("(" ++ String.intercalate ", " (bits.map Word.hex) ++ ")"))
    (fun texts => "\x7b" ++ String.intercalate ", " texts ++ "\x7d") c

/-- A function that goes down constants in the same way gives what is made of them. -/
theorem foldWithin?_eq {constants : Constants} {flat : TypeId → List Word → Option α}
    {composite : List α → α} {g : Nat → ConstantId → α}
    (h : ∀ (c : ConstantId) (k : Constant), constants[c]? = some k →
      ∀ children, k.value = .composite children → ∀ child ∈ children, child < c)
    (hflat : ∀ (depth : Nat) (c : ConstantId) (k : Constant) bits, constants[c]? = some k →
      k.value = .flat bits → flat k.ty bits = some (g (depth + 1) c))
    (hcomposite : ∀ (depth : Nat) (c : ConstantId) (k : Constant) children, constants[c]? = some k →
      k.value = .composite children → composite (children.map (g depth)) = g (depth + 1) c)
    {depth : Nat} (hc : c < constants.size) (hdepth : c < depth) :
    constants.foldWithin? flat composite depth c = some (g depth c) := by
  induction depth generalizing c with
  | zero => exact absurd hdepth (Nat.not_lt_zero c)
  | succ depth ih =>
    have hk : constants[c]? = some constants[c] := Array.getElem?_eq_getElem hc
    rw [foldWithin?, hk]
    cases hvalue : constants[c].value with
    | flat bits => simp [hvalue, hflat depth c _ bits hk hvalue]
    | composite children =>
      have hchildren : children.mapM (constants.foldWithin? flat composite depth) =
          some (children.map (g depth)) := by
        apply mapM_eq_some_map
        grind
      grind

end Constants

/-! ### Memory -/

namespace Module.Closed

variable {m : Module} (h : m.Closed)
include h

theorem type_text? {ty : TypeId} (hty : ty < m.types.size) :
    m.types.text? ty = some (m.types.text ty) :=
  Types.textWithin?_eq h.types hty (Nat.lt_succ_of_lt hty)

theorem constant_text? (hc : c < m.constants.size) :
    m.constants.text? c = some (m.constants.text c) := by
  rw [Constants.text?, Constants.fold?, Constants.text]
  apply Constants.foldWithin?_eq (g := m.constants.textWithin) (fun c k hk => (h.constants c k hk).2) ?_ ?_ hc
    (Nat.lt_succ_of_lt hc)
  · rintro depth c ⟨name, ty, value⟩ bits hk rfl
    rw [Constants.textWithin, hk]
  · rintro depth c ⟨name, ty, value⟩ children hk rfl
    rw [Constants.textWithin, hk]

end Module.Closed

/-! ### Regions -/

namespace Function.Holds

variable {f : Function} {b : BlockId} {node : Nat} {condition : Register} {onTrue onFalse body rest : Region}

theorem of_cond (h : f.Holds (.cond b node condition onTrue onFalse rest)) :
    b < f.blocks.size ∧ f.conditionals[node]? = some ⟨node, condition, onTrue, onFalse⟩ ∧
      f.Holds onTrue ∧ f.Holds onFalse ∧ f.Holds rest := by
  obtain ⟨hblocks, hconditionals, hloops⟩ := h
  simp only [Region.blocks, Region.conditionals, Region.loops, mem_cons, mem_append,
    or_imp, forall_and, forall_eq] at hblocks hconditionals hloops
  obtain ⟨hb, ⟨htrue, hfalse⟩, hrest⟩ := hblocks
  obtain ⟨hk, ⟨htrue', hfalse'⟩, hrest'⟩ := hconditionals
  obtain ⟨⟨htrue'', hfalse''⟩, hrest''⟩ := hloops
  exact ⟨hb, hk, ⟨htrue, htrue', htrue''⟩, ⟨hfalse, hfalse', hfalse''⟩, ⟨hrest, hrest', hrest''⟩⟩

theorem of_loop (h : f.Holds (.loop b node body rest)) :
    b < f.blocks.size ∧ f.loops[node]? = some body ∧ f.Holds body ∧ f.Holds rest := by
  obtain ⟨hblocks, hconditionals, hloops⟩ := h
  simp only [Region.blocks, Region.conditionals, Region.loops, mem_cons, mem_append,
    or_imp, forall_and, forall_eq] at hblocks hconditionals hloops
  obtain ⟨hb, hbody, hrest⟩ := hblocks
  obtain ⟨hbody', hrest'⟩ := hconditionals
  obtain ⟨hl, hbody'', hrest''⟩ := hloops
  exact ⟨hb, hl, ⟨hbody, hbody', hbody''⟩, ⟨hrest, hrest', hrest''⟩⟩

theorem head_lt {r : Region} (h : f.Holds r) : r.head < f.blocks.size := by
  apply h.blocks
  cases r <;> simp [Region.head, Region.blocks]

end Function.Holds

namespace Function

/-- The line of one instruction, after `pad`. -/
def lineText? (f : Function) (vars : Array Variable) (pad : String) (r : Register) : Option String := do
  let i ← f.instructions[r]?
  return pad ++ "  " ++ i.line vars r ++ "\n"

/-- The lines of one block, after `pad`. -/
def blockText? (f : Function) (vars : Array Variable) (pad : String) (b : BlockId) : Option String := do
  let block ← f.blocks[b]?
  let lines ← block.instructions.mapM (f.lineText? vars pad)
  return pad ++ s!"block b{b}:\n" ++ String.join lines

/-- The lines of one part of a region, indented by `indent` blanks, where `nodes?` gives those of arms and
bodies. -/
def nodeText? (f : Function) (vars : Array Variable) (nodes? : Nat → List RegionNode → Option String)
    (indent : Nat) : RegionNode → Option String
  | .block b => f.blockText? vars ("".pushn ' ' indent) b
  | .cond node => do
    let pad := "".pushn ' ' indent
    let k ← f.conditionals[node]?
    let onTrue ← nodes? (indent + 4) k.onTrue.nodes
    let onFalse ← nodes? (indent + 4) k.onFalse.nodes
    return pad ++ s!"if %{k.condition} \x7b\n" ++ onTrue ++ pad ++ "\x7d else \x7b\n" ++ onFalse
      ++ pad ++ "\x7d\n"
  | .loop node => do
    let pad := "".pushn ' ' indent
    let body ← f.loops[node]?
    let text ← nodes? (indent + 4) body.nodes
    return pad ++ "loop \x7b\n" ++ text ++ pad ++ "\x7d\n"

/-- The lines of the parts of a region, indented by `indent` blanks, where arms and bodies stand less than
`depth` deep in each other. -/
def nodesText? (f : Function) (vars : Array Variable) : (depth indent : Nat) → List RegionNode → Option String
  | 0, _, _ => none
  | depth + 1, indent, nodes => do
    let texts ← nodes.mapM (f.nodeText? vars (f.nodesText? vars depth) indent)
    return String.join texts

variable {f : Function} {vars : Array Variable}

theorem mapM_lineText? (vars : Array Variable) (pad : String) {rs : List Register} (h : ∀ r ∈ rs, r < f.instructions.size) :
    rs.mapM (f.lineText? vars pad) = some (rs.map fun r =>
      match f.instructions[r]? with
      | some i => pad ++ "  " ++ i.line vars r ++ "\n"
      | none => "") :=
  mapM_eq_some_map fun r hr => by simp [lineText?, Array.getElem?_eq_getElem (h r hr)]

theorem blockText?_eq (vars : Array Variable) (h : f.InRange) (pad : String) {b : BlockId} (hb : b < f.blocks.size) :
    f.blockText? vars pad b = some (f.blockText vars pad b) := by
  have hblock : f.blocks[b]? = some f.blocks[b] := Array.getElem?_eq_getElem hb
  have hlines := mapM_lineText? vars pad fun r hr => h b r (by simpa [Function.code, hblock] using hr)
  rw [blockText?, hblock, blockText, hblock, Option.bind_eq_bind, Option.bind_some, hlines]
  rfl

theorem nodesText?_cons (depth indent : Nat) (node : RegionNode) (nodes : List RegionNode) :
    f.nodesText? vars (depth + 1) indent (node :: nodes) = do
      let text ← f.nodeText? vars (f.nodesText? vars depth) indent node
      let texts ← f.nodesText? vars (depth + 1) indent nodes
      return text ++ texts := by
  simp [nodesText?, Option.bind_assoc]

theorem nodesText?_eq (vars : Array Variable) (hcode : f.InRange) {r : Region} (h : f.Holds r)
    (depth indent : Nat) (hdepth : r.blocks.length ≤ depth) :
    f.nodesText? vars depth indent r.nodes = some (f.regionText vars indent r) := by
  induction r generalizing depth indent with
  | last b =>
    simp only [Region.blocks, length_singleton] at hdepth
    obtain ⟨depth, rfl⟩ := Nat.exists_eq_add_of_le' hdepth
    have hblock := blockText?_eq vars hcode ("".pushn ' ' indent) h.head_lt
    simp only [Region.head] at hblock
    simp [nodesText?, nodeText?, Region.nodes, regionText, hblock]
  | cond _ _ _ _ _ _ ihtrue ihfalse ihrest =>
    simp only [Region.blocks, length_cons, length_append] at hdepth
    obtain ⟨depth, rfl⟩ := Nat.exists_eq_add_of_le' (Nat.one_le_of_lt hdepth)
    obtain ⟨hb, hk, htrue, hfalse, hrest⟩ := h.of_cond
    have hblock := blockText?_eq vars hcode ("".pushn ' ' indent) hb
    rw [Region.nodes, nodesText?_cons, nodesText?_cons, nodeText?, hblock, nodeText?, hk,
      ihrest hrest _ indent (by omega)]
    simp [ihtrue htrue depth (indent + 4) (by omega), ihfalse hfalse depth (indent + 4) (by omega),
      regionText, String.append_assoc]
  | loop _ _ _ _ ihbody ihrest =>
    simp only [Region.blocks, length_cons, length_append] at hdepth
    obtain ⟨depth, rfl⟩ := Nat.exists_eq_add_of_le' (Nat.one_le_of_lt hdepth)
    obtain ⟨hb, hl, hbody, hrest⟩ := h.of_loop
    have hblock := blockText?_eq vars hcode ("".pushn ' ' indent) hb
    rw [Region.nodes, nodesText?_cons, nodesText?_cons, nodeText?, hblock, nodeText?, hl,
      ihrest hrest _ indent (by omega)]
    simp [ihbody hbody depth (indent + 4) (by omega), regionText, String.append_assoc]

end Function

/-! ### Listings -/

/-- A variable with all that ties it to the interface, which needs the text of its type. -/
def Variable.text? (types : Types) (v : Variable) : Option String := do
  let _ ← types.text? v.ty
  return v.text types

namespace Module

/-- The line of a variable of a function. -/
def localText? (m : Module) (v : VariableId) : Option String := do
  let var ← m.vars[v]?
  let ty ← m.types.text? var.ty
  return s!"    local {nameText var.name}: {ty}\n"

/-- The listing of one function. -/
def functionText? (m : Module) (id : FunctionId) (f : Function) : Option String := do
  let result ←
    match f.result with
    | some ty => (m.types.text? ty).map (" -> " ++ ·)
    | none => some ""
  let locals ← f.locals.mapM m.localText?
  let body ← f.nodesText? m.vars f.body.blocks.length 4 f.body.nodes
  return s!"  fn {nameText f.name} [{id}]" ++ result ++ " \x7b\n" ++ String.join locals ++ body ++ "  \x7d\n"

/-- The lines of a list, each made of an entry and its number. -/
def linesText? {α : Type} (entries : List α) (line? : Nat → α → Option String) : Option String := do
  let lines ← entries.zipIdx.mapM fun (e, i) => line? i e
  return String.join lines

/-- A titled part of the listing, left out when it has no entries. -/
def sectionText? {α : Type} (title : String) (entries : List α) (line? : Nat → α → Option String) :
    Option String := do
  if entries.isEmpty then return ""
  else return s!"\n{title}:\n" ++ (← linesText? entries line?)

/-- The line of a type. -/
def typeLine? (m : Module) (i : TypeId) : Option String := do
  let text ← m.types.text? i
  return s!"  [{i}] {text}\n"

/-- The line of a constant. -/
def constantLine? (m : Module) (i : ConstantId) (c : Constant) : Option String := do
  let ty ← m.types.text? c.ty
  let value ← m.constants.text? i
  return s!"  [{i}] {ty} = {value}\n"

/-- The line of a variable, left out if a function owns it. -/
def variableLine? (m : Module) (i : VariableId) (v : Variable) : Option String := do
  if v.mode = .functionLocal then return ""
  let text ← v.text? m.types
  return s!"  [{i}] {text}\n"

/-- The listing of a module. -/
def text? (m : Module) : Option String := do
  let types ← linesText? m.types.toList fun i _ => m.typeLine? i
  let constants ← sectionText? "Constants" m.constants.toList m.constantLine?
  let vars ← sectionText? "Variables" m.vars.toList m.variableLine?
  let functions ← sectionText? "Functions" m.functions.toList m.functionText?
  let entryPoints := sectionText "Entry Points" m.entryPoints fun _ e =>
    s!"  {e.stage.text} {e.name} -> [{e.function}]\n"
  return "Types:\n" ++ types ++ constants ++ vars ++ functions ++ entryPoints

theorem linesText?_eq {α : Type} {entries : List α} {line? : Nat → α → Option String} {line : Nat → α → String}
    (h : ∀ (i : Nat) (e : α), entries[i]? = some e → line? i e = some (line i e)) :
    linesText? entries line? = some (String.join (entries.mapIdx line)) := by
  have hlines : entries.zipIdx.mapM (fun (e, i) => line? i e) =
      some (entries.zipIdx.map fun (e, i) => line i e) := by
    apply mapM_eq_some_map
    grind
  rw [linesText?, hlines, mapIdx_eq_zipIdx_map]
  rfl

theorem sectionText?_eq {α : Type} (title : String) {entries : List α} {line? : Nat → α → Option String}
    {line : Nat → α → String}
    (h : ∀ (i : Nat) (e : α), entries[i]? = some e → line? i e = some (line i e)) :
    sectionText? title entries line? = some (sectionText title entries line) := by
  rw [sectionText?, sectionText, linesText?_eq h]
  split <;> rfl

variable {m : Module} (h : m.Closed)
include h

theorem Closed.localText? {v : VariableId} {var : Variable} (hv : m.vars[v]? = some var) :
    m.localText? v = some s!"    local {nameText var.name}: {m.types.text var.ty}\n" := by
  have hty := (h.vars var (Array.mem_of_getElem? hv)).1
  rw [Module.localText?, hv, Option.bind_eq_bind, Option.bind_some, h.type_text? hty]
  rfl

theorem Closed.mapM_localText? {vs : List VariableId}
    (hvs : ∀ v ∈ vs, ∃ var, m.vars[v]? = some var) :
    vs.mapM m.localText? = some (vs.map fun v =>
      match m.vars[v]? with
      | some var => s!"    local {nameText var.name}: {m.types.text var.ty}\n"
      | none => "") := by
  apply mapM_eq_some_map
  intro v hv
  obtain ⟨var, hvar⟩ := hvs v hv
  rw [h.localText? hvar, hvar]

theorem Closed.functionText? (id : FunctionId) {f : Function} (hf : f.Closed m) :
    m.functionText? id f = some (m.functionText id f) := by
  have hlocals := h.mapM_localText? fun v hv => (hf.locals v hv).imp fun _ hvar => hvar.1
  have hbody := Function.nodesText?_eq m.vars hf.code hf.body _ 4 (Nat.le_refl _)
  rw [Module.functionText?, Module.functionText, hlocals, hbody]
  cases hresult : f.result with
  | none => rfl
  | some ty =>
    simp only [h.type_text? (hf.result ty hresult)]
    rfl

theorem Closed.variableLine? {i : VariableId} {v : Variable} (hv : v ∈ m.vars) :
    m.variableLine? i v = some (if v.mode = .functionLocal then "" else s!"  [{i}] {v.text m.types}\n") := by
  rw [Module.variableLine?, Variable.text?, h.type_text? (h.vars v hv).1]
  split <;> rfl

theorem Closed.text? : m.text? = some m.text := by
  have htypes : linesText? m.types.toList (fun i _ => m.typeLine? i) =
      some (String.join (m.types.toList.mapIdx fun i _ => s!"  [{i}] {m.types.text i}\n")) := by
    apply linesText?_eq
    intro i t ht
    have hi : i < m.types.size := by
      simpa [Interner.toList, Interner.size] using (List.getElem?_eq_some_iff.mp ht).1
    rw [Module.typeLine?, h.type_text? hi]
    rfl
  have hconstants : sectionText? "Constants" m.constants.toList m.constantLine? =
      some (sectionText "Constants" m.constants.toList fun i c =>
        s!"  [{i}] {m.types.text c.ty} = {m.constants.text i}\n") := by
    apply sectionText?_eq
    intro i c hc
    rw [Array.getElem?_toList] at hc
    obtain ⟨hi, -⟩ := Array.getElem?_eq_some_iff.mp hc
    rw [Module.constantLine?, h.type_text? (h.constants i c hc).1, h.constant_text? hi]
    rfl
  have hvars : sectionText? "Variables" m.vars.toList m.variableLine? =
      some (sectionText "Variables" m.vars.toList fun i v =>
        if v.mode = .functionLocal then "" else s!"  [{i}] {v.text m.types}\n") := by
    apply sectionText?_eq
    intro i v hv
    exact h.variableLine? (Array.mem_of_getElem? (by simpa using hv))
  have hfunctions : sectionText? "Functions" m.functions.toList m.functionText? =
      some (sectionText "Functions" m.functions.toList m.functionText) := by
    apply sectionText?_eq
    intro id f hf
    exact h.functionText? id (h.functions f (Array.mem_of_getElem? (by simpa using hf)))
  rw [Module.text?, htypes, hconstants, hvars, hfunctions]
  rfl

end Module

end ShaderIR
