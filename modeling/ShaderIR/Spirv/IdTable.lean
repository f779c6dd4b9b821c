import ShaderIR.Spirv.Error
import ShaderIR.Spirv.Tree

/-!
# What ids stand for

A table with one slot for every id below the bound. An id gets its meaning once; its name, the names
of its members and its decorations may be recorded before that.

A decoration may stand for all decorations of a group. Resolving the decorations of an id puts the
decorations of the group in the place of the reference, and those of further groups in turn.
-/

namespace ShaderIR.Spirv

/-! ### Meanings -/

/-- What a type id stands for. A pointer type has the type of what it points to. -/
structure TypeValue where
  ty : TypeId
  isPointer : Bool := false
deriving DecidableEq, Repr

/-- One lane of a vector in memory. -/
structure Lane where
  index : Index
  /-- The type of the vector. -/
  vector : TypeId
deriving DecidableEq, Repr

/-- A place in memory, or a lane of the vector stored there, with the type of what is pointed to. -/
structure Pointer where
  place : Place
  ty : TypeId
  lane : Option Lane := none
deriving DecidableEq, Repr

/-- A set of extended instructions. -/
inductive ExtendedSet where
  | glsl450
  | unknown (name : String)
deriving DecidableEq, Repr

namespace ExtendedSet

/-- The set with a name. -/
def ofName (name : String) : ExtendedSet :=
  if name = "GLSL.std.450" then glsl450 else unknown name

end ExtendedSet

/-- What an id stands for. -/
inductive Value where
  | type (type : TypeValue)
  | constant (constant : ConstantId)
  | tree (tree : Tree)
  | pointer (pointer : Pointer)
  /-- A function, by its place in the order of the stream. -/
  | function (index : Nat)
  /-- A block, by its place in the order of the stream. -/
  | block (index : Nat)
  | extensionImport (set : ExtendedSet)
  | decorationGroup
  | string (text : String)
deriving Repr

/-- The kind of a meaning. -/
def Value.kind : Value → Kind
  | type _ => .type
  | constant _ => .constant
  | tree _ => .value
  | pointer _ => .pointer
  | function _ => .function
  | block _ => .block
  | extensionImport _ => .extensionImport
  | decorationGroup => .decorationGroup
  | string _ => .string

/-! ### Decorations -/

/-- What is recorded by a decoration: a fact, or all that is recorded on a group. -/
inductive DecorationItem where
  | direct (kind : DecorationKind) (literals : List Word)
  | group (group : Id)
deriving DecidableEq, Repr

/-- A decoration of an id, or of one member of the structure it stands for. -/
structure Decoration where
  member : Option Word
  item : DecorationItem
deriving DecidableEq, Repr

/-- A decoration after its group was looked up. -/
structure ResolvedDecoration where
  member : Option Word
  kind : DecorationKind
  literals : List Word
deriving DecidableEq, Repr

/-- The first literal of a decoration. -/
def ResolvedDecoration.literal? (d : ResolvedDecoration) : Option Word := d.literals.head?

/-! ### The table -/

/-- What is recorded about one id. -/
structure IdSlot where
  value : Option Value := none
  name : Option String := none
  /-- The names of members, the most recent first. -/
  memberNames : List (Word × String) := []
  decorations : List Decoration := []

/-- One slot for every id below the bound. -/
structure IdTable where
  slots : Array IdSlot

namespace IdTable

/-- The table without any records. -/
def ofBound (bound : Nat) : IdTable := ⟨(List.replicate bound {}).toArray⟩

/-- How many ids there are. -/
def bound (t : IdTable) : Nat := t.slots.size

/-- What is recorded about an id. -/
def slot (t : IdTable) (id : Id) : Except Error IdSlot :=
  match t.slots[id.toNat]? with
  | some s => .ok s
  | none => .error (.idOutOfBounds id t.bound)

/-- Changes what is recorded about an id. -/
def update (t : IdTable) (id : Id) (f : IdSlot → IdSlot) : Except Error IdTable :=
  match t.slots[id.toNat]? with
  | some s => .ok ⟨t.slots.setIfInBounds id.toNat (f s)⟩
  | none => .error (.idOutOfBounds id t.bound)

/-- Gives an id its meaning, which it must not have yet. -/
def define (t : IdTable) (id : Id) (value : Value) : Except Error IdTable := do
  match (← t.slot id).value with
  | some _ => .error (.idRedefined id)
  | none => t.update id fun s => { s with value := some value }

/-- The meaning of an id. -/
def get (t : IdTable) (id : Id) : Except Error Value := do
  match (← t.slot id).value with
  | some v => .ok v
  | none => .error (.undefinedId id)

/-- The type an id stands for. -/
def typeValue (t : IdTable) (id : Id) : Except Error TypeValue := do
  match ← t.get id with
  | .type v => .ok v
  | v => .error (.wrongKind id .type v.kind)

/-- The constant an id stands for. -/
def constant (t : IdTable) (id : Id) : Except Error ConstantId := do
  match ← t.get id with
  | .constant c => .ok c
  | v => .error (.wrongKind id .constant v.kind)

/-- The constant an id stands for, if it stands for one. -/
def constant? (t : IdTable) (id : Id) : Except Error (Option ConstantId) := do
  match ← t.get id with
  | .constant c => .ok (some c)
  | _ => .ok none

/-- The pointer an id stands for. -/
def pointer (t : IdTable) (id : Id) : Except Error Pointer := do
  match ← t.get id with
  | .pointer p => .ok p
  | v => .error (.wrongKind id .pointer v.kind)

/-- The function an id stands for. -/
def function (t : IdTable) (id : Id) : Except Error Nat := do
  match ← t.get id with
  | .function f => .ok f
  | v => .error (.wrongKind id .function v.kind)

/-- The block an id stands for. -/
def block (t : IdTable) (id : Id) : Except Error Nat := do
  match ← t.get id with
  | .block b => .ok b
  | v => .error (.wrongKind id .block v.kind)

/-- The set of extended instructions an id stands for. -/
def extendedSet (t : IdTable) (id : Id) : Except Error ExtendedSet := do
  match ← t.get id with
  | .extensionImport s => .ok s
  | v => .error (.wrongKind id .extensionImport v.kind)

/-- Checks that an id stands for a decoration group. -/
def checkGroup (t : IdTable) (id : Id) : Except Error Unit := do
  match ← t.get id with
  | .decorationGroup => .ok ()
  | v => .error (.wrongKind id .decorationGroup v.kind)

/-! ### Names -/

/-- Names an id. -/
def setName (t : IdTable) (id : Id) (name : String) : Except Error IdTable :=
  t.update id fun s => { s with name := some name }

/-- The name of an id. -/
def name? (t : IdTable) (id : Id) : Option String := (t.slots[id.toNat]?).bind (·.name)

/-- Names a member of an id. -/
def setMemberName (t : IdTable) (id : Id) (member : Word) (name : String) : Except Error IdTable :=
  t.update id fun s => { s with memberNames := (member, name) :: s.memberNames }

/-- The name last given to a member of an id. -/
def memberName? (t : IdTable) (id : Id) (member : Word) : Option String :=
  (t.slots[id.toNat]?).bind fun s => s.memberNames.lookup member

/-! ### Decorations -/

/-- Records a decoration behind those already recorded on an id. -/
def decorate (t : IdTable) (id : Id) (d : Decoration) : Except Error IdTable :=
  t.update id fun s => { s with decorations := s.decorations ++ [d] }

/-- Through how many groups a decoration may be reached. -/
def maxGroupDepth : Nat := 8

/-- The decorations of an id or group with groups replaced, where at most `levels` levels are left
and `member` is the member that the references on the way named last. -/
def expand (t : IdTable) : (levels : Nat) → Id → (member : Option Word) →
    Except Error (List ResolvedDecoration)
  | 0, id, _ => .error (.meaningless (.groupNesting id))
  | levels + 1, id, member => do
    let expanded ← (← t.slot id).decorations.mapM fun d =>
      let member := d.member.or member
      match d.item with
      | .direct kind literals => .ok [{ member, kind, literals }]
      | .group group => t.expand levels group member
    return expanded.flatten

/-- The decorations of an id in the order in which they apply. -/
def decorations (t : IdTable) (id : Id) : Except Error (List ResolvedDecoration) :=
  t.expand (maxGroupDepth + 1) id none

end IdTable

end ShaderIR.Spirv
