import Tally.Code.Builder
import Tally.Scope

namespace Tally

inductive LabelFault where
  | unknown (label : Number)
  | placedTwice (label : Label)
  | pending (references : Nat)
  | operand (e : OperandFault)
deriving DecidableEq

def LabelFault.message : LabelFault → String
  | unknown label => s!"unknown label {label.text}"
  | placedTwice label => s!"label {label} placed twice"
  | pending references => s!"{references} unresolved label reference(s)"
  | operand e => e.message

/-- A label has an address, or the offsets of the references that wait for it; these are zero until
the address is written over them. -/
inductive LabelState where
  | placed (address : Nat)
  | waiting (slots : Array Nat)

structure LabelTable where
  states : Array LabelState

structure Linker where
  labels : LabelTable
  builder : Builder

/-- Work on labels and code; what was done before a fault stays done. -/
abbrev Linking := EStateM LabelFault Linker

def LabelState.waitingCount : LabelState → Nat
  | placed _ => 0
  | waiting slots => slots.size

def LabelState.addSlot (slot : Nat) : LabelState → LabelState
  | placed address => placed address
  | waiting slots => waiting (slots.push slot)

namespace LabelTable

def empty : LabelTable := ⟨#[]⟩

def state (t : LabelTable) (label : Label) : Except LabelFault LabelState :=
  match t.states[label]? with
  | some s => .ok s
  | none => .error (.unknown label)

def add (t : LabelTable) : LabelTable := ⟨t.states.push (.waiting #[])⟩

def setPlaced (t : LabelTable) (label : Label) (address : Nat) : LabelTable :=
  ⟨t.states.setIfInBounds label (.placed address)⟩

def addSlot (t : LabelTable) (label : Label) (slot : Nat) : LabelTable :=
  ⟨t.states.modify label (LabelState.addSlot slot)⟩

def address? (t : LabelTable) (label : Label) : Except LabelFault (Option Nat) := do
  match ← t.state label with
  | .placed address => return some address
  | .waiting _ => return none

def pendingCount (t : LabelTable) : Nat :=
  t.states.toList.foldr (fun s n => s.waitingCount + n) 0

def assertResolved (t : LabelTable) : Except LabelFault Unit :=
  if t.pendingCount = 0 then .ok () else .error (.pending t.pendingCount)

end LabelTable

namespace Linking

def ofExcept {α : Type} : Except LabelFault α → Linking α
  | .ok a => pure a
  | .error e => throw e

def named (x : Number) : Linking Label :=
  match x.toNat? with
  | some label => pure label
  | none => throw (.unknown x)

def create : Linking Label := fun ⟨labels, builder⟩ =>
  .ok labels.states.size ⟨labels.add, builder⟩

def setPlaced (label : Label) (address : Nat) : Linking Unit :=
  modify fun ⟨labels, builder⟩ => ⟨labels.setPlaced label address, builder⟩

def addSlot (label : Label) (slot : Nat) : Linking Unit :=
  modify fun ⟨labels, builder⟩ => ⟨labels.addSlot label slot, builder⟩

def emitOp (code : Nat) : Linking Nat := fun ⟨labels, builder⟩ =>
  let (offset, builder) := builder.emitOp code
  .ok offset ⟨labels, builder⟩

def emit (bytes : Except OperandFault (List UInt8)) : Linking Nat := fun ⟨labels, builder⟩ =>
  match bytes with
  | .ok bytes =>
    let (offset, builder) := builder.emit bytes
    .ok offset ⟨labels, builder⟩
  | .error e => .error (.operand e) ⟨labels, builder⟩

def emitCount (value : Number) : Linking Nat := emit (Builder.countBytes value)

def emitNumber (value : Int) : Linking Nat := emit (Builder.numberBytes value)

def patch (offset address : Nat) : Linking Unit := fun ⟨labels, builder⟩ =>
  match Builder.countBytes address, builder.operandOffset offset with
  | .ok bytes, .ok k => .ok () ⟨labels, builder.overwrite k bytes⟩
  | .error e, _ => .error (.operand e) ⟨labels, builder⟩
  | _, .error e => .error (.operand e) ⟨labels, builder⟩

def place (label : Label) : Linking Nat := do
  let l ← get
  match ← ofExcept (l.labels.state label) with
  | .placed _ => throw (.placedTwice label)
  | .waiting slots =>
    let address := l.builder.offset
    slots.toList.forM fun slot => patch slot address
    setPlaced label address
    return address

def reference (label : Label) : Linking Unit := do
  let l ← get
  match ← ofExcept (l.labels.state label) with
  | .placed address => let _ ← emitCount address
  | .waiting _ =>
    let slot ← emitCount 0
    addSlot label slot

end Linking

end Tally
