import Tally.Code

namespace Tally

inductive OperandFault where
  | capacity (value : Number)
  | count (value : Number)
  | number (value : Int)
  | place (offset : Number) (length : Nat)
deriving DecidableEq

def OperandFault.message : OperandFault → String
  | capacity value => s!"Invalid typed array length: {value.text}"
  | count value => s!"value {value.text} does not fit in an unsigned 32-bit operand"
  | number value => s!"value {value} does not fit in a signed 64-bit operand"
  | place offset length =>
    s!"patch at offset {offset.text} is outside the emitted code (length {length})"

structure Builder where
  bytes : Array UInt8

namespace Builder

def empty : Builder := ⟨#[]⟩

/-- The greatest capacity that can be asked for, `2 ^ 53 - 1`. -/
def greatestCapacity : Int := 9007199254740991

def offset (b : Builder) : Nat := b.bytes.size

def emit (b : Builder) (bytes : List UInt8) : Nat × Builder := (b.offset, ⟨b.bytes ++ bytes⟩)

def emitOp (b : Builder) (code : Nat) : Nat × Builder := b.emit (LittleEndian.encode 1 code)

def countBytes (value : Number) : Except OperandFault (List UInt8) :=
  match value.toNat? with
  | some n => if n < LittleEndian.modulus 4 then .ok (LittleEndian.encode 4 n) else .error (.count value)
  | none => .error (.count value)

def numberBytes (value : Int) : Except OperandFault (List UInt8) :=
  if value.bmod (LittleEndian.modulus 8) = value then .ok (LittleEndian.encodeInt 8 value)
  else .error (.number value)

def emitCount (b : Builder) (value : Number) : Except OperandFault (Nat × Builder) :=
  b.emit <$> countBytes value

def emitNumber (b : Builder) (value : Int) : Except OperandFault (Nat × Builder) :=
  b.emit <$> numberBytes value

def overwriteFrom (bytes : Array UInt8) : Nat → List UInt8 → Array UInt8
  | _, [] => bytes
  | offset, b :: bs => overwriteFrom (bytes.setIfInBounds offset b) (offset + 1) bs

def overwrite (b : Builder) (offset : Nat) (bytes : List UInt8) : Builder :=
  ⟨overwriteFrom b.bytes offset bytes⟩

def operandOffset (b : Builder) (offset : Number) : Except OperandFault Nat :=
  match offset.toNat? with
  | some k => if k + 4 ≤ b.offset then .ok k else .error (.place offset b.offset)
  | none => .error (.place offset b.offset)

def patchCount (b : Builder) (offset value : Number) : Except OperandFault Builder := do
  let bytes ← countBytes value
  let k ← b.operandOffset offset
  return b.overwrite k bytes

def toCode (b : Builder) (natives : Array Native) (functions : List EntryPoint)
    (filename : String) : Code :=
  ⟨b.bytes, natives, functions, filename⟩

end Builder

end Tally
