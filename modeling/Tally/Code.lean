import Tally.Instr
import Tally.LittleEndian
import Tally.Number.Text

namespace Tally

/-- A function of compiled code. A table from elsewhere may hold any number. -/
structure EntryPoint where
  name : String
  address : Number
  arity : Number
deriving DecidableEq, Repr

structure Native where
  name : String
  primitive : String
  arity : Number
deriving DecidableEq, Repr

structure Code where
  bytes : Array UInt8
  natives : Array Native
  functions : List EntryPoint
  filename : String

structure OutsideCode where
  size : Nat
  offset : Number
  length : Nat
deriving DecidableEq

def OutsideCode.message (e : OutsideCode) : String :=
  s!"read of {e.size} byte(s) at offset {e.offset.text} is outside the code (length {e.length})"

namespace Code

def length (c : Code) : Nat := c.bytes.size

def slice (c : Code) (offset size : Nat) : Except OutsideCode (List UInt8) :=
  if offset + size ≤ c.length then .ok (c.bytes.extract offset (offset + size)).toList
  else .error ⟨size, offset, c.length⟩

def readByte (c : Code) (offset : Nat) : Except OutsideCode Nat :=
  LittleEndian.decode <$> c.slice offset 1

def readCount (c : Code) (offset : Nat) : Except OutsideCode Nat :=
  LittleEndian.decode <$> c.slice offset 4

def readNumber (c : Code) (offset : Nat) : Except OutsideCode Int :=
  LittleEndian.decodeInt <$> c.slice offset 8

/-- The function whose entry point an address is; of several, the last in the table. -/
def functionAt? (c : Code) (address : Number) : Option EntryPoint :=
  (c.functions.filter fun f => f.address = address).getLast?

def operandsAt (c : Code) (offset : Nat) : Opcode → Except OutsideCode (Instr Nat)
  | .pushFunc => .pushFunc <$> c.readCount offset
  | .pushNative => .pushNative <$> c.readCount offset
  | .peek => .peek <$> c.readCount offset
  | .pop => .ok .pop
  | .call => .call <$> c.readCount offset
  | .add => .ok .add
  | .ret => do
    let depth ← c.readCount offset
    let args ← c.readCount (offset + 4)
    return .ret depth args
  | .jumpFalse => .jumpFalse <$> c.readCount offset
  | .jump => .jump <$> c.readCount offset
  | .stop => .ok .stop
  | .pushInt => .pushInt <$> c.readNumber offset

end Code

end Tally
