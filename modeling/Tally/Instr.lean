import Tally.Opcode

namespace Tally

inductive Instr (α : Type) where
  | pushFunc (target : α)
  | pushNative (index : Nat)
  | peek (depth : Nat)
  | pop
  | call (args : Nat)
  | add
  | ret (depth args : Nat)
  | jumpFalse (target : α)
  | jump (target : α)
  | stop
  | pushInt (value : Int)
deriving DecidableEq, Repr

inductive Operand (α : Type) where
  | address (target : α)
  | count (n : Nat)
  | number (z : Int)
deriving DecidableEq, Repr

namespace Instr

variable {α : Type}

def opcode : Instr α → Opcode
  | pushFunc _ => .pushFunc
  | pushNative _ => .pushNative
  | peek _ => .peek
  | pop => .pop
  | call _ => .call
  | add => .add
  | ret .. => .ret
  | jumpFalse _ => .jumpFalse
  | jump _ => .jump
  | stop => .stop
  | pushInt _ => .pushInt

def operands : Instr α → List (Operand α)
  | pushFunc target | jumpFalse target | jump target => [.address target]
  | pushNative n | peek n | call n => [.count n]
  | ret depth args => [.count depth, .count args]
  | pushInt value => [.number value]
  | pop | add | stop => []

def size (i : Instr α) : Nat := i.opcode.size

end Instr

def Operand.toInt : Operand Nat → Int
  | address n => n
  | count n => n
  | number z => z

end Tally
