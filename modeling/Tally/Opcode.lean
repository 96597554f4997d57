namespace Tally

inductive Opcode where
  | pushFunc | pushNative | peek | pop | call | add | ret | jumpFalse | jump | stop | pushInt
deriving DecidableEq, Repr

inductive OperandKind where
  | address | count | number
deriving DecidableEq, Repr

namespace OperandKind

def size : OperandKind → Nat
  | address => 4
  | count => 4
  | number => 8

end OperandKind

namespace Opcode

def all : List Opcode :=
  [pushFunc, pushNative, peek, pop, call, add, ret, jumpFalse, jump, stop, pushInt]

def code : Opcode → Nat
  | pushFunc => 0
  | pushNative => 1
  | peek => 2
  | pop => 3
  | call => 4
  | add => 5
  | ret => 6
  | jumpFalse => 7
  | jump => 8
  | stop => 9
  | pushInt => 10

def ofCode? (n : Nat) : Option Opcode := all[n]?

theorem ofCode?_code (op : Opcode) : ofCode? op.code = some op := by
  cases op <;> rfl

theorem code_of_ofCode? {n : Nat} {op : Opcode} (h : ofCode? n = some op) : op.code = n := by
  have lt : n < 11 := (List.getElem?_eq_some_iff.mp h).1
  match n, lt with
  | 0, _ | 1, _ | 2, _ | 3, _ | 4, _ | 5, _ | 6, _ | 7, _ | 8, _ | 9, _ | 10, _ => cases h; rfl

def name : Opcode → String
  | pushFunc => "PushFunc"
  | pushNative => "PushNative"
  | peek => "Peek"
  | pop => "Pop"
  | call => "Call"
  | add => "Add"
  | ret => "Return"
  | jumpFalse => "JumpFalse"
  | jump => "Jump"
  | stop => "Stop"
  | pushInt => "PushInt"

def operandKinds : Opcode → List OperandKind
  | pushFunc | jumpFalse | jump => [.address]
  | pushNative | peek | call => [.count]
  | ret => [.count, .count]
  | pushInt => [.number]
  | pop | add | stop => []

def size (op : Opcode) : Nat := 1 + op.operandKinds.foldr (fun k n => k.size + n) 0

end Opcode

end Tally
