import Tally.Assembly.Labels

namespace Tally

inductive Line where
  | label (l : Label)
  | instr (i : Instr Label)
deriving DecidableEq, Repr

structure AssemblyFunction where
  name : String
  entry : Label
  arity : Nat
deriving DecidableEq, Repr

/-- Lines that use the labels below `labels`, with tables of functions and natives. -/
structure Assembly where
  lines : Array Line
  labels : Nat
  functions : List AssemblyFunction
  natives : Array Native

namespace Linking

def operand : Operand Label → Linking Unit
  | .address l => reference l
  | .count n => do let _ ← emitCount n
  | .number z => do let _ ← emitNumber z

def line : Line → Linking Unit
  | .label l => do let _ ← place l
  | .instr i => do
    let _ ← emitOp i.opcode.code
    i.operands.forM operand

def entryPoint (f : AssemblyFunction) : Linking EntryPoint := do
  let l ← get
  match ← ofExcept (l.labels.address? f.entry) with
  | some address => return ⟨f.name, address, f.arity⟩
  | none => throw (.pending 1)

end Linking

namespace Assembly

def linking (a : Assembly) (filename : String) : Linking Code := do
  a.lines.toList.forM Linking.line
  let l ← get
  Linking.ofExcept l.labels.assertResolved
  let functions ← a.functions.mapM Linking.entryPoint
  return l.builder.toCode a.natives functions filename

/-- The code of assembly, with every label replaced by its address. -/
def link (a : Assembly) (filename : String) : Except LabelFault Code :=
  let labels : LabelTable := ⟨Array.replicate a.labels (.waiting #[])⟩
  match a.linking filename ⟨labels, .empty⟩ with
  | .ok code _ => .ok code
  | .error e _ => .error e

end Assembly

end Tally
