import Tally.Assembly
import Tally.Program

namespace Tally

inductive LoweringFault where
  | unknownPrimitive (primitive name : String) (position : Position)
  | registry (message : String)
  | scope (e : ScopeFault)
  | depthAtTop (depth : Nat)
  | depthOfFunction (name : String) (depth : Nat)
  | depthOfBlock (before after : Nat)
deriving DecidableEq

/-- Assembly under construction; `depth` counts the values left on the stack by the code of the
current body. -/
structure Draft where
  lines : Array Line
  depth : Nat
  labels : Nat

abbrev Lowering := StateT Draft (Except LoweringFault)

namespace Lowering

def emit (line : Line) : Lowering Unit :=
  modify fun ⟨lines, depth, labels⟩ => ⟨lines.push line, depth, labels⟩

def emitInstr (i : Instr Label) : Lowering Unit := emit (.instr i)

def depth : Lowering Nat := do return (← get).depth

def setDepth (depth : Nat) : Lowering Unit :=
  modify fun ⟨lines, _, labels⟩ => ⟨lines, depth, labels⟩

def pushed (n : Nat) : Lowering Unit :=
  modify fun ⟨lines, depth, labels⟩ => ⟨lines, depth + n, labels⟩

def popped (n : Nat) : Lowering Unit :=
  modify fun ⟨lines, depth, labels⟩ => ⟨lines, depth - n, labels⟩

def newLabel : Lowering Label := fun ⟨lines, depth, labels⟩ =>
  .ok (labels, ⟨lines, depth, labels + 1⟩)

def resolve (scope : Scope) (name : String) : Lowering Binding :=
  match scope.resolve name with
  | .ok binding => pure binding
  | .error e => throw (.scope e)

end Lowering

open Lowering

def Binding.lower : Binding → Lowering Unit
  | .function entry => emitInstr (.pushFunc entry)
  | .native index _ => emitInstr (.pushNative index)
  | .argument index => do emitInstr (.peek ((← depth) + index + 1))

mutual

def Expr.lower (scope : Scope) : Expr → Lowering Unit
  | .int digits _ => do
    emitInstr (.pushInt (Expr.literalValue digits))
    pushed 1
  | .ident name => do
    (← resolve scope name.text).lower
    pushed 1
  | .add left _ right => do
    left.lower scope
    right.lower scope
    emitInstr .add
    popped 1
  | .call callee _ args => do
    Expr.lowerArgs scope args
    callee.lower scope
    emitInstr (.call args.length)
    popped args.length

/-- The last argument comes first. -/
def Expr.lowerArgs (scope : Scope) : List Expr → Lowering Unit
  | [] => pure ()
  | e :: es => do
    Expr.lowerArgs scope es
    e.lower scope

end

mutual

def Stmt.lower (scope : Scope) : Stmt → Lowering Unit
  | .block _ body => do
    let before ← depth
    Stmt.lowerAll scope.enterBlock body
    let after ← depth
    unless after = before do throw (.depthOfBlock before after)
  | .loop _ condition body => do
    let entry ← newLabel
    let exit ← newLabel
    emit (.label entry)
    condition.lower scope
    emitInstr (.jumpFalse exit)
    popped 1
    body.lower scope
    emitInstr (.jump entry)
    emit (.label exit)
  | .ret _ value => do
    value.lower scope
    popped 1
    emitInstr (.ret (← depth) scope.paramCount)
  | .eval e => do
    e.lower scope
    emitInstr .pop
    popped 1

def Stmt.lowerAll (scope : Scope) : List Stmt → Lowering Unit
  | [] => pure ()
  | s :: ss => do
    s.lower scope
    Stmt.lowerAll scope ss

end

/-- The declarations of a program: what names mean at the top, and what is still to be lowered. -/
structure Declarations where
  scope : Scope
  natives : Array Native
  pending : Array (Definition × Label)

/-- Which primitives there are; asking may fail with a message. -/
abbrev PrimitiveNames := String → Except String Bool

namespace Declarations

def empty : Declarations := ⟨.empty, #[], #[]⟩

def define (d : Declarations) (name : String) (binding : Binding) :
    Except LoweringFault Declarations :=
  match d.scope.define name binding with
  | .ok scope => .ok { d with scope }
  | .error e => .error (.scope e)

def add (known : PrimitiveNames) (d : Declarations) : Item → Except LoweringFault Declarations
  | .definition f => do
    let d ← d.define f.header.name.text (.function d.pending.size)
    return { d with pending := d.pending.push (f, d.pending.size) }
  | .prototype p =>
    match known p.primitive with
    | .error message => .error (.registry message)
    | .ok false =>
      .error (.unknownPrimitive p.primitive p.header.name.text p.header.word)
    | .ok true => do
      let name := p.header.name.text
      let d ← d.define name (.native d.natives.size name)
      return { d with natives := d.natives.push ⟨name, p.primitive, p.header.params.length⟩ }
  | .stmt _ => .ok d

def ofProgram (known : PrimitiveNames) (p : Program) : Except LoweringFault Declarations :=
  p.items.foldlM (add known) empty

end Declarations

def Definition.lower (scope : Scope) (entry : Label) (d : Definition) : Lowering Unit := do
  emit (.label entry)
  setDepth 0
  d.block.lower (scope.enterFunction d.header.paramNames)
  let after ← depth
  unless after = 0 do throw (.depthOfFunction d.header.name.text after)

namespace Program

def lowerTop (scope : Scope) (p : Program) : Lowering Unit := do
  Stmt.lowerAll scope p.statements
  let after ← depth
  unless after = 0 do throw (.depthAtTop after)
  emitInstr .stop

def assembly (known : PrimitiveNames) (p : Program) : Except LoweringFault Assembly := do
  let d ← Declarations.ofProgram known p
  let lower : Lowering Unit := do
    p.lowerTop d.scope
    d.pending.toList.forM fun (f, entry) => f.lower d.scope entry
  let (_, draft) ← lower ⟨#[], 0, d.pending.size⟩
  let functions := d.pending.toList.map fun (f, entry) =>
    ⟨f.header.name.text, entry, f.header.params.length⟩
  return ⟨draft.lines, draft.labels, functions, d.natives⟩

end Program

end Tally
