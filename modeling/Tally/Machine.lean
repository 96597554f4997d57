import Tally.Code.Reader
import Tally.Machine.Routine

namespace Tally

/-- What a run is given: the code, the routines of its natives, and the height of the stack. -/
structure Setup (σ : Type) where
  code : Code
  registry : Registry σ
  capacity : Nat

def defaultCapacity : Nat := 65536

structure Event where
  pc : Nat
  op : Opcode
  height : Nat
  top : Option Value
deriving DecidableEq

def Code.fetch (c : Code) (pc : Nat) : Except Fault Opcode :=
  match Reader.nextByte ⟨c, pc⟩ with
  | .error _ => .error (.outsideCode pc)
  | .ok (byte, _) =>
    match Opcode.ofCode? byte with
    | some op => .ok op
    | none => .error (.unknownOpcode byte)

namespace Setup

variable {σ : Type}

def readOn {α : Type} (setup : Setup σ) (read : Reader → Except OutsideCode (α × Reader)) :
    Exec σ α :=
  fun ⟨pc, stack, host⟩ =>
    match read ⟨setup.code, pc⟩ with
    | .ok (a, r) => .ok a ⟨r.pc, stack, host⟩
    | .error e => .error (.outOfRange e.message) ⟨pc, stack, host⟩

def readCount (setup : Setup σ) : Exec σ Nat := setup.readOn Reader.nextCount

def readNumber (setup : Setup σ) : Exec σ Int := setup.readOn Reader.nextNumber

def decode (setup : Setup σ) : Opcode → Exec σ (Instr Nat)
  | .pushFunc => .pushFunc <$> setup.readCount
  | .pushNative => .pushNative <$> setup.readCount
  | .pushInt => .pushInt <$> setup.readNumber
  | .peek => .peek <$> setup.readCount
  | .pop => pure .pop
  | .add => pure .add
  | .call => .call <$> setup.readCount
  | .ret => do
    let depth ← setup.readCount
    let args ← setup.readCount
    return .ret depth args
  | .jumpFalse => .jumpFalse <$> setup.readCount
  | .jump => .jump <$> setup.readCount
  | .stop => pure .stop

def push (setup : Setup σ) (v : Value) : Exec σ Unit := Exec.push setup.capacity v

/-- Calls a native; it has to replace its arguments by one result. -/
def callNative (setup : Setup σ) (n : Native) (args : Nat) : Exec σ Unit := do
  if n.arity ≠ args then Exec.fault (.nativeArity n.name n.arity args)
  Exec.requireHeight args
  let before ← Exec.height
  match setup.registry n.primitive with
  | .ok (some routine) => routine.exec setup.capacity
  | _ => throw (.foreign s!"no primitive '{n.primitive}'")
  let after ← Exec.height
  if after ≠ before - args + 1 then Exec.fault (.unbalancedNative n.name args)

/-- Calls the function at an address, leaving the place after the call on the stack. -/
def callFunction (setup : Setup σ) (address : Number) (args : Nat) : Exec σ Unit := do
  match setup.code.functionAt? address with
  | none => Exec.fault (.notAnEntry address)
  | some f =>
    if f.arity ≠ args then Exec.fault (.functionArity f.name f.arity args)
    Exec.requireHeight args
    setup.push (.address ((← get).pc : Number))
    Exec.jump address

def call (setup : Setup σ) (args : Nat) : Exec σ Unit := do
  match ← Exec.pop with
  | .native n => setup.callNative n args
  | .address a => setup.callFunction a args
  | .int _ => Exec.fault (.notCallable .int)

/-- Leaves a function: its result replaces `depth` values, the return address and the
arguments. -/
def ret (setup : Setup σ) (depth args : Nat) : Exec σ Unit := do
  let result ← Exec.pop
  Exec.drop depth
  match ← Exec.pop with
  | .address target =>
    Exec.drop args
    setup.push result
    Exec.jump target
  | v => Exec.fault (.notAReturnAddress v)

def add (setup : Setup σ) : Exec σ Unit := do
  let right ← Exec.pop
  let left ← Exec.pop
  match left, right with
  | .int a, .int b => setup.push (.int (a + b))
  | _, _ => Exec.fault (.operands left.kind right.kind)

def perform (setup : Setup σ) : Instr Nat → Exec σ Unit
  | .pushFunc target => setup.push (.address target)
  | .pushNative index =>
    match setup.code.natives[index]? with
    | some n => setup.push (.native n)
    | none => Exec.fault (.nativeIndex index)
  | .pushInt value => setup.push (.ofInt value)
  | .peek depth => do setup.push (← Exec.peek depth)
  | .pop => do let _ ← Exec.pop
  | .add => setup.add
  | .call args => setup.call args
  | .ret depth args => setup.ret depth args
  | .jumpFalse target => do
    let v ← Exec.pop
    unless v.truthy do Exec.advance target
  | .jump target => Exec.advance target
  | .stop => pure ()

def execute (setup : Setup σ) (pc : Nat) (op : Opcode) : Exec σ Unit := do
  Exec.advance (pc + 1)
  setup.perform (← setup.decode op)

end Setup

namespace Machine

variable {σ τ : Type}

def start (host : σ) : Machine σ := ⟨0, .empty, host⟩

def event (m : Machine σ) (op : Opcode) : Event := ⟨m.pc, op, m.stack.height, m.stack.top?⟩

inductive Step (σ : Type) where
  | next (m : Machine σ)
  | halt (why : Halt) (m : Machine σ)

def step (setup : Setup σ) (op : Opcode) (m : Machine σ) : Step σ :=
  if op = .stop then .halt .stopped m
  else
    match setup.execute m.pc op m with
    | .ok () m' => .next m'
    | .error t m' => .halt (t.halt setup.code.length m.pc) m'

/-- Executes at most `limit` instructions. Each is shown to `observe` before it is executed. -/
def run (setup : Setup σ) (observe : τ → Event → τ) (limit : Nat) (seen : τ) (m : Machine σ) :
    Halt × τ × Machine σ :=
  match setup.code.fetch m.pc with
  | .error f => (.fault f m.pc, seen, m)
  | .ok op =>
    match limit with
    | 0 => (.exhausted, seen, m)
    | limit + 1 =>
      let seen := observe seen (m.event op)
      match m.step setup op with
      | .next m' => run setup observe limit seen m'
      | .halt why m' => (why, seen, m')

end Machine

end Tally
