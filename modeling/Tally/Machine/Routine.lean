import Tally.Machine.Fault
import Tally.Stack

namespace Tally

structure Machine (σ : Type) where
  pc : Nat
  stack : Stack
  host : σ

/-- Work on a machine; what was done before a trap stays done. -/
abbrev Exec (σ : Type) := EStateM Trap (Machine σ)

namespace Exec

variable {σ α : Type}

def fault (f : Fault) : Exec σ α := throw (.fault f none)

def height : Exec σ Nat := do return (← get).stack.height

def push (capacity : Nat) (v : Value) : Exec σ Unit := fun ⟨pc, stack, host⟩ =>
  if stack.height < capacity then .ok () ⟨pc, stack.push v, host⟩
  else .error (.fault .stackOverflow none) ⟨pc, stack, host⟩

def pop : Exec σ Value := fun ⟨pc, stack, host⟩ =>
  match stack.pop? with
  | some (v, rest) => .ok v ⟨pc, rest, host⟩
  | none => .error (.fault .stackUnderflow none) ⟨pc, stack, host⟩

def popInt : Exec σ Int64 := do
  match ← pop with
  | .int z => return z
  | v => fault (.expectedInt v.kind)

def peek (depth : Nat) : Exec σ Value := do
  match (← get).stack.peek? depth with
  | some v => return v
  | none => fault .stackUnderflow

def requireHeight (n : Nat) : Exec σ Unit := do
  if (← height) < n then fault .stackUnderflow

def drop (n : Nat) : Exec σ Unit := do
  requireHeight n
  modify fun ⟨pc, stack, host⟩ => ⟨pc, stack.drop n, host⟩

def advance (pc : Nat) : Exec σ Unit := modify fun m => { m with pc }

def jump (target : Number) : Exec σ Unit :=
  match target.toNat? with
  | some pc => advance pc
  | none => throw (.astray target)

def askHost (act : σ → Except String Int × σ) : Exec σ Int := fun ⟨pc, stack, host⟩ =>
  match act host with
  | (.ok z, host) => .ok z ⟨pc, stack, host⟩
  | (.error message, host) => .error (.foreign message) ⟨pc, stack, host⟩

end Exec

/-- What a native does, one request after the other. It sees the stack through its requests only. -/
inductive Routine (σ : Type) where
  | done
  | raise (t : Trap)
  | push (v : Value) (next : Routine σ)
  | pop (next : Value → Routine σ)
  | popInt (next : Int64 → Routine σ)
  | peek (depth : Nat) (next : Value → Routine σ)
  | height (next : Nat → Routine σ)
  | host (act : σ → Except String Int × σ) (next : Int → Routine σ)

/-- The routines by the names of primitives. Asking for one may fail with a message. -/
abbrev Registry (σ : Type) := String → Except String (Option (Routine σ))

def Registry.knows {σ : Type} (registry : Registry σ) (name : String) : Except String Bool :=
  Option.isSome <$> registry name

def Routine.exec {σ : Type} (capacity : Nat) : Routine σ → Exec σ Unit
  | done => pure ()
  | raise t => throw t
  | push v next => do
    Exec.push capacity v
    next.exec capacity
  | pop next => do (next (← Exec.pop)).exec capacity
  | popInt next => do (next (← Exec.popInt)).exec capacity
  | peek depth next => do (next (← Exec.peek depth)).exec capacity
  | height next => do (next (← Exec.height)).exec capacity
  | host act next => do (next (← Exec.askHost act)).exec capacity

end Tally
