import Tally.Value

namespace Tally

inductive Fault where
  | stackOverflow
  | stackUnderflow
  | expectedInt (got : Value.Kind)
  | operands (left right : Value.Kind)
  | notCallable (got : Value.Kind)
  | functionArity (name : String) (arity : Number) (args : Nat)
  | nativeArity (name : String) (arity : Number) (args : Nat)
  | notAnEntry (address : Number)
  | notAReturnAddress (v : Value)
  | nativeIndex (index : Nat)
  | unbalancedNative (name : String) (args : Nat)
  | outsideCode (pc : Number)
  | unknownOpcode (code : Nat)
  | truncated (pc : Nat) (reason : String)
  /-- Raised by a native in the machine's name. -/
  | raised (message : String)
deriving DecidableEq

def Fault.message : Fault → String
  | stackOverflow => "stack overflow"
  | stackUnderflow => "stack underflow"
  | expectedInt got => s!"expected int, got {got.text}"
  | operands left right => s!"unsupported operand types for +: {left.text} and {right.text}"
  | notCallable got => s!"cannot call value of type {got.text}"
  | functionArity name arity args =>
    s!"function '{name}' expects {arity.text} argument(s), got {args}"
  | nativeArity name arity args =>
    s!"native '{name}' expects {arity.text} argument(s), got {args}"
  | notAnEntry address => s!"invalid call target: address {address.text} is not a function entry"
  | notAReturnAddress v => s!"invalid return address: {v.text}"
  | nativeIndex index => s!"native index {index} is out of range"
  | unbalancedNative name args =>
    s!"native '{name}' must consume {args} argument(s) and push one result"
  | outsideCode pc => s!"program counter {pc.text} is outside the code"
  | unknownOpcode code => s!"unknown opcode {code}"
  | truncated pc reason => s!"truncated instruction at {pc}: {reason}"
  | raised message => message

/-- What breaks off an instruction. A fault may come with a place of its own. -/
inductive Trap where
  | fault (f : Fault) (pc : Option Number)
  /-- A number out of its range, an offset outside the code among others. -/
  | outOfRange (message : String)
  /-- A jump to a number that is no natural number. -/
  | astray (target : Number)
  /-- An error from the surroundings, which is none of the machine's. -/
  | foreign (message : String)
deriving DecidableEq

inductive Halt where
  | stopped
  | fault (f : Fault) (pc : Number)
  | unreadable (e : OutsideCode)
  | foreign (message : String)
  | exhausted
deriving DecidableEq

/-- How a run of code of the given length ends that is broken off at the instruction at `pc`. -/
def Trap.halt (length pc : Nat) : Trap → Halt
  | fault f none => .fault f pc
  | fault f (some own) => .fault f own
  | outOfRange message => .fault (.truncated pc message) pc
  | astray target =>
    if length ≤ target then .fault (.outsideCode target) target
    else .unreadable ⟨1, target, length⟩
  | foreign message => .foreign message

end Tally
