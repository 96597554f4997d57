import Tally.Code

namespace Tally

/-- Reads code in order: it moves on by what it reads. -/
structure Reader where
  code : Code
  pc : Nat

namespace Reader

def next {α : Type} (r : Reader) (size : Nat) (read : Code → Nat → Except OutsideCode α) :
    Except OutsideCode (α × Reader) := do
  let a ← read r.code r.pc
  return (a, { r with pc := r.pc + size })

def nextByte (r : Reader) : Except OutsideCode (Nat × Reader) := r.next 1 Code.readByte

def nextCount (r : Reader) : Except OutsideCode (Nat × Reader) := r.next 4 Code.readCount

def nextNumber (r : Reader) : Except OutsideCode (Int × Reader) := r.next 8 Code.readNumber

variable {α : Type} {c : Code} {pc : Nat}

theorem next_of_ok {read : Code → Nat → Except OutsideCode α} {a : α} (found : read c pc = .ok a)
    (size : Nat) : next ⟨c, pc⟩ size read = .ok (a, ⟨c, pc + size⟩) := by
  simp only [next, found]
  rfl

theorem next_of_error {read : Code → Nat → Except OutsideCode α} {e : OutsideCode}
    (missing : read c pc = .error e) (size : Nat) : next ⟨c, pc⟩ size read = .error e := by
  simp only [next, missing]
  rfl

end Reader

end Tally
