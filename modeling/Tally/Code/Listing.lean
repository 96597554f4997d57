import Tally.Code

namespace Tally

inductive ListingFault where
  | unknownOpcode (code offset : Nat)
  | outside (e : OutsideCode)
deriving DecidableEq

def ListingFault.message : ListingFault → String
  | unknownOpcode code offset => s!"unknown opcode {code} at offset {offset}"
  | outside e => e.message

namespace Code

/-- Reads the instructions from an offset on; `before` holds those so far, the last one first. -/
def instrsFrom (c : Code) (before : List (Nat × Instr Nat)) (offset : Nat) :
    Except ListingFault (List (Nat × Instr Nat)) :=
  if offset < c.length then
    match c.readByte offset with
    | .error e => .error (.outside e)
    | .ok byte =>
      match Opcode.ofCode? byte with
      | none => .error (.unknownOpcode byte offset)
      | some op =>
        match c.operandsAt (offset + 1) op with
        | .error e => .error (.outside e)
        | .ok i => instrsFrom c ((offset, i) :: before) (offset + op.size)
  else .ok before.reverse
termination_by c.length - offset
decreasing_by
  have : 1 ≤ op.size := Nat.le_add_right 1 _
  omega

def instrs (c : Code) : Except ListingFault (List (Nat × Instr Nat)) := c.instrsFrom [] 0

end Code

def blanks (n : Nat) : String := String.ofList (List.replicate n ' ')

def rightAligned (width : Nat) (s : String) : String := blanks (width - s.length) ++ s

def leftAligned (width : Nat) (s : String) : String := s ++ blanks (width - s.length)

def listingLine (offset name : String) (operands : List String) : String :=
  rightAligned 5 offset ++ "  " ++ String.intercalate " " (name :: operands)

def Instr.line (offset : Nat) (i : Instr Nat) : String :=
  listingLine (toString offset) i.opcode.name (i.operands.map fun o => toString o.toInt)

def EntryPoint.heading (f : EntryPoint) : String := s!"{f.name}/{f.arity.text}:"

namespace Code

def linesAt (c : Code) (offset : Nat) (i : Instr Nat) : List String :=
  let start := if offset = 0 then ["<main>:"] else []
  let entry := (c.functionAt? offset).toList.map EntryPoint.heading
  start ++ entry ++ [i.line offset]

def listingLines (c : Code) : Except ListingFault (List String) := do
  let instrs ← c.instrs
  return instrs.flatMap fun (offset, i) => c.linesAt offset i

def listing (c : Code) : Except ListingFault String := do
  return String.intercalate "\n" (← c.listingLines)

end Code

end Tally
