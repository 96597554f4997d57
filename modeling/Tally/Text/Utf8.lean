namespace Tally.Utf8

/-- A character under way: the bytes still owed, the bounds of the next one, and the bits so far. -/
structure Unfinished where
  owed : Nat
  least : Nat
  greatest : Nat
  bits : Nat

inductive Lead where
  | whole (c : Char)
  | begins (p : Unfinished)
  | invalid

def replacement : Char := Char.ofNat 0xFFFD

def lead (b : Nat) : Lead :=
  if b ≤ 0x7F then .whole (Char.ofNat b)
  else if 0xC2 ≤ b ∧ b ≤ 0xDF then .begins ⟨1, 0x80, 0xBF, b - 0xC0⟩
  else if b = 0xE0 then .begins ⟨2, 0xA0, 0xBF, 0⟩
  else if b = 0xED then .begins ⟨2, 0x80, 0x9F, 0xD⟩
  else if 0xE1 ≤ b ∧ b ≤ 0xEF then .begins ⟨2, 0x80, 0xBF, b - 0xE0⟩
  else if b = 0xF0 then .begins ⟨3, 0x90, 0xBF, 0⟩
  else if 0xF1 ≤ b ∧ b ≤ 0xF3 then .begins ⟨3, 0x80, 0xBF, b - 0xF0⟩
  else if b = 0xF4 then .begins ⟨3, 0x80, 0x8F, 4⟩
  else .invalid

/-- Reads one byte between characters; `out` holds the characters so far, the last one first. -/
def enter (b : Nat) (out : List Char) : Option Unfinished × List Char :=
  match lead b with
  | .whole c => (none, c :: out)
  | .begins p => (some p, out)
  | .invalid => (none, replacement :: out)

def step (under : Option Unfinished) (b : Nat) (out : List Char) : Option Unfinished × List Char :=
  match under with
  | none => enter b out
  | some p =>
    if p.least ≤ b ∧ b ≤ p.greatest then
      let bits := p.bits * 64 + (b - 0x80)
      if p.owed = 1 then (none, Char.ofNat bits :: out)
      else (some ⟨p.owed - 1, 0x80, 0xBF, bits⟩, out)
    else enter b (replacement :: out)

def decodeFrom (under : Option Unfinished) (out : List Char) : List UInt8 → List Char
  | [] => match under with
    | none => out.reverse
    | some _ => (replacement :: out).reverse
  | b :: bs =>
    let (under, out) := step under b.toNat out
    decodeFrom under out bs

/-- Bytes that belong to no character are replaced by U+FFFD, one for each longest piece that begins a
character and does not complete it. -/
def decode (bytes : List UInt8) : List Char := decodeFrom none [] bytes

end Tally.Utf8
