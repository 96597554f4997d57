namespace Tally

/-- A place in a text, counted from zero in code points. -/
structure Position where
  char : Nat
  line : Nat
  column : Nat
deriving DecidableEq, Repr

namespace Position

def start : Position := ⟨0, 0, 0⟩

def next (p : Position) (c : Char) : Position :=
  if c = '\n' then ⟨p.char + 1, p.line + 1, 0⟩ else ⟨p.char + 1, p.line, p.column + 1⟩

def after (p : Position) (cs : List Char) : Position := cs.foldl next p

def suffix (p : Position) : String := s!" at line {p.line + 1}, column {p.column + 1}"

end Position

structure Located (α : Type) where
  cause : α
  position : Position
deriving DecidableEq

def Located.message {α : Type} (describe : α → String) (e : Located α) : String :=
  describe e.cause ++ e.position.suffix

end Tally
