import Tally.Token.Cursor

namespace Tally

abbrev LexAnswer := Except LexError Token

def placeTold : LexAnswer → Position
  | .ok t => t.start
  | .error e => e.position

def Cursor.answers (c : Cursor) : Nat → List LexAnswer
  | 0 => []
  | n + 1 => c.next.1 :: c.next.2.answers n

/-- A place that lies in a text and is told as counted there: lines by the line ends before it,
columns by what stands behind the last of these. -/
structure Position.Counted (p : Position) (cs : List Char) : Prop where
  inside : p.char ≤ cs.length
  line : p.line = (cs.take p.char).count '\n'
  column : p.column = ((cs.take p.char).reverse.takeWhile (· ≠ '\n')).length

/-- Answers about a text tell places as they are counted in it and never go back, and behind the
end there is only the end. -/
structure Tracks (cs : List Char) (answers : List LexAnswer) : Prop where
  counted : ∀ a ∈ answers, (placeTold a).Counted cs
  forward : answers.Pairwise fun a b => (placeTold a).char ≤ (placeTold b).char
  ended : answers.Pairwise fun a b => ∀ t, a = .ok t → t.kind = .eof → b = a

end Tally
