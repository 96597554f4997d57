import Tally.Token.Segmentation

namespace Tally

inductive Region where
  | plain | string | comment
deriving DecidableEq, Repr

/-- The regions of characters that come right behind a region. The quotes of a string are part of
it, and so is the line end of a comment; a string does not go on behind a line end. -/
def Region.onward : Region → List Char → List Region
  | _, [] => []
  | .plain, c :: cs =>
    if c = '"' then .string :: onward .string cs
    else if c = '/' ∧ cs.head? = some '/' then .comment :: onward .comment cs
    else .plain :: onward .plain cs
  | .string, c :: cs => .string :: onward (if c = '"' ∨ c = '\n' then .plain else .string) cs
  | .comment, c :: cs => .comment :: onward (if c = '\n' then .plain else .comment) cs

def regions (cs : List Char) : List Region := Region.onward .plain cs

/-- Some token is spelt with this character first. -/
def BeginsToken (c : Char) : Prop := ∃ t : Token, t.Spelt ∧ t.lexeme.head? = some c

def Token.Covers (t : Token) (place : Nat) : Prop :=
  t.start.char ≤ place ∧ place < t.start.char + t.lexeme.length

/-- Every character of a text belongs to one of these tokens, which stand where they say, or is a
blank, or stands in a comment. -/
def AccountedBy (cs : List Char) (ts : List Token) : Prop :=
  ∀ i c, cs[i]? = some c → (∃ t ∈ ts, t.Covers i ∧ t.lexeme <+: cs.drop t.start.char) ∨
    isSpace c = true ∨ (regions cs)[i]? = some .comment

end Tally
