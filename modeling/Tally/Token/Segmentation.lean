import Tally.Token.Stream
import Mathlib.Algebra.Group.Nat.Defs

namespace Tally

/-- Blanks and comments, each comment with the line end behind it. -/
inductive Gap : List Char → Prop where
  | nil : Gap []
  | blank {c : Char} {cs : List Char} (space : isSpace c = true) (more : Gap cs) : Gap (c :: cs)
  | comment {body cs : List Char} (line : '\n' ∉ body) (more : Gap cs) :
    Gap ('/' :: '/' :: (body ++ '\n' :: cs))

/-- A gap at the end of a text, where the last comment may lack its line end. -/
def EndGap (cs : List Char) : Prop :=
  Gap cs ∨ ∃ gap body, Gap gap ∧ '\n' ∉ body ∧ cs = gap ++ '/' :: '/' :: body

def BeginsGap : List Char → Prop
  | [] => False
  | c :: cs => isSpace c = true ∨ (c = '/' ∧ cs.head? = some '/')

/-- No letter, digit or underscore comes first. -/
def EndsWord (cs : List Char) : Prop := ∀ c, cs.head? = some c → isWordChar c = false

namespace Token

def Kind.isWordLike : Kind → Bool
  | int | ident | funcWord | returnWord | whileWord => true
  | _ => false

def lexeme (t : Token) : List Char :=
  match t.kind with
  | .string => '"' :: (t.text.toList ++ ['"'])
  | _ => t.text.toList

/-- The text of a token fits its kind. The end of a text is no token of it. -/
def Spelt (t : Token) : Prop :=
  match t.kind with
  | .int => t.text.toList ≠ [] ∧ (∀ c ∈ t.text.toList, c.isDigit = true) ∧
      decimalValue t.text.toList ≤ 2 ^ 63 - 1
  | .string => ∀ c ∈ t.text.toList, c ≠ '"' ∧ c ≠ '\n'
  | .ident => (∃ c cs, t.text.toList = c :: cs ∧ isLetter c = true) ∧
      (∀ c ∈ t.text.toList, isWordChar c = true) ∧
      t.text ≠ "func" ∧ t.text ≠ "return" ∧ t.text ≠ "while"
  | .eof => False
  | kind => t.text = kind.text

def Maximal (t : Token) (rest : List Char) : Prop := t.kind.isWordLike = true → EndsWord rest

end Token

/-- From a place on, characters are gaps and tokens in turn, each token where it says; then comes
what is left over. -/
inductive Segmented : Position → List Char → List Token → Position → List Char → Prop where
  | done (p : Position) (cs : List Char) : Segmented p cs [] p cs
  | token {p q : Position} {gap rest left : List Char} {t : Token} {ts : List Token}
    (between : Gap gap) (place : t.start = p.after gap) (spelt : t.Spelt)
    (maximal : t.Maximal rest) (more : Segmented (t.start.after t.lexeme) rest ts q left) :
    Segmented p (gap ++ t.lexeme ++ rest) (t :: ts) q left

/-- Characters at a place that begin no gap and no token, with the error they give. -/
inductive Unreadable : Position → List Char → LexError → Prop where
  | character {p : Position} {c : Char} {cs : List Char} (noGap : ¬ BeginsGap (c :: cs))
    (noToken : ¬ ∃ t : Token, t.Spelt ∧ t.lexeme.head? = some c) :
    Unreadable p (c :: cs) ⟨.unknownCharacter c, p⟩
  | string {p : Position} {inside rest : List Char} (inner : ∀ c ∈ inside, c ≠ '"' ∧ c ≠ '\n')
    (cut : rest = [] ∨ rest.head? = some '\n') :
    Unreadable p ('"' :: (inside ++ rest)) ⟨.unterminatedString, p⟩
  | large {p : Position} {digits rest : List Char} (nonempty : digits ≠ [])
    (all : ∀ c ∈ digits, c.isDigit = true) (large : 2 ^ 63 - 1 < decimalValue digits)
    (ends : EndsWord rest) :
    Unreadable p (digits ++ rest) ⟨.numberTooLarge (String.ofList digits), p⟩
  | glued {p : Position} {digits rest : List Char} {c : Char} (nonempty : digits ≠ [])
    (all : ∀ c ∈ digits, c.isDigit = true) (letter : isLetter c = true) :
    Unreadable p (digits ++ c :: rest) ⟨.gluedNumber (String.ofList digits) c, p.after digits⟩

/-- What tokens, or the error in their place, tell about the characters of a text. -/
def Divides (cs : List Char) : Except LexError (List Token) → Prop
  | .ok ts => ∃ body q left, ts = body ++ [⟨.eof, "", Position.start.after cs⟩] ∧
      Segmented Position.start cs body q left ∧ EndGap left ∧
      (∀ t ∈ body, t.lexeme <+: cs.drop t.start.char) ∧
      (Position.start.after cs).char = cs.length
  | .error e => ∃ body q gap rest, Segmented Position.start cs body q (gap ++ rest) ∧ Gap gap ∧
      (∀ t ∈ body, t.lexeme <+: cs.drop t.start.char) ∧ Unreadable (q.after gap) rest e

end Tally
