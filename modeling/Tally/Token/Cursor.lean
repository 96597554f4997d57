import Tally.Token

namespace Tally

inductive LexFault where
  | unknownCharacter (c : Char)
  | gluedNumber (digits : String) (c : Char)
  | numberTooLarge (digits : String)
  | unterminatedString
deriving DecidableEq, Repr

def LexFault.text : LexFault → String
  | unknownCharacter c => s!"unknown character '{c}'"
  | gluedNumber digits c => s!"invalid number literal: {digits}{c}"
  | numberTooLarge digits => s!"integer literal out of range: {digits}"
  | unterminatedString => "unterminated string literal"

abbrev LexError := Located LexFault

def LexError.message (e : LexError) : String := Located.message LexFault.text e

def decimalValue (digits : List Char) : Nat :=
  digits.foldl (fun n c => 10 * n + (c.toNat - '0'.toNat)) 0

def maxInt : Nat := 9223372036854775807

def isLetter (c : Char) : Bool := c.isAlpha || c = '_'

def isWordChar (c : Char) : Bool := isLetter c || c.isDigit

def isSpace (c : Char) : Bool := c = ' ' || c = '\t' || c = '\n' || c = '\r'

def isQuotable (c : Char) : Bool := c != '"' && c != '\n'

structure Cursor where
  rest : List Char
  position : Position
deriving DecidableEq

namespace Cursor

/-- The start of a text. A NUL character ends the text. -/
def ofText (s : String) : Cursor := ⟨s.toList.takeWhile (· ≠ '\x00'), Position.start⟩

def skipWhile (p : Char → Bool) (c : Cursor) : Cursor :=
  ⟨c.rest.dropWhile p, c.position.after (c.rest.takeWhile p)⟩

def skipOne (c : Cursor) : Cursor :=
  match c.rest with
  | [] => c
  | ch :: rest => ⟨rest, c.position.next ch⟩

/-- Past blanks and comments; a comment lasts from `//` to the end of its line. -/
def skipTriviaFrom (inComment : Bool) : List Char → Position → Cursor
  | [], p => ⟨[], p⟩
  | ch :: rest, p =>
    if inComment then skipTriviaFrom (ch ≠ '\n') rest (p.next ch)
    else if isSpace ch then skipTriviaFrom false rest (p.next ch)
    else if ch = '/' ∧ rest.head? = some '/' then skipTriviaFrom true rest (p.next ch)
    else ⟨ch :: rest, p⟩

def skipTrivia (c : Cursor) : Cursor := skipTriviaFrom false c.rest c.position

/-- Reads digits. A letter right after them is a fault at the letter. -/
def number (c : Cursor) : Except LexError Token × Cursor :=
  let digits := c.rest.takeWhile Char.isDigit
  let text := String.ofList digits
  let after := c.skipWhile Char.isDigit
  match after.rest.head?.filter isLetter with
  | some letter => (.error ⟨.gluedNumber text letter, after.position⟩, after)
  | none =>
    if decimalValue digits > maxInt then (.error ⟨.numberTooLarge text, c.position⟩, after)
    else (.ok ⟨.int, text, c.position⟩, after)

def word (c : Cursor) : Token × Cursor :=
  let text := String.ofList (c.rest.takeWhile isWordChar)
  (⟨.ofWord text, text, c.position⟩, c.skipWhile isWordChar)

/-- Reads from an opening quote to the next quote on the same line. -/
def string (c : Cursor) : Except LexError Token × Cursor :=
  let inside := c.skipOne
  let after := inside.skipWhile isQuotable
  if after.rest.head? = some '"' then
    let text := String.ofList (inside.rest.takeWhile isQuotable)
    (.ok ⟨.string, text, c.position⟩, after.skipOne)
  else (.error ⟨.unterminatedString, c.position⟩, after)

def token (c : Cursor) : Except LexError Token × Cursor :=
  match c.rest with
  | [] => (.ok ⟨.eof, "", c.position⟩, c)
  | ch :: _ =>
    if ch = '"' then c.string
    else if ch.isDigit then c.number
    else if isLetter ch then (.ok c.word.1, c.word.2)
    else match Token.Kind.ofChar? ch with
      | some kind => (.ok ⟨kind, ch.toString, c.position⟩, c.skipOne)
      | none => (.error ⟨.unknownCharacter ch, c.position⟩, c)

def next (c : Cursor) : Except LexError Token × Cursor := c.skipTrivia.token

theorem length_skipWhile_le (p : Char → Bool) (c : Cursor) :
    (c.skipWhile p).rest.length ≤ c.rest.length :=
  (List.dropWhile_suffix p).length_le

theorem length_skipWhile_lt {p : Char → Bool} {c : Cursor} {ch : Char} {rest : List Char}
    (head : c.rest = ch :: rest) (ok : p ch = true) :
    (c.skipWhile p).rest.length < c.rest.length := by
  have le := (List.dropWhile_suffix p (l := rest)).length_le
  simp only [skipWhile, head, List.dropWhile_cons, ok, if_true, List.length_cons]
  omega

theorem length_skipOne {c : Cursor} {ch : Char} {rest : List Char} (head : c.rest = ch :: rest) :
    c.skipOne.rest.length + 1 = c.rest.length := by
  simp [skipOne, head]

theorem length_skipTriviaFrom_le (inComment : Bool) (cs : List Char) (p : Position) :
    (skipTriviaFrom inComment cs p).rest.length ≤ cs.length := by
  induction cs generalizing inComment p with
  | nil => simp [skipTriviaFrom]
  | cons ch rest ih =>
    simp only [skipTriviaFrom, List.length_cons]
    have step (mode : Bool) : (skipTriviaFrom mode rest (p.next ch)).rest.length ≤ rest.length + 1 :=
      Nat.le_succ_of_le (ih mode (p.next ch))
    split
    · exact step _
    split
    · exact step _
    split
    · exact step _
    · simp

theorem length_token_lt {c after : Cursor} {t : Token} (h : c.token = (.ok t, after))
    (more : t.kind ≠ .eof) : after.rest.length < c.rest.length := by
  rcases hc : c.rest with _ | ⟨ch, rest⟩
  · simp only [token, hc, Prod.mk.injEq, Except.ok.injEq] at h
    simp [← h.1] at more
  have one := length_skipOne hc
  simp only [token, hc] at h
  rw [← hc]
  split at h
  · simp only [string] at h
    split at h
    · rename_i closed
      cases h
      have le := length_skipWhile_le isQuotable c.skipOne
      cases hr : (c.skipOne.skipWhile isQuotable).rest with
      | nil => simp [hr] at closed
      | cons q r =>
        have two := length_skipOne hr
        omega
    · cases h
  split at h
  · rename_i digit
    simp only [number] at h
    split at h
    · cases h
    · split at h
      · cases h
      · cases h
        exact length_skipWhile_lt hc digit
  split at h
  · rename_i letter
    cases h
    exact length_skipWhile_lt hc (by simp [isWordChar, letter])
  split at h
  · cases h
    omega
  · cases h

theorem length_next_lt {c after : Cursor} {t : Token} (h : c.next = (.ok t, after))
    (more : t.kind ≠ .eof) : after.rest.length < c.rest.length :=
  Nat.lt_of_lt_of_le (length_token_lt h more) (length_skipTriviaFrom_le _ _ _)

end Cursor

end Tally
