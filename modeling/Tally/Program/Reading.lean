import Tally.Program
import Tally.Token.Stream

namespace Tally

inductive ParseFault where
  | expected (wanted got : Token.Kind)
  | unexpected (got : Token.Kind)
  | statementTooDeep
  | expressionTooDeep
  | expressionTooHigh
deriving DecidableEq, Repr

def ParseFault.text : ParseFault → String
  | expected wanted got => s!"expected {wanted.text}, got {got.text}"
  | unexpected got => s!"unexpected token {got.text}"
  | statementTooDeep => "statements nested too deeply"
  | expressionTooDeep => "maximum expression depth exceeded"
  | expressionTooHigh => "expression nesting too deep"

abbrev ParseError := Located ParseFault

def ParseError.message (e : ParseError) : String := Located.message ParseFault.text e

/-- Why a text is abandoned: a nesting limit, which is noted as an error, or an unreadable token. -/
inductive Abandonment where
  | limit
  | unreadable (e : LexError)
deriving DecidableEq

/-- The tokens from the current one on, and the errors noted, the last one first. -/
structure ReadingState where
  tokens : List Token
  count : Nat
  count_eq : count = tokens.length
  ending : Ending
  errors : List ParseError

inductive Outcome (α : Type) where
  | value (a : α) (s : ReadingState)
  | failed (s : ReadingState)
  | abandoned (why : Abandonment) (s : ReadingState)

/-- A reading takes tokens from the front; it gives a value, or fails after noting why, or abandons
the text. One token after the current one is always looked at, so a text that ends in a fault is
abandoned when its last good token would become current. -/
def Reading (α : Type) : Type := ReadingState → Outcome α

namespace ReadingState

def current (s : ReadingState) : Token :=
  match s.tokens, s.ending with
  | t :: _, _ => t
  | [], .eof position => ⟨.eof, "", position⟩
  | [], .fault e => ⟨.eof, "", e.position⟩

def drop (s : ReadingState) (n : Nat) : ReadingState :=
  { s with tokens := s.tokens.drop n, count := s.count - n, count_eq := by simp [s.count_eq] }

def note (s : ReadingState) (e : ParseError) : ReadingState := { s with errors := e :: s.errors }

def ofStream (stream : TokenStream) : ReadingState :=
  let tokens := match stream.ending with
    | .eof _ => stream.tokens
    | .fault _ => stream.tokens.dropLast
  ⟨tokens, tokens.length, rfl, stream.ending, []⟩

end ReadingState

namespace Reading

variable {α β : Type}

instance : Monad Reading where
  pure a := fun s => .value a s
  bind r f := fun s =>
    match r s with
    | .value a s => f a s
    | .failed s => .failed s
    | .abandoned why s => .abandoned why s

def current : Reading Token := fun s => .value s.current s

def currentKind : Reading Token.Kind := fun s => .value s.current.kind s

def drop (n : Nat) : Reading Unit := fun s =>
  let s := s.drop n
  match s.tokens, s.ending with
  | [], .fault e => .abandoned (.unreadable e) s
  | _, _ => .value () s

def advance : Reading Unit := drop 1

def fail (cause : ParseFault) : Reading α := fun s => .failed (s.note ⟨cause, s.current.start⟩)

def abandon (cause : ParseFault) (at_ : Position) : Reading α := fun s =>
  .abandoned .limit (s.note ⟨cause, at_⟩)

def take (kind : Token.Kind) : Reading Token := do
  let t ← current
  if t.kind = kind then
    advance
    return t
  else fail (.expected kind t.kind)

def orElse (r rescue : Reading α) : Reading α := fun s =>
  match r s with
  | .failed s => rescue s
  | outcome => outcome

/-- Repeats `step` until it gives a result. A round that passes over no token ends it. -/
def iterate (a : α) (step : α → Reading (α ⊕ β)) : Reading β := fun s =>
  match step a s with
  | .value (.inr b) s' => .value b s'
  | .value (.inl a') s' => if s'.count < s.count then iterate a' step s' else .failed s'
  | .failed s' => .failed s'
  | .abandoned why s' => .abandoned why s'
termination_by s => s.count

/-- Items with commas between them, up to a closing parenthesis; a comma may end the list. -/
def commaList (item : Reading α) : Reading (List α) :=
  iterate [] fun before => do
    let kind ← currentKind
    if kind = .rparen ∨ kind = .eof then return .inr before.reverse
    let a ← item
    if (← currentKind) = .comma then
      advance
      return .inl (a :: before)
    else return .inr (a :: before).reverse

end Reading

end Tally
