import Tally.Program.Reading

namespace Tally

open Reading

/-- The deepest nesting of statements and of expressions, and the greatest height. -/
def nestingLimit : Nat := 500

namespace Expr

def measured (e : Expr) (at_ : Position) : Reading Expr :=
  if e.height > nestingLimit then abandon .expressionTooHigh at_ else pure e

def extended (nested : Nat → Reading Expr) (strength : Nat) (left : Expr) : Reading Expr :=
  iterate left fun left => do
    let t ← current
    if strength < t.kind.precedence then
      match t.kind with
      | .plus =>
        advance
        let right ← nested Precedence.sum
        .inl <$> measured (.add left t.start right) t.start
      | .lparen =>
        advance
        let args ← commaList (nested Precedence.lowest)
        let _ ← take .rparen
        .inl <$> measured (.call left t.start args) t.start
      | _ => return .inr left
    else return .inr left

def operand (nested : Nat → Reading Expr) : Reading Expr := do
  let t ← current
  match t.kind with
  | .ident =>
    advance
    return .ident ⟨t.text, t.start⟩
  | .int =>
    advance
    return .int t.text t.start
  | .lparen =>
    advance
    let e ← nested Precedence.lowest
    let _ ← take .rparen
    return e
  | kind => fail (.unexpected kind)

/-- Reads an expression with room for `room` levels, up to a token that binds no more strongly
than `strength`. -/
def parse : (room : Nat) → (strength : Nat) → Reading Expr
  | 0, _ => do abandon .expressionTooDeep (← current).start
  | room + 1, strength => do
    let left ← operand (parse room)
    extended (parse room) strength left

def parseWhole : Reading Expr := parse nestingLimit Precedence.lowest

end Expr

def tokensToSkip (inBlock : Bool) : List Token → Nat
  | [] => 0
  | t :: ts =>
    match t.kind with
    | .semicolon => 1
    | .rbrace => if inBlock then 0 else tokensToSkip inBlock ts + 1
    | .funcWord => 0
    | .whileWord | .returnWord => if inBlock then 0 else tokensToSkip inBlock ts + 1
    | _ => tokensToSkip inBlock ts + 1

/-- Passes over tokens after a fault. The token at fault is itself no place to go on, unless it
closes the block or ends the statement. -/
def recover (inBlock : Bool) : Reading Unit := fun s =>
  match s.tokens with
  | [] => .value () s
  | t :: ts =>
    if t.kind = .semicolon then advance s
    else if t.kind = .rbrace ∧ inBlock then .value () s
    else drop (tokensToSkip inBlock ts + 1) s

def skipSemicolon : Reading Unit := do
  if (← currentKind) = .semicolon then advance

def parseIdent : Reading Ident := do
  let t ← take .ident
  return ⟨t.text, t.start⟩

namespace Stmt

def parseBlock (nested : Reading Stmt) : Reading (Position × List Stmt) := do
  let brace ← take .lbrace
  let body ← iterate [] fun before => do
    let kind ← currentKind
    if kind = .rbrace ∨ kind = .eof then return .inr before.reverse
    .inl <$> orElse ((· :: before) <$> nested) (do recover true; return before)
  let _ ← take .rbrace
  return (brace.start, body)

def parseLoop (nested : Reading Stmt) : Reading Stmt := do
  let word ← take .whileWord
  let _ ← take .lparen
  let condition ← Expr.parseWhole
  let _ ← take .rparen
  let body ← nested
  return .loop word.start condition body

def parseReturn : Reading Stmt := do
  let word ← take .returnWord
  let value ← Expr.parseWhole
  return .ret word.start value

def parseBody (nested : Reading Stmt) : Reading Stmt := do
  match ← currentKind with
  | .lbrace =>
    let (brace, body) ← parseBlock nested
    return .block brace body
  | .whileWord => parseLoop nested
  | .returnWord => parseReturn
  | _ => .eval <$> Expr.parseWhole

def parse : (room : Nat) → Reading Stmt
  | 0 => do abandon .statementTooDeep (← current).start
  | room + 1 => do
    let s ← parseBody (parse room)
    skipSemicolon
    return s

end Stmt

def Param.parse : Reading Param := do
  let name ← parseIdent
  let _ ← take .colon
  let type ← parseIdent
  return ⟨name, type⟩

def Header.parse : Reading Header := do
  let word ← take .funcWord
  let name ← parseIdent
  let _ ← take .lparen
  let params ← commaList Param.parse
  let _ ← take .rparen
  let _ ← take .colon
  let result ← parseIdent
  return ⟨word.start, name, params, result⟩

namespace Item

def parseDeclaration : Reading Item := do
  let header ← Header.parse
  if (← currentKind) = .assign then
    advance
    let primitive ← take .string
    skipSemicolon
    return .prototype ⟨header, primitive.text⟩
  else
    let (brace, body) ← Stmt.parseBlock (Stmt.parse nestingLimit)
    skipSemicolon
    return .definition ⟨header, brace, body⟩

def parse : Reading Item := do
  if (← currentKind) = .funcWord then parseDeclaration
  else .stmt <$> Stmt.parse nestingLimit

def parseAll : Reading (List Item) :=
  iterate [] fun before => do
    if (← currentKind) = .eof then return .inr before.reverse
    .inl <$> orElse ((· :: before) <$> parse) (do recover false; return before)

end Item

inductive Rejection where
  | unreadableStart (e : LexError)
  | unreadable (e : LexError) (noted : List ParseError)
  | malformed (first : ParseError) (others : List ParseError)

namespace Program

/-- The verdict on a reading that came to its end: the first error noted decides. -/
def judge (items : List Item) (s : ReadingState) : Except Rejection Program :=
  match s.errors.reverse with
  | [] => .ok ⟨items⟩
  | first :: others => .error (.malformed first others)

def parse (text : String) : Except Rejection Program :=
  let s := ReadingState.ofStream (TokenStream.ofText text)
  match s.tokens, s.ending with
  | [], .fault e => .error (.unreadableStart e)
  | _, _ =>
    match Item.parseAll s with
    | .value items s => judge items s
    | .failed s => judge [] s
    | .abandoned .limit s => judge [] s
    | .abandoned (.unreadable e) s => .error (.unreadable e s.errors.reverse)

end Program

end Tally
