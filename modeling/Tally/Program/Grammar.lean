import Tally.Program

namespace Tally

/-- Which tokens may stand where a documented rule leaves it open. The rules are

    program := (decl | stmt)*
    decl    := "func" IDENT "(" params? ")" ":" IDENT ( "=" STRING | block ) ";"?
    params  := IDENT ":" IDENT ("," IDENT ":" IDENT)*
    stmt    := (block | "while" "(" expr ")" stmt | "return" expr | expr) ";"?
    block   := "{" stmt* "}"
    expr    := call ("+" call)*
    call    := primary ("(" args? ")")*
    args    := expr ("," expr)*
    primary := IDENT | INT | "(" expr ")"

so `f (x)` is a call or two statements, and a semicolon may end a loop or its body. -/
structure Grammar where
  /-- Whether a comma may end a list that is not empty. -/
  trailing : Prop
  /-- What may come after an expression that ends a statement. -/
  afterOperand : Token.Kind → Prop
  /-- What may come after a statement that takes no semicolon. -/
  afterBare : Token.Kind → Prop

namespace Grammar

def documented : Grammar := ⟨False, fun _ => True, fun _ => True⟩

/-- The documented grammar, where a comma may end a list. -/
def extended : Grammar := { documented with trailing := True }

/-- A parenthesis after an operand is always that of a call, and a semicolon belongs to the
innermost statement that can take it. -/
def greedy : Grammar := ⟨True, (· ≠ .lparen), (· ≠ .semicolon)⟩

def firstKind : List Token → Token.Kind → Token.Kind
  | [], next => next
  | t :: _, _ => t.kind

section

variable {α : Type}

inductive CommaList (trailing : Prop) (one : α → List Token → Prop) :
    List α → List Token → Prop where
  | nil : CommaList trailing one [] []
  | last {a : α} {us : List Token} (item : one a us) : CommaList trailing one [a] us
  | cons {a : α} {as : List α} {us vs : List Token} {t : Token} (item : one a us)
    (comma : t.kind = .comma) (more : CommaList trailing one as vs) (ends : as = [] → trailing) :
    CommaList trailing one (a :: as) (us ++ t :: vs)

/-- Items one after the other, each told what comes behind it. -/
inductive Sequence (one : α → List Token → Token.Kind → Prop) :
    List α → List Token → Token.Kind → Prop where
  | nil (next : Token.Kind) : Sequence one [] [] next
  | cons {a : α} {as : List α} {us vs : List Token} {next : Token.Kind}
    (first : one a us (firstKind vs next)) (more : Sequence one as vs next) :
    Sequence one (a :: as) (us ++ vs) next

end

inductive Closing (g : Grammar) : List Token → Token.Kind → Prop where
  | none {next : Token.Kind} (stop : g.afterBare next) : Closing g [] next
  | semicolon {t : Token} {next : Token.Kind} (kind : t.kind = .semicolon) : Closing g [t] next

mutual

/-- Tokens between the plus signs of an expression. Parentheses leave no mark in the tree. -/
inductive Operand (trailing : Prop) : Expr → List Token → Prop where
  | ident {t : Token} (kind : t.kind = .ident) : Operand trailing (.ident ⟨t.text, t.start⟩) [t]
  | int {t : Token} (kind : t.kind = .int) : Operand trailing (.int t.text t.start) [t]
  | group {l r : Token} {e : Expr} {us : List Token} (opens : l.kind = .lparen)
    (inner : Sum trailing e us) (closes : r.kind = .rparen) : Operand trailing e (l :: (us ++ [r]))
  | call {l r : Token} {callee : Expr} {args : List Expr} {us vs : List Token}
    (called : Operand trailing callee us) (opens : l.kind = .lparen)
    (list : CommaList trailing (Sum trailing) args vs) (closes : r.kind = .rparen) :
    Operand trailing (.call callee l.start args) (us ++ l :: (vs ++ [r]))

/-- Operands with plus signs between them, added from left to right. -/
inductive Sum (trailing : Prop) : Expr → List Token → Prop where
  | operand {e : Expr} {us : List Token} (only : Operand trailing e us) : Sum trailing e us
  | add {t : Token} {left right : Expr} {us vs : List Token} (first : Sum trailing left us)
    (plus : t.kind = .plus) (last : Operand trailing right vs) :
    Sum trailing (.add left t.start right) (us ++ t :: vs)

end

mutual

inductive Clause (g : Grammar) : Stmt → List Token → Token.Kind → Prop where
  | block {l r : Token} {body : List Stmt} {us : List Token} {next : Token.Kind}
    (opens : l.kind = .lbrace) (inner : Sequence (Statement g) body us .rbrace)
    (closes : r.kind = .rbrace) : Clause g (.block l.start body) (l :: (us ++ [r])) next
  | loop {w l r : Token} {condition : Expr} {body : Stmt} {us vs : List Token}
    {next : Token.Kind} (word : w.kind = .whileWord) (opens : l.kind = .lparen)
    (tested : Sum g.trailing condition us) (closes : r.kind = .rparen)
    (repeated : Statement g body vs next) :
    Clause g (.loop w.start condition body) (w :: l :: (us ++ r :: vs)) next
  | ret {w : Token} {value : Expr} {us : List Token} {next : Token.Kind}
    (word : w.kind = .returnWord) (returned : Sum g.trailing value us) (stop : g.afterOperand next) :
    Clause g (.ret w.start value) (w :: us) next
  | eval {e : Expr} {us : List Token} {next : Token.Kind} (value : Sum g.trailing e us)
    (stop : g.afterOperand next) : Clause g (.eval e) us next

inductive Statement (g : Grammar) : Stmt → List Token → Token.Kind → Prop where
  | ended {s : Stmt} {us ws : List Token} {next : Token.Kind}
    (body : Clause g s us (firstKind ws next)) (closing : Closing g ws next) :
    Statement g s (us ++ ws) next

end

inductive Parameter : Param → List Token → Prop where
  | typed {name colon type : Token} (named : name.kind = .ident) (colons : colon.kind = .colon)
    (types : type.kind = .ident) :
    Parameter ⟨⟨name.text, name.start⟩, ⟨type.text, type.start⟩⟩ [name, colon, type]

inductive Heading (trailing : Prop) : Header → List Token → Prop where
  | typed {w name l r colon type : Token} {params : List Param} {us : List Token}
    (word : w.kind = .funcWord) (named : name.kind = .ident) (opens : l.kind = .lparen)
    (list : CommaList trailing Parameter params us) (closes : r.kind = .rparen)
    (colons : colon.kind = .colon) (types : type.kind = .ident) :
    Heading trailing ⟨w.start, ⟨name.text, name.start⟩, params, ⟨type.text, type.start⟩⟩
      (w :: name :: l :: (us ++ [r, colon, type]))

inductive Entry (g : Grammar) : Item → List Token → Token.Kind → Prop where
  | prototype {h : Header} {assign primitive : Token} {us ws : List Token} {next : Token.Kind}
    (heading : Heading g.trailing h us) (assigns : assign.kind = .assign)
    (named : primitive.kind = .string) (closing : Closing g ws next) :
    Entry g (.prototype ⟨h, primitive.text⟩) (us ++ assign :: primitive :: ws) next
  | definition {d : Definition} {us vs ws : List Token} {next : Token.Kind}
    (heading : Heading g.trailing d.header us) (body : Clause g d.block vs (firstKind ws next))
    (closing : Closing g ws next) : Entry g (.definition d) (us ++ (vs ++ ws)) next
  | stmt {s : Stmt} {us : List Token} {next : Token.Kind} (whole : Statement g s us next) :
    Entry g (.stmt s) us next

/-- The tokens of a whole text derive a program. -/
def Derives (g : Grammar) (p : Program) (ts : List Token) : Prop :=
  Sequence (Entry g) p.items ts .eof

end Grammar

end Tally
