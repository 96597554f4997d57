import Tally.Program.Grammar
import Tally.Program.Lawful

namespace Tally

mutual

/-- The statements on the longest way inwards, itself among them. -/
def Stmt.nesting : Stmt → Nat
  | .block _ body => Stmt.greatestNesting body + 1
  | .loop _ _ body => body.nesting + 1
  | .ret .. => 1
  | .eval _ => 1

def Stmt.greatestNesting : List Stmt → Nat
  | [] => 0
  | s :: ss => max s.nesting (Stmt.greatestNesting ss)

end

def Item.parts : Item → List Stmt
  | .definition d => d.block.parts
  | .prototype _ => []
  | .stmt s => s.parts

def Program.parts (p : Program) : List Stmt := p.items.flatMap Item.parts

def Program.subterms (p : Program) : List Expr :=
  p.parts.flatMap fun s => s.operands.flatMap Expr.subterms

def Item.nesting : Item → Nat
  | .definition d => Stmt.greatestNesting d.body
  | .prototype _ => 0
  | .stmt s => s.nesting

namespace Grammar

mutual

/-- An operand at a level, where it and all expressions in it are at allowed levels. The
expression of a statement or of a condition is at level 1; what stands in parentheses, an argument
and the right operand of a sum are one level below the expression they are in. -/
inductive OperandAt (trailing : Prop) (allowed : Nat → Prop) :
    Nat → Expr → List Token → Prop where
  | ident {level : Nat} {t : Token} (here : allowed level) (kind : t.kind = .ident) :
    OperandAt trailing allowed level (.ident ⟨t.text, t.start⟩) [t]
  | int {level : Nat} {t : Token} (here : allowed level) (kind : t.kind = .int) :
    OperandAt trailing allowed level (.int t.text t.start) [t]
  | group {level : Nat} {l r : Token} {e : Expr} {us : List Token} (here : allowed level)
    (opens : l.kind = .lparen) (inner : SumAt trailing allowed (level + 1) e us)
    (closes : r.kind = .rparen) : OperandAt trailing allowed level e (l :: (us ++ [r]))
  | call {level : Nat} {l r : Token} {callee : Expr} {args : List Expr} {us vs : List Token}
    (called : OperandAt trailing allowed level callee us) (opens : l.kind = .lparen)
    (list : ArgumentsAt trailing allowed (level + 1) args vs) (closes : r.kind = .rparen) :
    OperandAt trailing allowed level (.call callee l.start args) (us ++ l :: (vs ++ [r]))

inductive SumAt (trailing : Prop) (allowed : Nat → Prop) : Nat → Expr → List Token → Prop where
  | operand {level : Nat} {e : Expr} {us : List Token}
    (only : OperandAt trailing allowed level e us) : SumAt trailing allowed level e us
  | add {level : Nat} {t : Token} {left right : Expr} {us vs : List Token}
    (first : SumAt trailing allowed level left us) (plus : t.kind = .plus)
    (last : OperandAt trailing allowed (level + 1) right vs) :
    SumAt trailing allowed level (.add left t.start right) (us ++ t :: vs)

inductive ArgumentsAt (trailing : Prop) (allowed : Nat → Prop) :
    Nat → List Expr → List Token → Prop where
  | nil {level : Nat} : ArgumentsAt trailing allowed level [] []
  | last {level : Nat} {e : Expr} {us : List Token} (item : SumAt trailing allowed level e us) :
    ArgumentsAt trailing allowed level [e] us
  | cons {level : Nat} {e : Expr} {es : List Expr} {us vs : List Token} {t : Token}
    (item : SumAt trailing allowed level e us) (comma : t.kind = .comma)
    (more : ArgumentsAt trailing allowed level es vs) (ends : es = [] → trailing) :
    ArgumentsAt trailing allowed level (e :: es) (us ++ t :: vs)

end

mutual

/-- A statement up to its semicolon; `value` tells which expressions may be read from which
tokens. -/
inductive ClauseOf (g : Grammar) (value : Expr → List Token → Prop) :
    Stmt → List Token → Token.Kind → Prop where
  | block {l r : Token} {body : List Stmt} {us : List Token} {next : Token.Kind}
    (opens : l.kind = .lbrace) (inner : Sequence (StatementOf g value) body us .rbrace)
    (closes : r.kind = .rbrace) : ClauseOf g value (.block l.start body) (l :: (us ++ [r])) next
  | loop {w l r : Token} {condition : Expr} {body : Stmt} {us vs : List Token}
    {next : Token.Kind} (word : w.kind = .whileWord) (opens : l.kind = .lparen)
    (tested : value condition us) (closes : r.kind = .rparen)
    (repeated : StatementOf g value body vs next) :
    ClauseOf g value (.loop w.start condition body) (w :: l :: (us ++ r :: vs)) next
  | ret {w : Token} {e : Expr} {us : List Token} {next : Token.Kind}
    (word : w.kind = .returnWord) (returned : value e us) (stop : g.afterOperand next) :
    ClauseOf g value (.ret w.start e) (w :: us) next
  | eval {e : Expr} {us : List Token} {next : Token.Kind} (evaluated : value e us)
    (stop : g.afterOperand next) : ClauseOf g value (.eval e) us next

inductive StatementOf (g : Grammar) (value : Expr → List Token → Prop) :
    Stmt → List Token → Token.Kind → Prop where
  | ended {s : Stmt} {us ws : List Token} {next : Token.Kind}
    (body : ClauseOf g value s us (firstKind ws next)) (closing : Closing g ws next) :
    StatementOf g value s (us ++ ws) next

end

inductive EntryOf (g : Grammar) (value : Expr → List Token → Prop) :
    Item → List Token → Token.Kind → Prop where
  | prototype {h : Header} {assign primitive : Token} {us ws : List Token} {next : Token.Kind}
    (heading : Heading g.trailing h us) (assigns : assign.kind = .assign)
    (named : primitive.kind = .string) (closing : Closing g ws next) :
    EntryOf g value (.prototype ⟨h, primitive.text⟩) (us ++ assign :: primitive :: ws) next
  | definition {d : Definition} {us vs ws : List Token} {next : Token.Kind}
    (heading : Heading g.trailing d.header us)
    (body : ClauseOf g value d.block vs (firstKind ws next)) (closing : Closing g ws next) :
    EntryOf g value (.definition d) (us ++ (vs ++ ws)) next
  | stmt {s : Stmt} {us : List Token} {next : Token.Kind} (whole : StatementOf g value s us next) :
    EntryOf g value (.stmt s) us next

def DerivesOf (g : Grammar) (value : Expr → List Token → Prop) (p : Program) (ts : List Token) :
    Prop := Sequence (EntryOf g value) p.items ts .eof

/-- A derivation where no expression is at a level above `limit`. -/
def DerivesWithin (g : Grammar) (limit : Nat) : Program → List Token → Prop :=
  g.DerivesOf (SumAt g.trailing (· ≤ limit) 1)

end Grammar

end Tally
