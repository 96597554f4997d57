import Tally.Program

namespace Tally

inductive Mark where
  | name (text : String) (position : Position)
  | number (digits : String) (position : Position)
  | primitive (text : String)
  /-- Of the other tokens a tree keeps the place. -/
  | sign (kind : Token.Kind) (position : Position)
deriving DecidableEq, Repr

def Ident.mark (name : Ident) : Mark := .name name.text name.position

mutual

def Expr.marks : Expr → List Mark
  | .int digits position => [.number digits position]
  | .ident name => [name.mark]
  | .add left plus right => left.marks ++ .sign .plus plus :: right.marks
  | .call callee paren args => callee.marks ++ .sign .lparen paren :: Expr.allMarks args

def Expr.allMarks : List Expr → List Mark
  | [] => []
  | e :: es => e.marks ++ Expr.allMarks es

end

mutual

def Stmt.marks : Stmt → List Mark
  | .block brace body => .sign .lbrace brace :: Stmt.allMarks body
  | .loop word condition body => .sign .whileWord word :: (condition.marks ++ body.marks)
  | .ret word value => .sign .returnWord word :: value.marks
  | .eval e => e.marks

def Stmt.allMarks : List Stmt → List Mark
  | [] => []
  | s :: ss => s.marks ++ Stmt.allMarks ss

end

def Param.marks (p : Param) : List Mark := [p.name.mark, p.type.mark]

def Header.marks (h : Header) : List Mark :=
  .sign .funcWord h.word :: h.name.mark :: (h.params.flatMap Param.marks ++ [h.result.mark])

def Item.marks : Item → List Mark
  | .definition d => d.header.marks ++ d.block.marks
  | .prototype p => p.header.marks ++ [.primitive p.primitive]
  | .stmt s => s.marks

def Program.marks (p : Program) : List Mark := p.items.flatMap Item.marks

end Tally
