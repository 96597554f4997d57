import Tally.Program

namespace Tally

def Ident.placeless (name : Ident) : Ident := ⟨name.text, .start⟩

mutual

def Expr.placeless : Expr → Expr
  | .int digits _ => .int digits .start
  | .ident name => .ident name.placeless
  | .add left _ right => .add left.placeless .start right.placeless
  | .call callee _ args => .call callee.placeless .start (Expr.allPlaceless args)

def Expr.allPlaceless : List Expr → List Expr
  | [] => []
  | e :: es => e.placeless :: Expr.allPlaceless es

end

mutual

def Stmt.placeless : Stmt → Stmt
  | .block _ body => .block .start (Stmt.allPlaceless body)
  | .loop _ condition body => .loop .start condition.placeless body.placeless
  | .ret _ value => .ret .start value.placeless
  | .eval e => .eval e.placeless

def Stmt.allPlaceless : List Stmt → List Stmt
  | [] => []
  | s :: ss => s.placeless :: Stmt.allPlaceless ss

end

def Param.placeless (p : Param) : Param := ⟨p.name.placeless, p.type.placeless⟩

def Header.placeless (h : Header) : Header :=
  ⟨.start, h.name.placeless, h.params.map Param.placeless, h.result.placeless⟩

def Definition.placeless (d : Definition) : Definition :=
  ⟨d.header.placeless, .start, Stmt.allPlaceless d.body⟩

def Prototype.placeless (q : Prototype) : Prototype := ⟨q.header.placeless, q.primitive⟩

def Item.placeless : Item → Item
  | .definition d => .definition d.placeless
  | .prototype q => .prototype q.placeless
  | .stmt s => .stmt s.placeless

/-- The same functions, prototypes and statements, each kind in its order; how the kinds are mixed
and where anything stands may differ. -/
structure Program.Rearranges (p q : Program) : Prop where
  definitions : p.definitions.map Definition.placeless = q.definitions.map Definition.placeless
  prototypes : p.prototypes.map Prototype.placeless = q.prototypes.map Prototype.placeless
  statements : Stmt.allPlaceless p.statements = Stmt.allPlaceless q.statements

theorem Program.Rearranges.symm {p q : Program} (same : p.Rearranges q) : q.Rearranges p :=
  ⟨same.definitions.symm, same.prototypes.symm, same.statements.symm⟩

end Tally
