import Tally.Token.Cursor

namespace Tally

structure Ident where
  text : String
  position : Position
deriving DecidableEq, Repr

inductive Expr where
  | int (digits : String) (position : Position)
  | ident (name : Ident)
  | add (left : Expr) (plus : Position) (right : Expr)
  | call (callee : Expr) (paren : Position) (args : List Expr)

inductive Stmt where
  | block (brace : Position) (body : List Stmt)
  | loop (word : Position) (condition : Expr) (body : Stmt)
  | ret (word : Position) (value : Expr)
  | eval (e : Expr)

structure Param where
  name : Ident
  type : Ident
deriving DecidableEq, Repr

structure Header where
  word : Position
  name : Ident
  params : List Param
  result : Ident
deriving DecidableEq, Repr

structure Definition where
  header : Header
  brace : Position
  body : List Stmt

/-- A prototype binds a name to a primitive of the machine's surroundings. -/
structure Prototype where
  header : Header
  primitive : String
deriving DecidableEq, Repr

inductive Item where
  | definition (d : Definition)
  | prototype (p : Prototype)
  | stmt (s : Stmt)

structure Program where
  items : List Item

namespace Expr

def literalValue (digits : String) : Nat := decimalValue digits.toList

mutual

def height : Expr → Nat
  | int .. => 1
  | ident _ => 1
  | add left _ right => max left.height right.height + 1
  | call callee _ args => max callee.height (greatestHeight args) + 1

def greatestHeight : List Expr → Nat
  | [] => 0
  | e :: es => max e.height (greatestHeight es)

end

end Expr

def Header.paramNames (h : Header) : List String := h.params.map fun p => p.name.text

def Definition.block (d : Definition) : Stmt := .block d.brace d.body

namespace Item

def header? : Item → Option Header
  | definition d => some d.header
  | prototype p => some p.header
  | stmt _ => none

end Item

namespace Program

def definitions (p : Program) : List Definition :=
  p.items.filterMap fun | .definition d => some d | _ => none

def prototypes (p : Program) : List Prototype :=
  p.items.filterMap fun | .prototype q => some q | _ => none

def statements (p : Program) : List Stmt :=
  p.items.filterMap fun | .stmt s => some s | _ => none

end Program

end Tally
