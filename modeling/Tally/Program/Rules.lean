import Tally.Program

namespace Tally

inductive Signature.Kind where
  | function | prototype
deriving DecidableEq, Repr

def Signature.Kind.text : Signature.Kind → String
  | function => "function"
  | prototype => "prototype"

structure Signature where
  kind : Signature.Kind
  arity : Nat
deriving DecidableEq, Repr

inductive Breach where
  | repeatedDeclaration (name : String)
  | repeatedParam (name declaration : String)
  | missingReturn (function : String)
  | strayReturn
  | unknownName (name : String)
  | wrongArity (kind : Signature.Kind) (name : String) (arity args : Nat)
deriving DecidableEq, Repr

def Breach.text : Breach → String
  | repeatedDeclaration name => s!"duplicate declaration of '{name}'"
  | repeatedParam name declaration => s!"duplicate parameter '{name}' in '{declaration}'"
  | missingReturn function => s!"function '{function}' must end with a return statement"
  | strayReturn => "return outside of a function"
  | unknownName name => s!"undefined name '{name}'"
  | wrongArity kind name arity args =>
    s!"{kind.text} '{name}' expects {arity} argument(s), got {args}"

abbrev Violation := Located Breach

def Violation.message (v : Violation) : String := Located.message Breach.text v

/-- The names declared, each with its first declaration. -/
abbrev Globals := List (String × Signature)

def Item.signature? : Item → Option Signature
  | .definition d => some ⟨.function, d.header.params.length⟩
  | .prototype p => some ⟨.prototype, p.header.params.length⟩
  | .stmt _ => none

namespace Globals

def declares (g : Globals) (name : String) : Bool := (g.lookup name).isSome

def declare (g : Globals) (item : Item) : Globals :=
  match item.header?, item.signature? with
  | some h, some s => if g.declares h.name.text then g else (h.name.text, s) :: g
  | _, _ => g

def declareAll (g : Globals) (items : List Item) : Globals := items.foldl declare g

def repeated (g : Globals) : List Item → List Violation
  | [] => []
  | item :: items =>
    let rest := repeated (g.declare item) items
    match item.header? with
    | some h =>
      if g.declares h.name.text then ⟨.repeatedDeclaration h.name.text, h.name.position⟩ :: rest
      else rest
    | none => rest

end Globals

structure Surroundings where
  globals : Globals
  params : List String
  inFunction : Bool

namespace Surroundings

def knows (around : Surroundings) (name : String) : Bool :=
  around.params.contains name || around.globals.declares name

def declared? (around : Surroundings) : Expr → Option (String × Signature)
  | .ident name =>
    if around.params.contains name.text then none
    else (around.globals.lookup name.text).map fun s => (name.text, s)
  | _ => none

def arityViolations (around : Surroundings) (callee : Expr) (paren : Position) (args : Nat) :
    List Violation :=
  match around.declared? callee with
  | some (name, s) => if s.arity = args then [] else [⟨.wrongArity s.kind name s.arity args, paren⟩]
  | none => []

end Surroundings

mutual

def Expr.violations (around : Surroundings) : Expr → List Violation
  | .int .. => []
  | .ident name =>
    if around.knows name.text then [] else [⟨.unknownName name.text, name.position⟩]
  | .add left _ right => left.violations around ++ right.violations around
  | .call callee paren args =>
    callee.violations around ++ Expr.violationsOfAll around args ++
      around.arityViolations callee paren args.length

def Expr.violationsOfAll (around : Surroundings) : List Expr → List Violation
  | [] => []
  | e :: es => e.violations around ++ Expr.violationsOfAll around es

end

mutual

def Stmt.violations (around : Surroundings) : Stmt → List Violation
  | .block _ body => Stmt.violationsOfAll around body
  | .loop _ condition body => condition.violations around ++ body.violations around
  | .ret word value =>
    (if around.inFunction then [] else [⟨.strayReturn, word⟩]) ++ value.violations around
  | .eval e => e.violations around

def Stmt.violationsOfAll (around : Surroundings) : List Stmt → List Violation
  | [] => []
  | s :: ss => s.violations around ++ Stmt.violationsOfAll around ss

end

mutual

def Stmt.endsWithReturn : Stmt → Bool
  | .ret .. => true
  | .block _ body => Stmt.lastEndsWithReturn body
  | _ => false

def Stmt.lastEndsWithReturn : List Stmt → Bool
  | [] => false
  | [s] => s.endsWithReturn
  | _ :: s :: ss => Stmt.lastEndsWithReturn (s :: ss)

end

def Header.repeatedParams (h : Header) : List Violation :=
  go [] h.params
where
  go (before : List String) : List Param → List Violation
    | [] => []
    | p :: ps =>
      let rest := go (p.name.text :: before) ps
      if before.contains p.name.text then
        ⟨.repeatedParam p.name.text h.name.text, p.name.position⟩ :: rest
      else rest

def Definition.violations (g : Globals) (d : Definition) : List Violation :=
  let final := if d.block.endsWithReturn then []
    else [⟨.missingReturn d.header.name.text, d.header.word⟩]
  d.header.repeatedParams ++ final ++ d.block.violations ⟨g, d.header.paramNames, true⟩

def Item.violations (g : Globals) : Item → List Violation
  | .definition d => d.violations g
  | .prototype p => p.header.repeatedParams
  | .stmt s => s.violations ⟨g, [], false⟩

def Program.violationsAfter (g : Globals) (p : Program) : List Violation :=
  let all := g.declareAll p.items
  g.repeated p.items ++ p.items.flatMap (Item.violations all)

def Program.violations (p : Program) : List Violation := p.violationsAfter []

end Tally
