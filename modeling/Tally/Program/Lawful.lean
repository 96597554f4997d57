import Tally.Program.Meaning
import Tally.Program.Rules

namespace Tally

/-- The entries of a list that share their key with an earlier one. -/
def repeats {α β : Type} [DecidableEq β] (key : α → β) (as : List α) : List α :=
  (as.zipIdx.filter fun (a, i) => key a ∈ (as.take i).map key).map Prod.fst

mutual

def Expr.subterms : Expr → List Expr
  | .int digits position => [.int digits position]
  | .ident name => [.ident name]
  | .add left plus right => left.subterms ++ right.subterms ++ [.add left plus right]
  | .call callee paren args =>
    callee.subterms ++ Expr.allSubterms args ++ [.call callee paren args]

def Expr.allSubterms : List Expr → List Expr
  | [] => []
  | e :: es => e.subterms ++ Expr.allSubterms es

end

mutual

def Stmt.parts : Stmt → List Stmt
  | .block brace body => .block brace body :: Stmt.allParts body
  | .loop word condition body => .loop word condition body :: body.parts
  | .ret word value => [.ret word value]
  | .eval e => [.eval e]

def Stmt.allParts : List Stmt → List Stmt
  | [] => []
  | s :: ss => s.parts ++ Stmt.allParts ss

end

def Stmt.operands : Stmt → List Expr
  | .block .. => []
  | .loop _ condition _ => [condition]
  | .ret _ value => [value]
  | .eval e => [e]

structure Body where
  params : List String
  statements : List Stmt

def Body.parts (b : Body) : List Stmt := Stmt.allParts b.statements

def Body.subterms (b : Body) : List Expr :=
  b.parts.flatMap fun s => s.operands.flatMap Expr.subterms

def Definition.asBody (d : Definition) : Body := ⟨d.header.paramNames, d.body⟩

/-- Statements of which the last is a return, or a block of such statements. -/
inductive EndsWithReturn : List Stmt → Prop
  | ret (before : List Stmt) (word : Position) (value : Expr) :
    EndsWithReturn (before ++ [.ret word value])
  | block (before : List Stmt) (brace : Position) {body : List Stmt} (inner : EndsWithReturn body) :
    EndsWithReturn (before ++ [.block brace body])

theorem EndsWithReturn.prepend {ss : List Stmt} (ends : EndsWithReturn ss) (s : Stmt) :
    EndsWithReturn (s :: ss) := by
  cases ends with
  | ret before word value => exact ret (s :: before) word value
  | block before brace inner => exact block (s :: before) brace inner

theorem Stmt.lastEndsWithReturn_append (before : List Stmt) (s : Stmt) :
    Stmt.lastEndsWithReturn (before ++ [s]) = s.endsWithReturn := by
  induction before with
  | nil => rfl
  | cons first before ih =>
    rw [← ih]
    cases before <;> rfl

mutual

theorem Stmt.endsWithReturn_sound :
    ∀ s : Stmt, s.endsWithReturn = true → EndsWithReturn [s]
  | .ret word value, _ => .ret [] word value
  | .block brace body, ends => .block [] brace (Stmt.lastEndsWithReturn_sound body ends)

theorem Stmt.lastEndsWithReturn_sound :
    ∀ ss : List Stmt, Stmt.lastEndsWithReturn ss = true → EndsWithReturn ss
  | [s], ends => Stmt.endsWithReturn_sound s ends
  | s :: t :: ss, ends => (Stmt.lastEndsWithReturn_sound (t :: ss) ends).prepend s

end

theorem EndsWithReturn.iff {ss : List Stmt} :
    EndsWithReturn ss ↔ Stmt.lastEndsWithReturn ss = true := by
  refine ⟨fun ends => ?_, Stmt.lastEndsWithReturn_sound ss⟩
  induction ends with
  | ret before word value => exact Stmt.lastEndsWithReturn_append before _
  | block before brace _ ih => exact (Stmt.lastEndsWithReturn_append before _).trans ih

instance (ss : List Stmt) : Decidable (EndsWithReturn ss) :=
  decidable_of_iff _ EndsWithReturn.iff.symm

def Stmt.stray? : Stmt → Option Violation
  | .ret word _ => some ⟨.strayReturn, word⟩
  | _ => none

def Definition.unended? (d : Definition) : Option Violation :=
  if EndsWithReturn d.body then none
  else some ⟨.missingReturn d.header.name.text, d.header.word⟩

def Header.repeatsOfParams (h : Header) : List Violation :=
  (repeats (fun q : Param => q.name.text) h.params).map fun q =>
    ⟨.repeatedParam q.name.text h.name.text, q.name.position⟩

namespace Program

def top (p : Program) : Body := ⟨[], p.statements⟩

def bodies (p : Program) : List Body := p.top :: p.definitions.map Definition.asBody

def headers (p : Program) : List Header := p.items.filterMap Item.header?

structure Lawful (p : Program) : Prop where
  names : (p.headers.map fun h => h.name.text).Nodup
  params : ∀ h ∈ p.headers, h.paramNames.Nodup
  known : ∀ b ∈ p.bodies, ∀ name, .ident name ∈ b.subterms →
    name.text ∈ b.params ∨ ∃ h ∈ p.headers, h.name.text = name.text
  arities : ∀ b ∈ p.bodies, ∀ name paren args, .call (.ident name) paren args ∈ b.subterms →
    name.text ∉ b.params → ∀ h, p.headers.find? (fun h => h.name.text = name.text) = some h →
      args.length = h.params.length
  returns : ∀ word value, .ret word value ∉ p.top.parts
  ends : ∀ d ∈ p.definitions, EndsWithReturn d.body

/-- The rule about names or about arguments that an expression breaks, its parts aside. -/
def breach? (p : Program) (params : List String) : Expr → Option Violation
  | .ident name =>
    if name.text ∈ params ∨ (p.declaration? name.text).isSome then none
    else some ⟨.unknownName name.text, name.position⟩
  | .call (.ident name) paren args =>
    if name.text ∈ params then none
    else
      match (p.declaration? name.text).bind Item.signature? with
      | some s =>
        if args.length = s.arity then none
        else some ⟨.wrongArity s.kind name.text s.arity args.length, paren⟩
      | none => none
  | _ => none

def repeatsOfNames (p : Program) : List Violation :=
  (repeats (fun h : Header => h.name.text) p.headers).map fun h =>
    ⟨.repeatedDeclaration h.name.text, h.name.position⟩

/-- One violation for each place that breaks a rule, rule by rule. -/
def breaches (p : Program) : List Violation :=
  p.repeatsOfNames ++ p.headers.flatMap Header.repeatsOfParams ++
    p.definitions.filterMap Definition.unended? ++ p.top.parts.filterMap Stmt.stray? ++
    p.bodies.flatMap fun b => b.subterms.filterMap (p.breach? b.params)

end Program

end Tally
