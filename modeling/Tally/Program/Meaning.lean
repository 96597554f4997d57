import Tally.Channel
import Tally.Program

namespace Tally

inductive Datum where
  | int (z : Int64)
  | function (d : Definition)
  | native (q : Prototype)

inductive Interruption where
  | fault (f : Fault)
  | unfinished
  /-- The rules are broken: there is nothing that the tree means. -/
  | meaningless

inductive Finish where
  | stopped
  | fault (f : Fault)
deriving DecidableEq

/-- What a tree means, in steps that read and write numbers. Calls inside calls and rounds of a loop
are bounded by a number; an evaluation that meets the bound is unfinished. -/
abbrev Evaluation := EStateM Interruption Memory

namespace Datum

def kind : Datum → Value.Kind
  | int _ => .int
  | function _ => .address
  | native _ => .native

def truthy : Datum → Bool
  | int z => z ≠ 0
  | function _ => true
  | native _ => true

/-- The sum modulo `2 ^ 64`, of numbers only. -/
def add : Datum → Datum → Evaluation Datum
  | int a, int b => return .int (a + b)
  | left, right => throw (.fault (.operands left.kind right.kind))

end Datum

structure Environment where
  declared? : String → Option Datum
  params : List (String × Datum)

def Environment.find (env : Environment) (name : String) : Evaluation Datum :=
  match (env.params.lookup name).or (env.declared? name) with
  | some v => return v
  | none => throw .meaningless

def Prototype.perform (q : Prototype) (args : List Datum) : Evaluation Datum :=
  if q.primitive = "print_int" then
    match args with
    | [.int z] => do
      modify fun m => m.write z.toInt
      return .int z
    | [v] => throw (.fault (.expectedInt v.kind))
    | _ => throw .meaningless
  else if q.primitive = "read_int" then
    match args with
    | [] => do
      let m ← get
      set m.read.2
      return .int (Int64.ofInt m.read.1)
    | _ => throw .meaningless
  else throw .meaningless

section

variable (call : Datum → List Datum → Evaluation Datum)

mutual

def Expr.evaluate (env : Environment) : Expr → Evaluation Datum
  | .int digits _ => return .int (Int64.ofInt (Expr.literalValue digits))
  | .ident name => env.find name.text
  | .add left _ right => do
    let a ← left.evaluate env
    let b ← right.evaluate env
    a.add b
  | .call callee _ args => do
    let values ← Expr.evaluateAll env args
    let f ← callee.evaluate env
    call f values

/-- The last expression comes first. -/
def Expr.evaluateAll (env : Environment) : List Expr → Evaluation (List Datum)
  | [] => return []
  | e :: es => do
    let values ← Expr.evaluateAll env es
    let v ← e.evaluate env
    return v :: values

end

/-- At most `bound` rounds of a loop; a round that returns is the last one. -/
def rounds (condition : Evaluation Datum) (body : Evaluation (Option Datum)) :
    (bound : Nat) → Evaluation (Option Datum)
  | 0 => throw .unfinished
  | bound + 1 => do
    if (← condition).truthy then
      match ← body with
      | some v => return some v
      | none => rounds condition body bound
    else return none

mutual

/-- A statement gives a value if it returns. -/
def Stmt.evaluate (bound : Nat) (env : Environment) : Stmt → Evaluation (Option Datum)
  | .block _ body => Stmt.evaluateAll bound env body
  | .loop _ condition body =>
    rounds (condition.evaluate call env) (body.evaluate bound env) bound
  | .ret _ value => some <$> value.evaluate call env
  | .eval e => do
    let _ ← e.evaluate call env
    return none

def Stmt.evaluateAll (bound : Nat) (env : Environment) : List Stmt → Evaluation (Option Datum)
  | [] => return none
  | s :: ss => do
    match ← s.evaluate bound env with
    | some v => return some v
    | none => Stmt.evaluateAll bound env ss

end

end

/-- Calls a value with arguments; at most `bound` calls of functions are inside one another. -/
def Datum.apply (declared? : String → Option Datum) :
    (bound : Nat) → Datum → List Datum → Evaluation Datum
  | _, .int _, _ => throw (.fault (.notCallable .int))
  | _, .native q, args =>
    if q.header.params.length = args.length then q.perform args
    else throw (.fault (.nativeArity q.header.name.text q.header.params.length args.length))
  | 0, .function _, _ => throw .unfinished
  | bound + 1, .function d, args => do
    if d.header.params.length = args.length then
      let env : Environment := ⟨declared?, d.header.paramNames.zip args⟩
      let call f values := apply declared? bound f values
      match ← d.block.evaluate call bound env with
      | some v => return v
      | none => throw .meaningless
    else throw (.fault (.functionArity d.header.name.text d.header.params.length args.length))

def Item.name? (item : Item) : Option String := item.header?.map fun h => h.name.text

namespace Program

/-- The declaration of a name; of several, the first one. -/
def declaration? (p : Program) (name : String) : Option Item :=
  p.items.find? fun item => item.name? = some name

def declared? (p : Program) (name : String) : Option Datum :=
  match p.declaration? name with
  | some (.definition d) => some (.function d)
  | some (.prototype q) => some (.native q)
  | _ => none

def evaluate (p : Program) (bound : Nat) : Evaluation Unit := do
  match ← Stmt.evaluateAll (Datum.apply p.declared? bound) bound ⟨p.declared?, []⟩ p.statements with
  | some _ => throw .meaningless
  | none => return

/-- How the program ends and what it has written then, if it ends within the bound. -/
def outcome? (p : Program) (bound : Nat) (inputs : List Int) : Option (Finish × List Int) :=
  match p.evaluate bound (.ofInputs inputs) with
  | .ok _ m => some (.stopped, m.output)
  | .error (.fault f) m => some (.fault f, m.output)
  | .error .unfinished _ => none
  | .error .meaningless _ => none

end Program

end Tally
