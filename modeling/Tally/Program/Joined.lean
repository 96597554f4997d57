import Tally.Program
import Tally.Program.Text
import Mathlib.Data.List.Chain

namespace Tally

def Expr.opensParen : Expr → Bool
  | .add .. => true
  | .call callee _ _ => callee.opensParen
  | .int .. | .ident _ => false

/-- An expression with the text of another one right behind it. The parentheses of the sum that comes
first there are those of a call. -/
def Expr.followedBy (before : Expr) : Expr → Expr
  | .call callee paren args => .call (before.followedBy callee) paren args
  | .add left plus right => .call before .start [.add left plus right]
  | .int digits at_ => .call before .start [.int digits at_]
  | .ident name => .call before .start [.ident name]

namespace Stmt

def endsOpen : Stmt → Bool
  | block .. => false
  | loop _ _ body => body.endsOpen
  | ret .. | eval _ => true

def opensParen : Stmt → Bool
  | eval e => e.opensParen
  | block .. | loop .. | ret .. => false

def followedBy : Stmt → Expr → Stmt
  | block brace body, _ => .block brace body
  | loop word condition body, e => .loop word condition (body.followedBy e)
  | ret word value, e => .ret word (value.followedBy e)
  | eval value, e => .eval (value.followedBy e)

/-- A statement with the text of another one behind it, if that begins with a parenthesis. -/
def joinedTo (before : Stmt) : Stmt → Stmt
  | eval e => before.followedBy e
  | block .. | loop .. | ret .. => before

end Stmt

def escaped (name : String) : String := String.ofList (name.toList.flatMap escapeChar)

def Unescaped (c : Char) : Prop := c ≠ '"' ∧ c ≠ '\\' ∧ 0x20 ≤ c.toNat

def Prototype.IsPlain (q : Prototype) : Prop := ∀ c ∈ q.primitive.toList, Unescaped c

namespace Item

def endsOpen : Item → Bool
  | stmt s => s.endsOpen
  | definition _ | prototype _ => false

def opensParen : Item → Bool
  | stmt s => s.opensParen
  | definition _ | prototype _ => false

/-- Printed on the line behind the first item, the second one is read as a part of it. -/
def Joins (i j : Item) : Prop := i.endsOpen = true ∧ j.opensParen = true

instance (i j : Item) : Decidable (i.Joins j) := inferInstanceAs (Decidable (_ ∧ _))

def joinedTo : Item → Item → Item
  | stmt s, stmt s' => .stmt (s.joinedTo s')
  | i, _ => i

def joinedFrom (i : Item) : List Item → List Item
  | [] => [i]
  | j :: js => if i.Joins j then joinedFrom (i.joinedTo j) js else i :: joinedFrom j js

/-- The items that are read where these are printed one on a line. -/
def joined : List Item → List Item
  | [] => []
  | i :: is => joinedFrom i is

def printed : Item → Item
  | prototype q => .prototype { q with primitive := escaped q.primitive }
  | i => i

end Item

/-- No item is read as a part of the one before it. -/
def Program.Apart (p : Program) : Prop := p.items.IsChain fun i j => ¬ i.Joins j

end Tally
