import Tally.Code

namespace Tally

/-- Code puts natural numbers only in the place of addresses; a native can put any number there. -/
inductive Value where
  | native (n : Native)
  | address (a : Number)
  | int (z : Int64)
deriving DecidableEq

inductive Value.Kind where
  | native | address | int
deriving DecidableEq, Repr

def Value.Kind.text : Value.Kind → String
  | native => "native"
  | address => "address"
  | int => "int"

namespace Value

/-- The number modulo `2 ^ 64`. -/
def ofInt (z : Int) : Value := .int (Int64.ofInt z)

def kind : Value → Kind
  | native _ => .native
  | address _ => .address
  | int _ => .int

def truthy : Value → Bool
  | native _ => true
  | address _ => true
  | int z => z ≠ 0

def text : Value → String
  | native n => s!"<native {n.name}>"
  | address a => s!"<address {a.text}>"
  | int z => toString z.toInt

end Value

end Tally
