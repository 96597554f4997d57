import Mathlib.Data.Nat.Digits.Defs

namespace Tally

inductive Sign where
  | none | plus | minus
deriving DecidableEq, Repr

namespace Sign

def chars : Sign → List Char
  | none => []
  | plus => ['+']
  | minus => ['-']

def apply : Sign → Nat → Int
  | none, n => n
  | plus, n => n
  | minus, n => -n

end Sign

/-- A number written out, the digit of its highest place first. Zeros may stand in front. -/
structure Decimal where
  sign : Sign
  digits : List (Fin 10)
  nonempty : digits ≠ []

namespace Decimal

def digitChars (digits : List (Fin 10)) : List Char := digits.map fun digit => digit.val.digitChar

def text (d : Decimal) : String := String.ofList (d.sign.chars ++ digitChars d.digits)

def magnitude (digits : List (Fin 10)) : Nat := Nat.ofDigits 10 (digits.map Fin.val).reverse

def value (d : Decimal) : Int := d.sign.apply (magnitude d.digits)

end Decimal

end Tally
