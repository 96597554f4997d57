import Tally.Number.Precision

namespace Tally.Number

/-- Decimal digits, and where the point stands: the value is `0.digits * 10 ^ point`. -/
structure Digits where
  digits : List Char
  point : Int
deriving DecidableEq, Repr

/-- The least power of ten above the quotient of two positive numbers. -/
def decimalPoint (a b : Nat) : Int :=
  let count (n : Nat) : Int := (Nat.toDigits 10 n).length
  if b ≤ a then count (a / b) else 1 - count ((b - 1) / a)

/-- The multiple of `10 ^ place` next to a number that stands for it, if one does: the nearer of
two, and of two that are equally near the even one. -/
def onGrid? (x : Number) (place : Int) : Option Nat :=
  let grid : Number := 10 ^ place
  let below := (x / grid).floor
  let good (c : Int) : Bool := nearest (c * grid) = x
  let middle : Number := below + 1 / 2
  let lower := x / grid < middle ∨ (x / grid = middle ∧ below % 2 = 0)
  if good below ∧ (lower ∨ ¬ good (below + 1)) then some below.toNat
  else if good (below + 1) then some (below + 1).toNat
  else none

def mostDigits : Nat := 17

def digitsAt (c : Nat) (place : Int) : Digits :=
  let digits := Nat.toDigits 10 c
  ⟨(digits.reverse.dropWhile (· = '0')).reverse, digits.length + place⟩

def shortest (x : Number) : Digits :=
  let point := decimalPoint x.num.natAbs x.den
  let found := (List.range mostDigits).findSome? fun (i : Nat) =>
    let place := point - (i + 1)
    (onGrid? x place).map fun c => digitsAt c place
  let last := point - mostDigits
  found.getD (digitsAt (x / 10 ^ last).floor.toNat last)

def greatestPoint : Int := 21

def leastPoint : Int := -5

def zeros (n : Int) : List Char := List.replicate n.toNat '0'

def exponentText (e : Int) : List Char :=
  'e' :: (if 0 ≤ e then '+' else '-') :: Nat.toDigits 10 e.natAbs

def Digits.layout (d : Digits) : List Char :=
  if d.digits.length ≤ d.point ∧ d.point ≤ greatestPoint then
    d.digits ++ zeros (d.point - d.digits.length)
  else if 0 < d.point ∧ d.point ≤ greatestPoint then
    d.digits.take d.point.toNat ++ '.' :: d.digits.drop d.point.toNat
  else if leastPoint ≤ d.point ∧ d.point ≤ 0 then '0' :: '.' :: zeros (-d.point) ++ d.digits
  else
    let tail := d.digits.drop 1
    d.digits.take 1 ++ (if tail = [] then [] else '.' :: tail) ++ exponentText (d.point - 1)

/-- Whole numbers up to `2 ^ 53` are written in full, all other numbers with the fewest digits. -/
def text (x : Number) : String :=
  if x.den = 1 ∧ x.num.natAbs ≤ 1 <<< precision then toString x.num
  else
    let sign := if x < 0 then ['-'] else []
    String.ofList (sign ++ (shortest (if x < 0 then -x else x)).layout)

end Tally.Number
