import Tally.Number

namespace Tally

/-- The quotient rounded to the nearest whole number; a half goes to the even one. -/
def roundedQuotient (a b : Nat) : Nat :=
  let q := a / b
  let r := a % b
  if 2 * r < b ∨ (2 * r = b ∧ q % 2 = 0) then q else q + 1

namespace Number

def precision : Nat := 53

def leastPlace : Int := -1074

def shifted (a b : Nat) (place : Int) : Nat × Nat :=
  (a <<< (-place).toNat, b <<< place.toNat)

/-- The place of the last binary digit that is kept of `a / b`. -/
def lastPlace (a b : Nat) : Int :=
  let place : Int := a.log2 - b.log2 - precision
  let (a, b) := shifted a b place
  max leastPlace (if a < b <<< precision then place else place + 1)

/-- The nearest number of at most 53 binary digits, the last of them not below `2 ^ (-1074)`; of two
that are equally near, the one whose last digit is zero. -/
def nearest (x : Number) : Number :=
  let place := lastPlace x.num.natAbs x.den
  let (a, b) := shifted x.num.natAbs x.den place
  mkRat (x.num.sign * (roundedQuotient a b <<< place.toNat : Nat)) (1 <<< (-place).toNat)

end Number

end Tally
