namespace Tally

/-- Callers may offer any rational number for an offset, an address or a count. Code holds natural
numbers only; the others are refused, and known by their text. -/
abbrev Number := Rat

namespace Number

def toNat? (x : Number) : Option Nat := if x.den = 1 then x.num.toNat? else none

def whole (x : Number) : Int := x.num.tdiv x.den

@[simp] theorem toNat?_natCast (n : Nat) : toNat? n = some n := by
  simp [toNat?, Int.toNat?]

theorem toNat?_eq_some {x : Number} {n : Nat} : x.toNat? = some n ↔ x = n := by
  constructor
  · intro h
    simp only [toNat?] at h
    split at h
    · rename_i one
      cases hx : x.num with
      | ofNat k =>
        simp only [hx, Int.toNat?, Option.some.injEq] at h
        cases h
        apply Rat.ext
        · simpa using hx
        · simpa using one
      | negSucc k => simp [hx, Int.toNat?] at h
    · cases h
  · rintro rfl
    exact toNat?_natCast n

end Number

end Tally
