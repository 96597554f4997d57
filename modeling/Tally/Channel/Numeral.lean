import Tally.Token.Cursor

namespace Tally

inductive NumeralFault where
  | malformed (text : String)
  | outOfRange (text : String)
deriving DecidableEq, Repr

def NumeralFault.message : NumeralFault → String
  | malformed text => s!"invalid integer input '{text}'"
  | outOfRange text => s!"integer input out of range: {text}"

def signedValue? (text : List Char) : Option Int :=
  match text with
  | '+' :: digits => (natural? digits).map Int.ofNat
  | '-' :: digits => (natural? digits).map fun n => -Int.ofNat n
  | digits => (natural? digits).map Int.ofNat
where
  natural? (digits : List Char) : Option Nat :=
    if digits ≠ [] ∧ digits.all Char.isDigit then some (decimalValue digits) else none

def parseNumeral (text : List Char) : Except NumeralFault Int :=
  match signedValue? text with
  | none => .error (.malformed (String.ofList text))
  | some z =>
    -- Wrapping around to 64 bits changes exactly the numbers that are out of range.
    if (Int64.ofInt z).toInt = z then .ok z
    else .error (.outOfRange (String.ofList text))

end Tally
