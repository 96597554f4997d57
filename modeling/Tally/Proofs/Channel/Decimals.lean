import Tally.Proofs.Channel.Numerals
import Mathlib.Data.List.Induction

namespace Tally

namespace Decimal

theorem isDigit_of_mem_digitChars {ds : List (Fin 10)} {c : Char} (member : c ∈ digitChars ds) :
    c.isDigit = true := by
  obtain ⟨d, _, rfl⟩ := List.mem_map.mp member
  simp [Nat.isDigit_digitChar]

theorem exists_digitChar {c : Char} (digit : c.isDigit = true) :
    ∃ d : Fin 10, Nat.digitChar d = c := by
  have range := toNat_of_isDigit digit
  have small : c.toNat - 48 < 10 := by omega
  use ⟨c.toNat - 48, small⟩
  apply Char.toNat_inj.mp
  rw [Nat.toNat_digitChar_of_lt_ten small]
  omega

theorem exists_digitChars {digits : List Char} (all : ∀ c ∈ digits, c.isDigit = true) :
    ∃ ds : List (Fin 10), digitChars ds = digits := by
  induction digits with
  | nil => exact ⟨[], rfl⟩
  | cons c digits ih =>
    obtain ⟨d, first⟩ := exists_digitChar (all c List.mem_cons_self)
    obtain ⟨ds, rest⟩ := ih fun c' member => all c' (List.mem_cons_of_mem _ member)
    use d :: ds
    rw [← first, ← rest]
    rfl

/-- Digits taken one after the other give what they count by their places. By induction from the
last digit, which is the one taken last and the one of the lowest place. -/
theorem decimalValue_digitChars (ds : List (Fin 10)) :
    decimalValue (digitChars ds) = magnitude ds := by
  induction ds using List.reverseRecOn with
  | nil => rfl
  | append_singleton ds d ih =>
    have digit : (Nat.digitChar d).toNat - '0'.toNat = d := by
      rw [Nat.toNat_digitChar_of_lt_ten d.isLt]
      show 48 + d.val - 48 = d.val
      omega
    calc decimalValue (digitChars (ds ++ [d]))
        = 10 * decimalValue (digitChars ds) + ((Nat.digitChar d).toNat - '0'.toNat) := by
          simp [decimalValue, digitChars]
      _ = 10 * magnitude ds + d := by rw [ih, digit]
      _ = magnitude (ds ++ [d]) := by
          simp [magnitude, Nat.ofDigits_cons, Nat.add_comm]

theorem signedValue?_text (d : Decimal) : signedValue? d.text.toList = some d.value := by
  have nonempty : digitChars d.digits ≠ [] := by simpa [digitChars] using d.nonempty
  rw [text, String.toList_ofList, value, ← decimalValue_digitChars]
  exact signedValue?_signed d.sign nonempty fun c => isDigit_of_mem_digitChars

end Decimal

theorem signedValue?_eq_some_iff {text : String} {z : Int} :
    signedValue? text.toList = some z ↔ ∃ d : Decimal, d.text = text ∧ d.value = z := by
  constructor
  · intro number
    obtain ⟨sign, digits, whole, nonempty, all, value⟩ := exists_signed number
    obtain ⟨ds, rfl⟩ := Decimal.exists_digitChars all
    have filled : ds ≠ [] := by simpa [Decimal.digitChars] using nonempty
    rw [Decimal.decimalValue_digitChars] at value
    use ⟨sign, ds, filled⟩
    constructor
    · apply String.toList_inj.mp
      rw [Decimal.text, String.toList_ofList, whole]
    · exact value
  · rintro ⟨d, rfl, rfl⟩
    exact d.signedValue?_text

theorem signedValue?_eq_none_iff {text : String} :
    signedValue? text.toList = none ↔ ∀ d : Decimal, d.text ≠ text := by
  constructor
  · intro nothing d same
    have number := d.signedValue?_text
    rw [same, nothing] at number
    cases number
  · intro other
    by_contra number
    obtain ⟨z, found⟩ := Option.ne_none_iff_exists'.mp number
    obtain ⟨d, same, _⟩ := signedValue?_eq_some_iff.mp found
    exact other d same

theorem toInt_ofInt_eq_self_iff {z : Int} :
    (Int64.ofInt z).toInt = z ↔ -2 ^ 63 ≤ z ∧ z ≤ 2 ^ 63 - 1 := by
  constructor
  · intro same
    have least := (Int64.ofInt z).le_toInt
    have greatest := (Int64.ofInt z).toInt_lt
    omega
  · intro range
    exact Int64.toInt_ofInt_of_le range.1 (by omega)

section Answers

variable {text : List Char} {z : Int}

theorem parseNumeral_of_number (number : signedValue? text = some z) : parseNumeral text =
    if -2 ^ 63 ≤ z ∧ z ≤ 2 ^ 63 - 1 then .ok z else .error (.outOfRange (String.ofList text)) := by
  simp only [parseNumeral, number, toInt_ofInt_eq_self_iff]

theorem parseNumeral_of_none (nothing : signedValue? text = none) :
    parseNumeral text = .error (.malformed (String.ofList text)) := by
  rw [parseNumeral, nothing]

theorem parseNumeral_eq_ok_iff : parseNumeral text = .ok z ↔
    signedValue? text = some z ∧ -2 ^ 63 ≤ z ∧ z ≤ 2 ^ 63 - 1 := by
  cases number : signedValue? text with
  | none => simp [parseNumeral_of_none number]
  | some z' =>
    rw [parseNumeral_of_number number]
    by_cases fits : -2 ^ 63 ≤ z' ∧ z' ≤ 2 ^ 63 - 1
    · rw [if_pos fits, Except.ok.injEq, Option.some.injEq]
      constructor
      · rintro rfl
        exact ⟨rfl, fits⟩
      · exact And.left
    · rw [if_neg fits, Option.some.injEq]
      constructor
      · exact nofun
      · rintro ⟨rfl, fits'⟩
        exact absurd fits' fits

theorem parseNumeral_eq_outOfRange_iff :
    parseNumeral text = .error (.outOfRange (String.ofList text)) ↔
      ∃ z, signedValue? text = some z ∧ ¬ (-2 ^ 63 ≤ z ∧ z ≤ 2 ^ 63 - 1) := by
  cases number : signedValue? text with
  | none => simp [parseNumeral_of_none number]
  | some z => simp [parseNumeral_of_number number]

theorem parseNumeral_eq_malformed_iff :
    parseNumeral text = .error (.malformed (String.ofList text)) ↔ signedValue? text = none := by
  cases number : signedValue? text with
  | none => simp [parseNumeral_of_none number]
  | some z => simp [parseNumeral_of_number number, ite_eq_iff]

end Answers

namespace Console

theorem output_write (c : Console) (z : Int) : (c.write z).output = c.output ++ [toString z] :=
  List.reverse_cons

end Console

/-- A text is read as the number that it is in decimal if that takes at most 64 bits with its sign.
Other numbers in decimal are out of range, and texts that are no number are malformed. What is
written of a number is read as that number. -/
theorem parseNumeral_exact (text : String) :
    (∀ z, parseNumeral text.toList = .ok z ↔
      (∃ d : Decimal, d.text = text ∧ d.value = z) ∧ -2 ^ 63 ≤ z ∧ z ≤ 2 ^ 63 - 1) ∧
    (parseNumeral text.toList = .error (.outOfRange text) ↔
      ∃ d : Decimal, d.text = text ∧ ¬ (-2 ^ 63 ≤ d.value ∧ d.value ≤ 2 ^ 63 - 1)) ∧
    (parseNumeral text.toList = .error (.malformed text) ↔ ∀ d : Decimal, d.text ≠ text) ∧
    ∀ (c : Console) (z : Int64), ∃ line, (c.write z.toInt).output = c.output ++ [line] ∧
      parseNumeral line.toList = .ok z.toInt := by
  have outOfRange := @parseNumeral_eq_outOfRange_iff text.toList
  have malformed := @parseNumeral_eq_malformed_iff text.toList
  rw [String.ofList_toList] at outOfRange malformed
  constructor
  · intro z
    rw [parseNumeral_eq_ok_iff, signedValue?_eq_some_iff]
  constructor
  · rw [outOfRange]
    constructor
    · rintro ⟨z, number, outside⟩
      obtain ⟨d, same, rfl⟩ := signedValue?_eq_some_iff.mp number
      exact ⟨d, same, outside⟩
    · rintro ⟨d, rfl, outside⟩
      exact ⟨d.value, d.signedValue?_text, outside⟩
  constructor
  · exact malformed.trans signedValue?_eq_none_iff
  · intro c z
    exact ⟨_, c.output_write z.toInt, parseNumeral_toString z⟩

example : parseNumeral "-009223372036854775808".toList = .ok (-9223372036854775808) ∧
    parseNumeral "+9223372036854775808".toList =
      .error (.outOfRange "+9223372036854775808") ∧
    parseNumeral "+-1".toList = .error (.malformed "+-1") := by
  decide

end Tally
