import Tally.Channel.Decimal
import Tally.Channel.Numeral
import Tally.Proofs.Channel.Words
import Mathlib.Data.List.Basic

namespace Tally

theorem natural?_eq_some_iff {digits : List Char} {n : Nat} :
    signedValue?.natural? digits = some n ↔
      digits ≠ [] ∧ (∀ c ∈ digits, c.isDigit = true) ∧ decimalValue digits = n := by
  simp only [signedValue?.natural?, Option.ite_none_right_eq_some, Option.some.injEq,
    List.all_eq_true, and_assoc]

theorem signedValue?_signed (sign : Sign) {digits : List Char} (nonempty : digits ≠ [])
    (all : ∀ c ∈ digits, c.isDigit = true) :
    signedValue? (sign.chars ++ digits) = some (sign.apply (decimalValue digits)) := by
  have natural : signedValue?.natural? digits = some (decimalValue digits) :=
    natural?_eq_some_iff.mpr ⟨nonempty, all, rfl⟩
  cases sign with
  | none =>
    show signedValue? digits = _
    unfold signedValue?
    split
    · exact absurd (all '+' List.mem_cons_self) (by decide)
    · exact absurd (all '-' List.mem_cons_self) (by decide)
    · rw [natural]
      rfl
  | plus =>
    show (signedValue?.natural? digits).map _ = _
    rw [natural]
    rfl
  | minus =>
    show (signedValue?.natural? digits).map _ = _
    rw [natural]
    rfl

theorem exists_signed {text : List Char} {z : Int} (number : signedValue? text = some z) :
    ∃ (sign : Sign) (digits : List Char), sign.chars ++ digits = text ∧ digits ≠ [] ∧
      (∀ c ∈ digits, c.isDigit = true) ∧ sign.apply (decimalValue digits) = z := by
  unfold signedValue? at number
  split at number
  all_goals
    obtain ⟨n, natural, value⟩ := Option.map_eq_some_iff.mp number
    obtain ⟨nonempty, all, rfl⟩ := natural?_eq_some_iff.mp natural
  · exact ⟨.plus, _, rfl, nonempty, all, value⟩
  · exact ⟨.minus, _, rfl, nonempty, all, value⟩
  · exact ⟨.none, _, rfl, nonempty, all, value⟩

theorem decimalValue_toDigits (n : Nat) : decimalValue (Nat.toDigits 10 n) = n := by
  have value : Nat.ofDigitChars 10 (Nat.toDigits 10 n) 0 = n := Nat.ofDigitChars_ten_toDigits
  rwa [Nat.ofDigitChars_eq_foldl] at value

theorem toList_toString (z : Int) : (toString z).toList =
    if 0 ≤ z then Nat.toDigits 10 z.toNat else '-' :: Nat.toDigits 10 (-z).toNat := by
  have text : toString z = if 0 ≤ z then z.toNat.repr else "-" ++ (-z).toNat.repr := Int.repr_eq_if
  rw [text]
  split
  · exact Nat.toList_repr
  · rw [String.toList_append, Nat.toList_repr]
    rfl

theorem signedValue?_toString (z : Int) : signedValue? (toString z).toList = some z := by
  have read (sign : Sign) (n : Nat) :
      signedValue? (sign.chars ++ Nat.toDigits 10 n) = some (sign.apply n) := by
    have signed := signedValue?_signed sign (@Nat.toDigits_ne_nil n 10)
      fun c member => Nat.isDigit_of_mem_toDigits (by decide) (by decide) member
    rwa [decimalValue_toDigits] at signed
  rw [toList_toString]
  by_cases sign : 0 ≤ z
  · rw [if_pos sign]
    apply (read .none _).trans
    exact congrArg some (Int.toNat_of_nonneg sign)
  · rw [if_neg sign]
    apply (read .minus _).trans
    simp only [Sign.apply, Option.some.injEq]
    omega

theorem parseNumeral_toString (z : Int64) :
    parseNumeral (toString z.toInt).toList = .ok z.toInt := by
  have same : (Int64.ofInt z.toInt).toInt = z.toInt := by rw [Int64.ofInt_toInt]
  rw [parseNumeral, signedValue?_toString]
  exact if_pos same

theorem mem_toString {z : Int} {c : Char} (member : c ∈ (toString z).toList) :
    c = '-' ∨ c.isDigit = true := by
  have digit {n : Nat} (inside : c ∈ Nat.toDigits 10 n) : c.isDigit = true :=
    Nat.isDigit_of_mem_toDigits (by decide) (by decide) inside
  rw [toList_toString] at member
  split at member
  · exact .inr (digit member)
  · exact (List.mem_cons.mp member).imp_right digit

theorem toNat_of_isDigit {c : Char} (digit : c.isDigit = true) : 48 ≤ c.toNat ∧ c.toNat ≤ 57 := by
  simp only [Char.isDigit, Bool.and_eq_true, decide_eq_true_eq, UInt32.le_iff_toNat_le] at digit
  exact digit

theorem not_isBlank_of_mem_toString {z : Int} {c : Char} (member : c ∈ (toString z).toList) :
    isBlank c = false := by
  rcases mem_toString member with rfl | digit
  · decide
  · have range := toNat_of_isDigit digit
    simp [isBlank, blankRanges]
    omega

def numberLines (zs : List Int) : List Char := zs.flatMap fun z => (toString z).toList ++ ['\n']

theorem ascii_of_mem_numberLines {zs : List Int} {c : Char} (member : c ∈ numberLines zs) :
    c.toNat < 128 := by
  obtain ⟨z, _, member⟩ := List.mem_flatMap.mp member
  rcases List.mem_append.mp member with member | member
  · rcases mem_toString member with rfl | digit
    · decide
    · exact Nat.lt_of_le_of_lt (toNat_of_isDigit digit).2 (by decide)
  · rw [List.mem_singleton.mp member]
    decide

theorem wordsOf_numberLines (zs : List Int) :
    wordsOf (numberLines zs) = zs.map fun z => (toString z).toList := by
  induction zs with
  | nil => rfl
  | cons z zs ih =>
    have nonempty : (toString z).toList ≠ [] := by
      rw [toList_toString]
      split
      · exact Nat.toDigits_ne_nil
      · exact List.cons_ne_nil _ _
    have blank : isBlank '\n' = true := by decide
    rw [numberLines, List.flatMap_cons, List.append_assoc, List.singleton_append,
      wordsOf_append_blank blank, wordsOf_word nonempty fun c => not_isBlank_of_mem_toString,
      ← numberLines, ih]
    rfl

end Tally
