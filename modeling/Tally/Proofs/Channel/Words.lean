import Tally.Channel.Console

namespace Tally

/-- The pieces of a text between its white space. -/
def wordsOf (text : List Char) : List (List Char) :=
  (text.splitOnP isBlank).filter fun w => w ≠ []

theorem wordsOf_nil : wordsOf [] = [] := rfl

theorem wordsOf_append_blank {b : Char} (blank : isBlank b = true) (s t : List Char) :
    wordsOf (s ++ b :: t) = wordsOf s ++ wordsOf t := by
  rw [wordsOf, List.splitOnP_append_cons s t blank, List.filter_append]
  rfl

theorem wordsOf_blank_cons {b : Char} (blank : isBlank b = true) (t : List Char) :
    wordsOf (b :: t) = wordsOf t :=
  wordsOf_append_blank blank [] t

theorem wordsOf_word {w : List Char} (nonempty : w ≠ []) (whole : ∀ c ∈ w, isBlank c = false) :
    wordsOf w = [w] := by
  rw [wordsOf, List.splitOnP_eq_singleton whole, List.filter_cons_of_pos (by simpa using nonempty)]
  rfl

theorem wordsOf_dropWhile (s t : List Char) :
    wordsOf (s.dropWhile isBlank ++ t) = wordsOf (s ++ t) := by
  induction s with
  | nil => rfl
  | cons c s ih =>
    by_cases blank : isBlank c = true
    · rw [List.dropWhile_cons_of_pos blank, ih, List.cons_append, wordsOf_blank_cons blank]
    · rw [List.dropWhile_cons_of_neg blank]

theorem wordsOf_dropWhile_self (s : List Char) : wordsOf (s.dropWhile isBlank) = wordsOf s := by
  simpa using wordsOf_dropWhile s []

theorem wordsOf_word_append {w rest : List Char} (nonempty : w ≠ [])
    (whole : ∀ c ∈ w, isBlank c = false) (ends : ∀ c ∈ rest.head?, isBlank c = true) :
    wordsOf (w ++ rest) = w :: wordsOf rest := by
  cases rest with
  | nil => rw [List.append_nil, wordsOf_word nonempty whole, wordsOf_nil]
  | cons b rest =>
    have blank : isBlank b = true := ends b rfl
    rw [wordsOf_append_blank blank, wordsOf_word nonempty whole, wordsOf_blank_cons blank,
      List.singleton_append]

namespace Console

theorem wordsOf_of_word? {unused w rest : List Char} {ended : Bool}
    (found : word? unused ended = some (w, rest)) {more : List Char}
    (last : ended = true → more = []) :
    wordsOf (unused ++ more) = w :: wordsOf (rest ++ more) := by
  unfold word? at found
  dsimp only at found
  split at found
  · rename_i whole
    simp only [Option.some.injEq, Prod.mk.injEq] at found
    obtain ⟨nonempty, complete⟩ := whole
    have held : unused.dropWhile isBlank = w ++ rest := by
      rw [← found.1, ← found.2, List.takeWhile_append_dropWhile]
    rw [found.1] at nonempty
    rw [found.2] at complete
    have letters : ∀ c ∈ w, isBlank c = false := by
      rw [← found.1]
      intro c member
      simpa using List.all_eq_true.mp List.all_takeWhile c member
    have ends : ∀ c ∈ (rest ++ more).head?, isBlank c = true := by
      cases rest with
      | nil => simp [last (complete.resolve_left fun h => h rfl)]
      | cons b rest =>
        have stop := List.head?_dropWhile_not (fun c => !isBlank c) (unused.dropWhile isBlank)
        rw [found.2] at stop
        simpa using stop
    rw [← wordsOf_dropWhile, held, List.append_assoc, wordsOf_word_append nonempty letters ends]
  · cases found

theorem wordsOf_of_word?_none {unused : List Char} (nothing : word? unused true = none) :
    wordsOf unused = [] := by
  have blanks : unused.dropWhile isBlank = [] := by
    unfold word? at nothing
    cases held : unused.dropWhile isBlank with
    | nil => rfl
    | cons c cs =>
      have letter := List.head?_dropWhile_not isBlank unused
      rw [held] at letter
      have letter : isBlank c = false := letter
      simp [held, letter] at nothing
  rw [← wordsOf_dropWhile_self, blanks, wordsOf_nil]

end Console

end Tally
