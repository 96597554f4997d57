import Tally.Proofs.Token.Increasing

namespace Tally

theorem EndsWord.append {cs rest : List Char} (front : EndsWord cs) (back : EndsWord rest) :
    EndsWord (cs ++ rest) := by
  cases cs with
  | nil => exact back
  | cons c cs => exact front

section

variable {p : Char → Bool} {cs rest : List Char}

theorem takeWhile_eq_left (all : ∀ c ∈ cs, p c = true)
    (stop : ∀ c, rest.head? = some c → p c = false) : (cs ++ rest).takeWhile p = cs := by
  have none : rest.takeWhile p = [] := by
    cases rest with
    | nil => rfl
    | cons c rest => exact List.takeWhile_cons_of_neg (by simp [stop c rfl])
  rw [List.takeWhile_append_of_pos all, none, List.append_nil]

theorem skipWhile_eq_right (all : ∀ c ∈ cs, p c = true)
    (stop : ∀ c, rest.head? = some c → p c = false) (at_ : Position) :
    (Cursor.mk (cs ++ rest) at_).skipWhile p = ⟨rest, at_.after cs⟩ := by
  have taken := takeWhile_eq_left all stop
  have dropped : (cs ++ rest).dropWhile p = rest := by
    have whole := List.takeWhile_append_dropWhile (p := p) (l := cs ++ rest)
    rw [taken] at whole
    exact List.append_cancel_left whole
  unfold Cursor.skipWhile
  rw [taken, dropped]

end

theorem Token.Spelt.not_beginsGap {t : Token} (spelt : t.Spelt) (rest : List Char) :
    ¬ BeginsGap (t.lexeme ++ rest) := by
  obtain ⟨c, cs, lexeme⟩ := List.exists_cons_of_ne_nil spelt.lexeme_ne_nil
  have first := Cursor.first_of_spelt spelt (congrArg List.head? lexeme)
  rw [lexeme]
  intro begins
  have gap : c = ' ' ∨ c = '\t' ∨ c = '\n' ∨ c = '\r' ∨ c = '/' := by
    rcases begins with space | ⟨slash, _⟩
    · simpa [isSpace, or_assoc] using Or.inl (b := c = '/') space
    · simp [slash]
  have noMark : Token.Kind.ofChar? c = none := by
    rcases gap with rfl | rfl | rfl | rfl | rfl <;> rfl
  have noLetter : c ≠ '"' ∧ c.isDigit = false ∧ isLetter c = false := by
    rcases gap with rfl | rfl | rfl | rfl | rfl <;> decide
  simp [noMark, noLetter] at first

namespace Cursor

variable {rest : List Char}

theorem skipTriviaFrom_comment {body : List Char} (line : '\n' ∉ body) (p : Position) :
    skipTriviaFrom true (body ++ '\n' :: rest) p =
      skipTriviaFrom false rest (p.after (body ++ ['\n'])) := by
  induction body generalizing p with
  | nil => rfl
  | cons c body ih =>
    obtain ⟨other, line⟩ := not_or.mp (mt List.mem_cons.mpr line)
    rw [List.cons_append, skipTriviaFrom, if_pos rfl, decide_eq_true (Ne.symm other)]
    exact ih line (p.next c)

theorem skipTriviaFrom_gap {gap : List Char} (between : Gap gap) (stop : ¬ BeginsGap rest)
    (p : Position) : skipTriviaFrom false (gap ++ rest) p = ⟨rest, p.after gap⟩ := by
  induction between generalizing p with
  | nil =>
    cases rest with
    | nil => rfl
    | cons c rest =>
      obtain ⟨noSpace, noComment⟩ := not_or.mp stop
      rw [List.nil_append, skipTriviaFrom, if_neg Bool.false_ne_true, if_neg noSpace,
        if_neg noComment]
      rfl
  | blank space more ih =>
    rw [List.cons_append, skipTriviaFrom, if_neg Bool.false_ne_true, if_pos space]
    exact ih (p.next _)
  | @comment body cs line more ih =>
    have open_ : skipTriviaFrom false ('/' :: '/' :: (body ++ '\n' :: cs) ++ rest) p =
        skipTriviaFrom true (body ++ '\n' :: (cs ++ rest)) ((p.next '/').next '/') := by
      simp [skipTriviaFrom, isSpace]
    rw [open_, skipTriviaFrom_comment line, ih, ← Position.after_append]
    simp [Position.after]

theorem number_of_digits {digits : List Char} (all : ∀ c ∈ digits, c.isDigit = true)
    (small : decimalValue digits ≤ 2 ^ 63 - 1) (ends : EndsWord rest) (p : Position) :
    number ⟨digits ++ rest, p⟩ = (.ok ⟨.int, String.ofList digits, p⟩, ⟨rest, p.after digits⟩) := by
  have stop : ∀ c, rest.head? = some c → c.isDigit = false ∧ isLetter c = false := by
    intro c next
    have other := ends c next
    simp only [isWordChar, Bool.or_eq_false_iff] at other
    exact other.symm
  have noLetter : rest.head?.filter isLetter = none := by
    cases next : rest.head? with
    | none => rfl
    | some c => simp [(stop c next).2]
  unfold number
  dsimp only
  rw [skipWhile_eq_right all fun c next => (stop c next).1,
    takeWhile_eq_left all fun c next => (stop c next).1]
  dsimp only
  rw [noLetter]
  exact if_neg (Nat.not_lt_of_le small)

theorem word_of_chars {chars : List Char} (all : ∀ c ∈ chars, isWordChar c = true)
    (ends : EndsWord rest) (p : Position) : word ⟨chars ++ rest, p⟩ =
      (⟨.ofWord (String.ofList chars), String.ofList chars, p⟩, ⟨rest, p.after chars⟩) := by
  unfold word
  rw [skipWhile_eq_right all ends, takeWhile_eq_left all ends]

theorem string_of_quotable {inside : List Char} (inner : ∀ c ∈ inside, c ≠ '"' ∧ c ≠ '\n')
    (p : Position) : string ⟨'"' :: (inside ++ '"' :: rest), p⟩ =
      (.ok ⟨.string, String.ofList inside, p⟩, ⟨rest, p.after ('"' :: (inside ++ ['"']))⟩) := by
  have all : ∀ c ∈ inside, isQuotable c = true := by
    simpa [isQuotable] using inner
  have stop : ∀ c, ('"' :: rest).head? = some c → isQuotable c = false := by
    rintro c ⟨⟩
    rfl
  have place : p.after ('"' :: (inside ++ ['"'])) =
      ((p.next '"').after inside).next '"' := Position.after_append (p.next '"') inside ['"']
  unfold string skipOne
  dsimp only
  rw [skipWhile_eq_right all stop, takeWhile_eq_left all stop, place]
  rfl

theorem token_of_digits {digits : List Char} (nonempty : digits ≠ [])
    (all : ∀ c ∈ digits, c.isDigit = true) (p : Position) :
    token ⟨digits ++ rest, p⟩ = number ⟨digits ++ rest, p⟩ := by
  obtain ⟨c, cs, rfl⟩ := List.exists_cons_of_ne_nil nonempty
  have digit := all c List.mem_cons_self
  have noQuote : c ≠ '"' := by
    rintro rfl
    cases digit
  exact (if_neg noQuote).trans (if_pos digit)

theorem isDigit_of_isLetter {c : Char} (letter : isLetter c = true) : c.isDigit = false := by
  refine Bool.eq_false_iff.mpr fun digit => ?_
  have most : c.toNat ≤ '9'.toNat := (Char.isDigit_iff_toNat.mp digit).2
  rcases Bool.or_eq_true_iff.mp letter with alpha | underscore
  · rcases Bool.or_eq_true_iff.mp alpha with upper | lower
    · have least : 'A'.toNat ≤ c.toNat := (of_decide_eq_true upper).1
      exact absurd (Nat.le_trans least most) (by decide)
    · have least : 'a'.toNat ≤ c.toNat := of_decide_eq_true (Bool.and_eq_true_iff.mp lower).1
      exact absurd (Nat.le_trans least most) (by decide)
  · rw [of_decide_eq_true underscore] at digit
    cases digit

theorem token_of_letter {c : Char} (letter : isLetter c = true) (cs : List Char) (p : Position) :
    token ⟨c :: cs, p⟩ = (.ok (word ⟨c :: cs, p⟩).1, (word ⟨c :: cs, p⟩).2) := by
  have noQuote : c ≠ '"' := by
    rintro rfl
    cases letter
  have noDigit := ne_true_of_eq_false (isDigit_of_isLetter letter)
  exact (if_neg noQuote).trans ((if_neg noDigit).trans (if_pos letter))

theorem token_of_lexeme {t : Token} (spelt : t.Spelt) (maximal : t.Maximal rest) :
    token ⟨t.lexeme ++ rest, t.start⟩ = (.ok t, ⟨rest, t.start.after t.lexeme⟩) := by
  obtain ⟨kind, text, p⟩ := t
  have back : String.ofList text.toList = text := String.ofList_toList
  have asWord {c : Char} {cs : List Char} (chars : text.toList = c :: cs)
      (letter : isLetter c = true) (all : ∀ d ∈ text.toList, isWordChar d = true)
      (ends : EndsWord rest) : token ⟨text.toList ++ rest, p⟩ =
        (.ok ⟨.ofWord text, text, p⟩, ⟨rest, p.after text.toList⟩) := by
    have read := word_of_chars all ends p
    rw [back] at read
    have start := token_of_letter letter (cs ++ rest) p
    rw [← List.cons_append, ← chars, read] at start
    exact start
  cases kind with
  | eof => exact spelt.elim
  | string =>
    have read : string ⟨'"' :: (text.toList ++ '"' :: rest), p⟩ = _ := string_of_quotable spelt p
    rw [back] at read
    have chars : (Token.mk .string text p).lexeme ++ rest =
        '"' :: (text.toList ++ '"' :: rest) := by
      simp [Token.lexeme]
    rw [chars]
    exact read
  | int =>
    obtain ⟨nonempty, all, small⟩ := spelt
    have read := number_of_digits all small (maximal rfl) p
    rw [back] at read
    exact (token_of_digits nonempty all p).trans read
  | ident =>
    obtain ⟨⟨c, cs, chars, letter⟩, all, noFunc, noReturn, noWhile⟩ := spelt
    have kind : Token.Kind.ofWord text = .ident := by
      simp [Token.Kind.ofWord, noFunc, noReturn, noWhile]
    have read := asWord chars letter all (maximal rfl)
    rwa [kind] at read
  | funcWord | returnWord | whileWord =>
    cases spelt
    exact asWord String.toList_ofList rfl (List.all_eq_true.mp (by decide)) (maximal rfl)
  | plus | assign | lparen | rparen | lbrace | rbrace | comma | semicolon | colon =>
    cases spelt
    simp [Token.lexeme, token, skipOne, isLetter, Token.Kind.ofChar?, Position.after]

end Cursor

theorem TokenStream.readOn_of_segmented {p q : Position} {cs gap : List Char} {ts : List Token}
    (segmented : Segmented p cs ts q gap) (last : Gap gap) (before : List Token) :
    readOn before ⟨cs, p⟩ = ⟨before.reverse ++ ts, .eof (q.after gap)⟩ := by
  induction segmented generalizing before with
  | done p gap =>
    have read : Cursor.next ⟨gap, p⟩ = (.ok ⟨.eof, "", p.after gap⟩, ⟨[], p.after gap⟩) := by
      have noGap : ¬ BeginsGap [] := id
      have skipped := Cursor.skipTriviaFrom_gap last noGap p
      rw [List.append_nil] at skipped
      exact congrArg Cursor.token skipped
    rw [readOn_of_eof before read rfl, List.append_nil]
  | @token p q gap' rest left t ts between place spelt maximal more ih =>
    have read : Cursor.next ⟨gap' ++ t.lexeme ++ rest, p⟩ =
        (.ok t, ⟨rest, t.start.after t.lexeme⟩) := by
      have skipped := Cursor.skipTriviaFrom_gap between (spelt.not_beginsGap rest) p
      rw [← List.append_assoc, ← place] at skipped
      exact (congrArg Cursor.token skipped).trans (Cursor.token_of_lexeme spelt maximal)
    rw [readOn_of_token before read spelt.ne_eof, ih last, List.reverse_cons, List.append_assoc]
    rfl

/-- However a text without NUL characters is divided, tokenizing divides it so. -/
theorem tokenize_of_segmented {text : String} {ts : List Token} {q : Position} {gap : List Char}
    (whole : '\x00' ∉ text.toList) (segmented : Segmented Position.start text.toList ts q gap)
    (last : Gap gap) : tokenize text = .ok (ts ++ [⟨.eof, "", q.after gap⟩]) := by
  have all : text.toList.takeWhile (· ≠ '\x00') = text.toList := by
    refine List.takeWhile_eq_self_iff.mpr fun c member => decide_eq_true ?_
    rintro rfl
    exact whole member
  have stream := TokenStream.readOn_of_segmented segmented last []
  refine TokenStream.tokenize_eq ?_
  unfold TokenStream.ofText Cursor.ofText
  rw [all, stream]
  rfl

end Tally
