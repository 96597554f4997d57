import Tally.Token.Segmentation
import Mathlib.Data.List.TakeWhile

namespace Tally

namespace Position

theorem after_append (p : Position) (as bs : List Char) :
    p.after (as ++ bs) = (p.after as).after bs := List.foldl_append

theorem char_after (p : Position) (cs : List Char) : (p.after cs).char = p.char + cs.length := by
  induction cs generalizing p with
  | nil => rfl
  | cons c cs ih =>
    have one : (p.next c).char = p.char + 1 := by
      unfold next
      split <;> rfl
    have rest := ih (p.next c)
    rw [List.length_cons]
    change ((p.next c).after cs).char = _
    omega

end Position

namespace Segmented

variable {p q : Position} {cs left : List Char} {ts : List Token}

theorem after_eq (segmented : Segmented p cs ts q left) : q.after left = p.after cs := by
  induction segmented with
  | done p cs => rfl
  | token between place spelt maximal more ih =>
    rw [ih, Position.after_append, Position.after_append, place]

theorem exists_split (segmented : Segmented p cs ts q left) {t : Token} (member : t ∈ ts) :
    ∃ before after, cs = before ++ (t.lexeme ++ after) ∧ t.start = p.after before := by
  induction segmented with
  | done p cs => cases member
  | @token p q gap rest left first ts between place spelt maximal more ih =>
    rcases List.mem_cons.mp member with rfl | member
    · exact ⟨gap, rest, List.append_assoc _ _ _, place⟩
    · obtain ⟨before, after, rfl, here⟩ := ih member
      refine ⟨gap ++ first.lexeme ++ before, after, by simp, ?_⟩
      rw [here, Position.after_append, Position.after_append, place]

theorem lexeme_prefix (segmented : Segmented Position.start cs ts q left) :
    ∀ t ∈ ts, t.lexeme <+: cs.drop t.start.char := by
  intro t member
  obtain ⟨before, after, rfl, place⟩ := segmented.exists_split member
  have char : t.start.char = before.length := by
    rw [place, Position.char_after]
    exact Nat.zero_add _
  rw [char, List.drop_left]
  exact List.prefix_append _ _

end Segmented

theorem EndGap.blank {c : Char} {cs : List Char} (space : isSpace c = true) (more : EndGap cs) :
    EndGap (c :: cs) := by
  rcases more with more | ⟨gap, body, before, line, rfl⟩
  · exact Or.inl (Gap.blank space more)
  · exact Or.inr ⟨c :: gap, body, Gap.blank space before, line, rfl⟩

theorem EndGap.comment {body cs : List Char} (line : '\n' ∉ body) (more : EndGap cs) :
    EndGap ('/' :: '/' :: (body ++ '\n' :: cs)) := by
  rcases more with more | ⟨gap, last, before, line', rfl⟩
  · exact Or.inl (Gap.comment line more)
  · exact Or.inr ⟨_, last, Gap.comment line before, line', by simp⟩

/-- A gap that is as long as it can be in front of the rest of a text. -/
def GapUpTo (gap rest : List Char) : Prop :=
  (Gap gap ∧ ¬ BeginsGap rest) ∨ (EndGap gap ∧ rest = [])

def CommentUpTo (cs rest : List Char) : Prop :=
  ∃ body, '\n' ∉ body ∧
    ((cs = body ∧ rest = []) ∨ ∃ gap, cs = body ++ '\n' :: gap ∧ GapUpTo gap rest)

section

variable {gap rest : List Char}

theorem GapUpTo.blank {c : Char} (space : isSpace c = true) (upTo : GapUpTo gap rest) :
    GapUpTo (c :: gap) rest := by
  rcases upTo with ⟨between, stop⟩ | ⟨last, finished⟩
  · exact Or.inl ⟨Gap.blank space between, stop⟩
  · exact Or.inr ⟨last.blank space, finished⟩

theorem GapUpTo.line (upTo : GapUpTo gap rest) : CommentUpTo ('\n' :: gap) rest :=
  ⟨[], List.not_mem_nil, Or.inr ⟨gap, rfl, upTo⟩⟩

theorem CommentUpTo.cons {c : Char} (other : c ≠ '\n') (upTo : CommentUpTo gap rest) :
    CommentUpTo (c :: gap) rest := by
  obtain ⟨body, line, ends⟩ := upTo
  refine ⟨c :: body, by simpa [Ne.symm other] using line, ?_⟩
  rcases ends with ⟨rfl, finished⟩ | ⟨more, rfl, upTo⟩
  · exact Or.inl ⟨rfl, finished⟩
  · exact Or.inr ⟨more, rfl, upTo⟩

theorem CommentUpTo.opened (upTo : CommentUpTo ('/' :: gap) rest) :
    GapUpTo ('/' :: '/' :: gap) rest := by
  obtain ⟨body, line, ends⟩ := upTo
  rcases ends with ⟨rfl, finished⟩ | ⟨more, same, upTo⟩
  · have line' : '\n' ∉ gap := fun member => line (List.mem_cons_of_mem _ member)
    exact Or.inr ⟨Or.inr ⟨[], gap, Gap.nil, line', rfl⟩, finished⟩
  · cases body with
    | nil => cases same
    | cons slash body =>
      have line' : '\n' ∉ body := fun member => line (List.mem_cons_of_mem _ member)
      cases same
      rcases upTo with ⟨between, stop⟩ | ⟨last, finished⟩
      · exact Or.inl ⟨Gap.comment line' between, stop⟩
      · exact Or.inr ⟨last.comment line', finished⟩

end

namespace Cursor

theorem rest_skipWhile (p : Char → Bool) (c : Cursor) :
    c.rest = c.rest.takeWhile p ++ (c.skipWhile p).rest :=
  List.takeWhile_append_dropWhile.symm

theorem head?_skipWhile {p : Char → Bool} {c : Cursor} {ch : Char}
    (head : (c.skipWhile p).rest.head? = some ch) : p ch = false := by
  have stop := List.head?_dropWhile_not p c.rest
  have same : (c.rest.dropWhile p).head? = some ch := head
  rw [same] at stop
  simpa using stop

def Skipped : Bool → List Char → List Char → Prop
  | false => GapUpTo
  | true => CommentUpTo

theorem skipTriviaFrom_spec (inComment : Bool) (cs : List Char) (p : Position) :
    ∃ gap, cs = gap ++ (skipTriviaFrom inComment cs p).rest ∧
      (skipTriviaFrom inComment cs p).position = p.after gap ∧
      Skipped inComment gap (skipTriviaFrom inComment cs p).rest := by
  induction cs generalizing inComment p with
  | nil =>
    refine ⟨[], rfl, rfl, ?_⟩
    cases inComment with
    | false => exact Or.inr ⟨Or.inl Gap.nil, rfl⟩
    | true => exact ⟨[], List.not_mem_nil, Or.inl ⟨rfl, rfl⟩⟩
  | cons ch cs ih =>
    -- One character is passed over, and what follows it is skipped.
    have pass (mode : Bool) (here : ∀ gap rest, cs = gap ++ rest → Skipped mode gap rest →
        Skipped inComment (ch :: gap) rest) :
        ∃ gap, ch :: cs = gap ++ (skipTriviaFrom mode cs (p.next ch)).rest ∧
          (skipTriviaFrom mode cs (p.next ch)).position = p.after gap ∧
          Skipped inComment gap (skipTriviaFrom mode cs (p.next ch)).rest := by
      obtain ⟨gap, same, place, skipped⟩ := ih mode (p.next ch)
      exact ⟨ch :: gap, congrArg _ same, place, here gap _ same skipped⟩
    cases inComment with
    | true =>
      rw [skipTriviaFrom, if_pos rfl]
      apply pass
      intro gap rest _ skipped
      by_cases line : ch = '\n'
      · subst line
        exact GapUpTo.line skipped
      · have mode : decide (ch ≠ '\n') = true := decide_eq_true line
        rw [mode] at skipped
        exact CommentUpTo.cons line skipped
    | false =>
      rw [skipTriviaFrom, if_neg Bool.false_ne_true]
      by_cases space : isSpace ch = true
      · rw [if_pos space]
        exact pass false fun gap rest _ skipped => GapUpTo.blank space skipped
      · rw [if_neg space]
        by_cases opens : ch = '/' ∧ cs.head? = some '/'
        · rw [if_pos opens]
          apply pass
          intro gap rest same skipped
          obtain ⟨rfl, next⟩ := opens
          cases gap with
          | nil =>
            obtain ⟨body, _, ⟨_, rfl⟩ | ⟨more, impossible, _⟩⟩ := skipped
            · rw [same] at next
              cases next
            · exact absurd impossible (by simp)
          | cons slash gap =>
            rw [same] at next
            cases next
            exact CommentUpTo.opened skipped
        · rw [if_neg opens]
          exact ⟨[], rfl, rfl, Or.inl ⟨Gap.nil, fun begins => begins.elim space opens⟩⟩

theorem skipTrivia_spec (c : Cursor) :
    ∃ gap, c.rest = gap ++ c.skipTrivia.rest ∧ c.skipTrivia.position = c.position.after gap ∧
      GapUpTo gap c.skipTrivia.rest :=
  skipTriviaFrom_spec false c.rest c.position

structure Passes (c : Cursor) (t : Token) (c' : Cursor) : Prop where
  place : t.start = c.position
  rest : c.rest = t.lexeme ++ c'.rest
  position : c'.position = c.position.after t.lexeme
  spelt : t.Spelt
  maximal : t.Maximal c'.rest

def Tells (c : Cursor) : Except LexError Token × Cursor → Prop
  | (.ok t, after) => if t.kind = .eof then t.start = c.position ∧ c.rest = [] else c.Passes t after
  | (.error e, _) => ¬ BeginsGap c.rest → Unreadable c.position c.rest e

variable {c : Cursor} {ch : Char} {cs : List Char}

theorem Passes.tells {t : Token} {after : Cursor} (passes : c.Passes t after) (more : t.kind ≠ .eof) :
    c.Tells (.ok t, after) := by
  simpa only [Tells, if_neg more] using passes

theorem maxInt_eq : maxInt = 2 ^ 63 - 1 := rfl

theorem number_tells (head : c.rest = ch :: cs) (digit : ch.isDigit = true) : c.Tells c.number := by
  have split := c.rest_skipWhile Char.isDigit
  have nonempty : c.rest.takeWhile Char.isDigit ≠ [] := by
    rw [head, List.takeWhile_cons_of_pos digit]
    exact List.cons_ne_nil _ _
  have all : ∀ d ∈ c.rest.takeWhile Char.isDigit, d.isDigit = true :=
    fun _ => List.mem_takeWhile_imp
  unfold number
  dsimp only
  split
  · rename_i letter found
    obtain ⟨next, isLetter⟩ := Option.filter_eq_some_iff.mp found
    obtain ⟨more, rest⟩ := List.head?_eq_some_iff.mp next
    rw [rest] at split
    intro _
    have glued : Unreadable c.position (c.rest.takeWhile Char.isDigit ++ letter :: more) _ :=
      .glued nonempty all isLetter
    rwa [← split] at glued
  · rename_i noLetter
    have ends : EndsWord (c.skipWhile Char.isDigit).rest := by
      intro d next
      have other := head?_skipWhile next
      rw [next] at noLetter
      simpa [isWordChar, other] using noLetter
    split
    · rename_i large
      intro _
      have tooLarge := Unreadable.large (p := c.position) nonempty all
        (by rwa [← maxInt_eq]) ends
      rwa [← split] at tooLarge
    · rename_i small
      refine Passes.tells ⟨rfl, ?_, ?_, ?_, fun _ => ends⟩ (by simp)
      · simpa [Token.lexeme] using split
      · simp [Token.lexeme, skipWhile]
      · refine ⟨by simpa using nonempty, by simpa using all, ?_⟩
        rw [← maxInt_eq, String.toList_ofList]
        omega

theorem isWordLike_ofWord (word : String) : (Token.Kind.ofWord word).isWordLike = true := by
  unfold Token.Kind.ofWord
  split
  · rfl
  split
  · rfl
  split <;> rfl

theorem spelt_word {word : String} (at_ : Position) {first : Char} {others : List Char}
    (chars : word.toList = first :: others) (letter : isLetter first = true)
    (all : ∀ d ∈ word.toList, isWordChar d = true) : (Token.mk (.ofWord word) word at_).Spelt := by
  unfold Token.Kind.ofWord
  split
  · assumption
  split
  · assumption
  split
  · assumption
  · exact ⟨⟨first, others, chars, letter⟩, all, ‹_›, ‹_›, ‹_›⟩

theorem lexeme_of_ne {t : Token} (other : t.kind ≠ .string) : t.lexeme = t.text.toList := by
  unfold Token.lexeme
  split
  · exact absurd ‹_› other
  · rfl

theorem first_of_spelt {t : Token} (spelt : t.Spelt) {first : Char}
    (head : t.lexeme.head? = some first) :
    first = '"' ∨ first.isDigit = true ∨ isLetter first = true ∨
      ∃ kind, Token.Kind.ofChar? first = some kind := by
  obtain ⟨kind, text, start⟩ := t
  cases kind with
  | eof => exact spelt.elim
  | string =>
    cases head
    exact Or.inl rfl
  | int =>
    exact Or.inr (Or.inl (spelt.2.1 first (List.mem_of_head? head)))
  | ident =>
    obtain ⟨⟨c, cs, chars, letter⟩, _⟩ := spelt
    have same : first = c := by
      have here : text.toList.head? = some first := head
      rw [chars] at here
      exact (Option.some.inj here).symm
    rw [same]
    exact Or.inr (Or.inr (Or.inl letter))
  | funcWord | returnWord | whileWord =>
    cases spelt
    simp only [Token.lexeme, String.reduceToList, List.head?_cons, Option.some.injEq] at head
    subst head
    exact Or.inr (Or.inr (Or.inl rfl))
  | plus | assign | lparen | rparen | lbrace | rbrace | comma | semicolon | colon =>
    cases spelt
    simp only [Token.lexeme, String.reduceToList, List.head?_cons, Option.some.injEq] at head
    subst head
    exact Or.inr (Or.inr (Or.inr ⟨_, rfl⟩))

theorem word_tells (head : c.rest = ch :: cs) (letter : isLetter ch = true) :
    c.Tells (.ok c.word.1, c.word.2) := by
  have split := c.rest_skipWhile isWordChar
  have wordChar : isWordChar ch = true := by simp [isWordChar, letter]
  have chars : c.rest.takeWhile isWordChar = ch :: cs.takeWhile isWordChar := by
    rw [head, List.takeWhile_cons_of_pos wordChar]
  have spelt : c.word.1.Spelt := by
    apply spelt_word c.position (String.toList_ofList.trans chars) letter
    rw [String.toList_ofList]
    exact fun _ => List.mem_takeWhile_imp
  have wordLike : c.word.1.kind.isWordLike = true := isWordLike_ofWord _
  have lexeme : c.word.1.lexeme = c.rest.takeWhile isWordChar :=
    (lexeme_of_ne fun same => by rw [same] at wordLike; cases wordLike).trans String.toList_ofList
  refine Passes.tells ⟨rfl, ?_, ?_, spelt, fun _ _ => head?_skipWhile⟩ ?_
  · rwa [lexeme]
  · rw [lexeme]
    rfl
  · intro same
    rw [same] at wordLike
    cases wordLike

theorem string_tells (head : c.rest = '"' :: cs) : c.Tells c.string := by
  have inner : c.skipOne = ⟨cs, c.position.next '"'⟩ := by
    unfold skipOne
    rw [head]
  have split := rest_skipWhile isQuotable ⟨cs, c.position.next '"'⟩
  have quotable : ∀ d ∈ cs.takeWhile isQuotable, d ≠ '"' ∧ d ≠ '\n' := by
    intro d member
    simpa [isQuotable] using List.mem_takeWhile_imp member
  unfold string
  rw [inner]
  dsimp only at split ⊢
  split
  · rename_i closed
    obtain ⟨more, rest⟩ := List.head?_eq_some_iff.mp closed
    rw [rest] at split
    have past : (skipWhile isQuotable ⟨cs, c.position.next '"'⟩).skipOne =
        ⟨more, ((c.position.next '"').after (cs.takeWhile isQuotable)).next '"'⟩ := by
      unfold skipOne
      rw [rest]
      rfl
    rw [past]
    generalize cs.takeWhile isQuotable = inside at split quotable ⊢
    have lexeme : (Token.mk .string (String.ofList inside) c.position).lexeme =
        '"' :: (inside ++ ['"']) := by
      simp [Token.lexeme]
    refine Passes.tells ⟨rfl, ?_, ?_, ?_, fun impossible => nomatch impossible⟩ (by simp)
    · rw [lexeme, head, split]
      simp
    · rw [lexeme]
      exact (Position.after_append (c.position.next '"') inside ['"']).symm
    · simpa [Token.Spelt] using quotable
  · rename_i unclosed
    have cut : (skipWhile isQuotable ⟨cs, c.position.next '"'⟩).rest = [] ∨
        (skipWhile isQuotable ⟨cs, c.position.next '"'⟩).rest.head? = some '\n' := by
      cases next : (skipWhile isQuotable ⟨cs, c.position.next '"'⟩).rest with
      | nil => exact Or.inl rfl
      | cons d ds =>
        have stop := head?_skipWhile (List.head?_eq_some_iff.mpr ⟨ds, next⟩)
        rw [next] at unclosed
        have other : d ≠ '"' := by simpa using unclosed
        right
        simpa [isQuotable, other] using stop
    generalize (skipWhile isQuotable ⟨cs, c.position.next '"'⟩).rest = rest at split cut
    generalize cs.takeWhile isQuotable = inside at split quotable
    intro _
    rw [head, split]
    exact Unreadable.string quotable cut

theorem mark_tells (head : c.rest = ch :: cs) {kind : Token.Kind}
    (found : Token.Kind.ofChar? ch = some kind) :
    c.Tells (.ok ⟨kind, ch.toString, c.position⟩, c.skipOne) := by
  have one : c.skipOne = ⟨cs, c.position.next ch⟩ := by
    unfold skipOne
    rw [head]
  have mark : kind.isWordLike = false ∧ kind ≠ .string ∧ kind ≠ .eof ∧
      (Token.mk kind ch.toString c.position).Spelt := by
    unfold Token.Kind.ofChar? at found
    split at found <;> cases found <;> exact ⟨rfl, nofun, nofun, rfl⟩
  obtain ⟨noWord, noString, noEof, spelt⟩ := mark
  have lexeme : (Token.mk kind ch.toString c.position).lexeme = [ch] :=
    (lexeme_of_ne noString).trans (by simp)
  rw [one]
  refine Passes.tells ⟨rfl, ?_, ?_, spelt, fun wordLike => ?_⟩ noEof
  · rw [lexeme, head]
    rfl
  · rw [lexeme]
    rfl
  · cases noWord.symm.trans wordLike

theorem token_tells (c : Cursor) : c.Tells c.token := by
  unfold token
  split
  · rename_i finished
    exact ⟨rfl, finished⟩
  · rename_i ch cs head
    split
    · rename_i quote
      subst quote
      exact string_tells head
    split
    · rename_i digit
      exact number_tells head digit
    split
    · rename_i letter
      exact word_tells head letter
    split
    · rename_i kind found
      exact mark_tells head found
    · rename_i noQuote noDigit noLetter _ noMark
      intro noGap
      rw [head] at noGap ⊢
      apply Unreadable.character noGap
      rintro ⟨t, spelt, first⟩
      rcases first_of_spelt spelt first with quote | digit | letter | ⟨kind, mark⟩
      · exact noQuote quote
      · exact noDigit digit
      · exact noLetter letter
      · cases noMark.symm.trans mark

theorem next_tells (c : Cursor) :
    ∃ gap, c.rest = gap ++ c.skipTrivia.rest ∧ c.skipTrivia.position = c.position.after gap ∧
      GapUpTo gap c.skipTrivia.rest ∧ c.skipTrivia.Tells c.next := by
  obtain ⟨gap, split, place, upTo⟩ := c.skipTrivia_spec
  exact ⟨gap, split, place, upTo, c.skipTrivia.token_tells⟩

end Cursor

def Ending.Leaves (q : Position) (left : List Char) : Ending → Prop
  | .eof p => EndGap left ∧ p = q.after left
  | .fault e => ∃ gap rest, left = gap ++ rest ∧ Gap gap ∧ Unreadable (q.after gap) rest e

theorem Unreadable.ne_nil {p : Position} {cs : List Char} {e : LexError}
    (unreadable : Unreadable p cs e) : cs ≠ [] := by
  cases unreadable with
  | character | string => exact List.cons_ne_nil _ _
  | large nonempty | glued nonempty => simp [nonempty]

theorem GapUpTo.gap_of_ne_nil {gap rest : List Char} (upTo : GapUpTo gap rest) (more : rest ≠ []) :
    Gap gap ∧ ¬ BeginsGap rest :=
  upTo.resolve_right fun finished => more finished.2

theorem GapUpTo.endGap {gap rest : List Char} (upTo : GapUpTo gap rest) : EndGap gap :=
  upTo.elim (fun stopped => Or.inl stopped.1) fun finished => finished.1

namespace TokenStream

variable {before : List Token} {c after : Cursor} {t : Token} {e : LexError}

theorem readOn_of_error (before : List Token) (read : c.next = (.error e, after)) :
    readOn before c = ⟨before.reverse, .fault e⟩ := by
  rw [readOn]
  split <;> rename_i read' <;> cases read.symm.trans read'
  rfl

theorem readOn_of_eof (before : List Token) (read : c.next = (.ok t, after)) (final : t.kind = .eof) :
    readOn before c = ⟨before.reverse, .eof t.start⟩ := by
  rw [readOn]
  split <;> rename_i read' <;> cases read.symm.trans read'
  exact dif_pos final

theorem readOn_of_token (before : List Token) (read : c.next = (.ok t, after))
    (more : t.kind ≠ .eof) : readOn before c = readOn (t :: before) after := by
  rw [readOn]
  split <;> rename_i read' <;> cases read.symm.trans read'
  exact dif_neg more

theorem readOn_segmented (before : List Token) (c : Cursor) :
    ∃ ts q left, (readOn before c).tokens = before.reverse ++ ts ∧
      Segmented c.position c.rest ts q left ∧ (readOn before c).ending.Leaves q left := by
  induction before, c using readOn.induct with
  | case1 before c e after failed =>
    obtain ⟨gap, split, place, upTo, tells⟩ := c.next_tells
    rw [failed] at tells
    have noGap : ¬ BeginsGap c.skipTrivia.rest :=
      upTo.elim (fun stopped => stopped.2) fun finished begins => by rwa [finished.2] at begins
    have unreadable := tells noGap
    rw [place] at unreadable
    have between := (upTo.gap_of_ne_nil unreadable.ne_nil).1
    rw [readOn_of_error before failed]
    exact ⟨[], c.position, c.rest, (List.append_nil _).symm, Segmented.done _ _, gap, _, split,
      between, unreadable⟩
  | case2 before c t after read final =>
    obtain ⟨gap, split, place, upTo, tells⟩ := c.next_tells
    rw [read] at tells
    obtain ⟨start, finished⟩ := (if_pos final).mp tells
    rw [finished, List.append_nil] at split
    rw [readOn_of_eof before read final]
    refine ⟨[], c.position, c.rest, (List.append_nil _).symm, Segmented.done _ _, ?_, ?_⟩
    · rw [split]
      exact upTo.endGap
    · rw [split, start, place]
  | case3 before c t after read more ih =>
    obtain ⟨gap, split, place, upTo, tells⟩ := c.next_tells
    rw [read] at tells
    have passes : c.skipTrivia.Passes t after := by simpa only [Cursor.Tells, if_neg more] using tells
    have nonempty : c.skipTrivia.rest ≠ [] := by
      intro empty
      have shorter := Cursor.length_token_lt read more
      rw [empty] at shorter
      cases shorter
    obtain ⟨ts, q, left, tokens, segmented, leaves⟩ := ih
    rw [readOn_of_token before read more]
    refine ⟨t :: ts, q, left, ?_, ?_, leaves⟩
    · rw [tokens, List.reverse_cons, List.append_assoc]
      rfl
    · rw [split, passes.rest, ← List.append_assoc]
      rw [passes.position, ← passes.place] at segmented
      exact Segmented.token (upTo.gap_of_ne_nil nonempty).1 (passes.place.trans place) passes.spelt
        passes.maximal segmented

end TokenStream

/-- A text up to its first NUL character is divided by its tokens. -/
theorem tokenize_divides (text : String) :
    Divides (text.toList.takeWhile (· ≠ '\x00')) (tokenize text) := by
  obtain ⟨body, q, left, tokens, segmented, leaves⟩ :=
    TokenStream.readOn_segmented [] (Cursor.ofText text)
  have begins := segmented.lexeme_prefix
  unfold tokenize TokenStream.ofText
  dsimp only
  rw [tokens]
  cases ending : (TokenStream.readOn [] (Cursor.ofText text)).ending with
  | eof p =>
    rw [ending] at leaves
    obtain ⟨gap, place⟩ := leaves
    rw [segmented.after_eq] at place
    refine ⟨body, q, left, by rw [place]; rfl, segmented, gap, begins, ?_⟩
    rw [Position.char_after]
    exact Nat.zero_add _
  | fault e =>
    rw [ending] at leaves
    obtain ⟨gap, rest, rfl, between, unreadable⟩ := leaves
    exact ⟨body, q, gap, rest, segmented, between, begins, unreadable⟩

end Tally
