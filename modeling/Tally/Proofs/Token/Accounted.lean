import Tally.Token.Region
import Tally.Proofs.Token.Increasing

namespace Tally

namespace Region

variable {cs rest : List Char}

theorem onward_plain (all : ∀ c ∈ cs, c ≠ '"' ∧ c ≠ '/') :
    onward .plain (cs ++ rest) = List.replicate cs.length .plain ++ onward .plain rest := by
  induction cs with
  | nil => rfl
  | cons c cs ih =>
    obtain ⟨⟨noQuote, noSlash⟩, all⟩ := List.forall_mem_cons.mp all
    rw [List.cons_append, onward, if_neg noQuote, if_neg fun opens => noSlash opens.1, ih all]
    rfl

theorem onward_comment (line : '\n' ∉ cs) :
    onward .comment (cs ++ rest) = List.replicate cs.length .comment ++ onward .comment rest := by
  induction cs with
  | nil => rfl
  | cons c cs ih =>
    obtain ⟨other, line⟩ := not_or.mp (mt List.mem_cons.mpr line)
    rw [List.cons_append, onward, if_neg (Ne.symm other), ih line]
    rfl

theorem onward_string (inner : ∀ c ∈ cs, c ≠ '"' ∧ c ≠ '\n') :
    onward .string (cs ++ rest) = List.replicate cs.length .string ++ onward .string rest := by
  induction cs with
  | nil => rfl
  | cons c cs ih =>
    obtain ⟨here, inner⟩ := List.forall_mem_cons.mp inner
    rw [List.cons_append, onward, if_neg (not_or.mpr here), ih inner]
    rfl

theorem onward_commented {body : List Char} (line : '\n' ∉ body) (rest : List Char) :
    onward .plain ('/' :: '/' :: (body ++ ['\n']) ++ rest) =
      List.replicate ('/' :: '/' :: (body ++ ['\n'])).length .comment ++ onward .plain rest := by
  have opened : onward .plain ('/' :: '/' :: (body ++ ['\n']) ++ rest) =
      .comment :: .comment :: onward .comment (body ++ '\n' :: rest) := by
    simp [onward]
  rw [opened, onward_comment line, onward, if_pos rfl, List.length_cons, List.length_cons,
    List.length_append, List.length_singleton, List.replicate_succ, List.replicate_succ,
    List.replicate_succ']
  simp

end Region

def EachHas (P : Nat → Char → Region → Prop) (n : Nat) (cs : List Char) (rs : List Region) : Prop :=
  cs.length = rs.length ∧ ∀ i c r, cs[i]? = some c → rs[i]? = some r → P (n + i) c r

namespace EachHas

variable {P Q : Nat → Char → Region → Prop} {n : Nat} {cs ds : List Char} {rs ss : List Region}

theorem nil : EachHas P n [] [] := ⟨rfl, nofun⟩

theorem append (first : EachHas P n cs rs) (second : EachHas P (n + cs.length) ds ss) :
    EachHas P n (cs ++ ds) (rs ++ ss) := by
  obtain ⟨length, each⟩ := first
  obtain ⟨length', each'⟩ := second
  refine ⟨by simp [length, length'], fun i c r char region => ?_⟩
  by_cases inside : i < cs.length
  · rw [List.getElem?_append_left inside] at char
    rw [List.getElem?_append_left (length ▸ inside)] at region
    exact each i c r char region
  · have le : cs.length ≤ i := Nat.le_of_not_lt inside
    rw [List.getElem?_append_right le] at char
    rw [List.getElem?_append_right (length ▸ le), ← length] at region
    have here := each' _ c r char region
    rwa [show n + cs.length + (i - cs.length) = n + i from by omega] at here

theorem replicate {r : Region} (all : ∀ i c, cs[i]? = some c → P (n + i) c r) :
    EachHas P n cs (List.replicate cs.length r) := by
  refine ⟨by simp, fun i c r' char region => ?_⟩
  obtain rfl := List.eq_of_mem_replicate (List.mem_of_getElem? region)
  exact all i c char

theorem imp (each : EachHas P n cs rs)
    (weaker : ∀ i c r, i < cs.length → P (n + i) c r → Q (n + i) c r) : EachHas Q n cs rs :=
  ⟨each.1, fun i c r char region =>
    weaker i c r (List.getElem?_eq_some_iff.mp char).1 (each.2 i c r char region)⟩

end EachHas

def InGap (_ : Nat) (c : Char) (r : Region) : Prop := isSpace c = true ∨ r = .comment

theorem Gap.regions_eq {gap : List Char} (between : Gap gap) (n : Nat) (rest : List Char) :
    ∃ rs, Region.onward .plain (gap ++ rest) = rs ++ Region.onward .plain rest ∧
      EachHas InGap n gap rs := by
  induction between generalizing n with
  | nil => exact ⟨[], rfl, .nil⟩
  | @blank c cs space more ih =>
    obtain ⟨rs, same, each⟩ := ih (n + 1)
    have other : ∀ d ∈ [c], d ≠ '"' ∧ d ≠ '/' := by
      intro d member
      obtain rfl := List.mem_singleton.mp member
      constructor <;> rintro rfl <;> cases space
    have first : EachHas InGap n [c] [.plain] := by
      refine ⟨rfl, fun i d r char _ => .inl ?_⟩
      obtain rfl := List.mem_singleton.mp (List.mem_of_getElem? char)
      exact space
    exact ⟨Region.plain :: rs, (Region.onward_plain other).trans (congrArg _ same), first.append each⟩
  | @comment body cs line more ih =>
    have split : '/' :: '/' :: (body ++ '\n' :: cs) = ('/' :: '/' :: (body ++ ['\n'])) ++ cs := by
      simp
    obtain ⟨rs, same, each⟩ := ih (n + ('/' :: '/' :: (body ++ ['\n'])).length)
    rw [split, List.append_assoc, Region.onward_commented line, same, ← List.append_assoc]
    exact ⟨_, rfl, .append (.replicate fun _ _ _ => .inr rfl) each⟩

theorem EndGap.inGap {left : List Char} (last : EndGap left) (n : Nat) :
    EachHas InGap n left (regions left) := by
  rcases last with between | ⟨gap, body, between, line, rfl⟩
  · obtain ⟨rs, same, each⟩ := between.regions_eq n []
    rw [List.append_nil, Region.onward, List.append_nil] at same
    rwa [regions, same]
  · obtain ⟨rs, same, each⟩ := between.regions_eq n ('/' :: '/' :: body)
    have comment : Region.onward .plain ('/' :: '/' :: body) =
        List.replicate ('/' :: '/' :: body).length .comment := by
      have inside : Region.onward .comment (body ++ []) = _ := Region.onward_comment line
      simp only [List.append_nil, Region.onward] at inside
      simp [Region.onward, inside, List.replicate_succ]
    rw [regions, same, comment]
    exact each.append (.replicate fun _ _ _ => .inr rfl)

def IsTokenChar (c : Char) : Prop :=
  isWordChar c = true ∨ ∃ kind, Token.Kind.ofChar? c = some kind

namespace IsTokenChar

variable {c : Char}

theorem no_quote (part : IsTokenChar c) : c ≠ '"' ∧ c ≠ '/' := by
  constructor
  · rintro rfl
    rcases part with word | ⟨kind, mark⟩
    · cases word
    · cases mark
  · rintro rfl
    rcases part with word | ⟨kind, mark⟩
    · cases word
    · cases mark

theorem beginsToken (part : IsTokenChar c) : BeginsToken c := by
  have chars : (String.ofList [c]).toList = [c] := String.toList_ofList
  rcases part with word | ⟨kind, mark⟩
  · by_cases digit : c.isDigit = true
    · refine ⟨⟨.int, String.ofList [c], .start⟩, ⟨?_, ?_, ?_⟩, ?_⟩
      · simp
      · simpa [chars] using digit
      · have most : c.toNat ≤ '9'.toNat := (Char.isDigit_iff_toNat.mp digit).2
        have nine : '9'.toNat = 57 := rfl
        simp only [chars, decimalValue, List.foldl_cons, List.foldl_nil]
        omega
      · simp [Token.lexeme]
    · have letter : isLetter c = true := by simpa [isWordChar, digit] using word
      have short {word : String} (long : word.toList.length ≠ 1) : String.ofList [c] ≠ word := by
        rintro rfl
        exact long (congrArg List.length chars)
      refine ⟨⟨.ident, String.ofList [c], .start⟩, ⟨⟨c, [], chars, letter⟩, ?_, ?_⟩, ?_⟩
      · simpa [chars] using word
      · exact ⟨short (by decide), short (by decide), short (by decide)⟩
      · simp [Token.lexeme]
  · have spelt : (Token.mk kind c.toString .start).Spelt ∧ kind ≠ .string := by
      unfold Token.Kind.ofChar? at mark
      split at mark <;> cases mark <;> exact ⟨rfl, by decide⟩
    refine ⟨_, spelt.1, ?_⟩
    rw [Cursor.lexeme_of_ne spelt.2]
    simp

end IsTokenChar

theorem Token.Spelt.isTokenChar {t : Token} (spelt : t.Spelt) (other : t.kind ≠ .string) :
    ∀ c ∈ t.lexeme, IsTokenChar c := by
  obtain ⟨kind, text, start⟩ := t
  cases kind with
  | eof => exact spelt.elim
  | string => exact absurd rfl other
  | int => exact fun c member => .inl (by simp [isWordChar, spelt.2.1 c member])
  | ident => exact fun c member => .inl (spelt.2.1 c member)
  | funcWord | returnWord | whileWord =>
    have word : text.toList.all isWordChar = true := by
      cases spelt
      decide
    exact fun c member => .inl (List.all_eq_true.mp word c member)
  | plus | assign | lparen | rparen | lbrace | rbrace | comma | semicolon | colon =>
    cases spelt
    intro c member
    simp only [Token.lexeme, String.reduceToList, List.mem_singleton] at member
    exact .inr ⟨_, congrArg _ member⟩

def InToken (_ : Nat) (c : Char) (r : Region) : Prop := r = .plain → BeginsToken c

theorem Token.Spelt.regions_eq {t : Token} (spelt : t.Spelt) (n : Nat) (rest : List Char) :
    ∃ rs, Region.onward .plain (t.lexeme ++ rest) = rs ++ Region.onward .plain rest ∧
      EachHas InToken n t.lexeme rs := by
  by_cases quoted : t.kind = .string
  · obtain ⟨kind, text, start⟩ := t
    cases quoted
    have lexeme : (Token.mk .string text start).lexeme = '"' :: (text.toList ++ ['"']) := rfl
    refine ⟨List.replicate ('"' :: (text.toList ++ ['"'])).length .string, ?_, ?_⟩
    · rw [lexeme]
      have opened : Region.onward .plain ('"' :: (text.toList ++ ['"']) ++ rest) =
          .string :: Region.onward .string (text.toList ++ '"' :: rest) := by
        simp [Region.onward]
      rw [opened, Region.onward_string spelt, Region.onward, if_pos (.inl rfl), List.length_cons,
        List.length_append, List.length_singleton, List.replicate_succ, List.replicate_succ']
      simp
    · exact .replicate fun _ _ _ impossible => nomatch impossible
  · have parts := spelt.isTokenChar quoted
    refine ⟨_, Region.onward_plain fun c member => (parts c member).no_quote, ?_⟩
    exact .replicate fun i c char _ => (parts c (List.mem_of_getElem? char)).beginsToken

/-- A character that belongs to a gap, or to one of these tokens. -/
def Placed (ts : List Token) (place : Nat) (c : Char) (r : Region) : Prop :=
  InGap place c r ∨ ∃ t ∈ ts, t.Covers place ∧ InToken place c r

theorem Segmented.placed {p q : Position} {cs left : List Char} {ts : List Token}
    (segmented : Segmented p cs ts q left) (last : EndGap left) :
    EachHas (Placed ts) p.char cs (regions cs) := by
  induction segmented with
  | done p cs => exact (last.inGap p.char).imp fun _ _ _ _ => .inl
  | @token p q gap rest left t ts between place spelt maximal more ih =>
    obtain ⟨rs, same, each⟩ := between.regions_eq p.char (t.lexeme ++ rest)
    obtain ⟨rs', same', each'⟩ := spelt.regions_eq t.start.char rest
    have start : p.char + gap.length = t.start.char := by rw [place, Position.char_after]
    have behind : t.start.char + t.lexeme.length = (t.start.after t.lexeme).char :=
      (Position.char_after _ _).symm
    rw [regions, List.append_assoc, same, same']
    refine EachHas.append (each.imp fun _ _ _ _ => .inl) ?_
    rw [start]
    refine EachHas.append (each'.imp fun i c r inside here => ?_) ?_
    · exact .inr ⟨t, List.mem_cons_self, ⟨by omega, by omega⟩, here⟩
    · rw [behind]
      refine (ih last).imp fun i c r _ here => here.imp id ?_
      rintro ⟨u, member, covered⟩
      exact ⟨u, List.mem_cons_of_mem _ member, covered⟩

theorem Segmented.accountedBy {cs left : List Char} {q : Position} {ts : List Token}
    (segmented : Segmented .start cs ts q left) (last : EndGap left) : AccountedBy cs ts := by
  intro i c char
  obtain ⟨length, placed⟩ := segmented.placed last
  have inside : i < (regions cs).length := length ▸ (List.getElem?_eq_some_iff.mp char).1
  have region := List.getElem?_eq_getElem inside
  have here := placed i c _ char region
  rw [show Position.start.char + i = i from Nat.zero_add i] at here
  rcases here with (space | comment) | ⟨t, member, covered, _⟩
  · exact .inr (.inl space)
  · exact .inr (.inr (comment ▸ region))
  · exact .inl ⟨t, member, covered, segmented.lexeme_prefix t member⟩

/-- What comes behind the first NUL character of a text plays no part. -/
theorem tokenize_upToNul (text : String) :
    tokenize text = tokenize (String.ofList (text.toList.takeWhile (· ≠ '\x00'))) := by
  have same : Cursor.ofText text =
      Cursor.ofText (String.ofList (text.toList.takeWhile (· ≠ '\x00'))) := by
    simp [Cursor.ofText, List.takeWhile_takeWhile]
  unfold tokenize TokenStream.ofText
  rw [same]

theorem length_upToNul_iff (text : String) :
    (text.toList.takeWhile (· ≠ '\x00')).length = text.length ↔ '\x00' ∉ text.toList := by
  rw [← String.length_toList]
  constructor
  · intro length member
    have whole := (List.takeWhile_prefix _).eq_of_length length
    have each := List.takeWhile_eq_self_iff.mp whole _ member
    simp at each
  · intro none
    rw [List.takeWhile_eq_self_iff.mpr]
    intro c member
    refine decide_eq_true ?_
    rintro rfl
    exact none member

/-- A text that is tokenized is accounted for up to its first NUL character, where it ends; and a
character before that, outside strings and comments, that is no blank and can begin no token makes
tokenizing fail. -/
theorem tokenize_accounts (text : String) :
    let cs := text.toList.takeWhile (· ≠ '\x00')
    tokenize text = tokenize (String.ofList cs) ∧
      (∀ ts, tokenize text = .ok ts → ∃ body ending, ts = body ++ [⟨.eof, "", ending⟩] ∧
        ending.char = cs.length ∧ (ending.char = text.length ↔ '\x00' ∉ text.toList) ∧
        AccountedBy cs body) ∧
      ∀ (i : Nat) (c : Char), cs[i]? = some c → (regions cs)[i]? = some .plain → isSpace c = false →
        ¬ BeginsToken c → ∃ e, tokenize text = .error e := by
  intro cs
  have divides : Divides cs (tokenize text) := tokenize_divides text
  refine ⟨tokenize_upToNul text, fun ts lexed => ?_, fun i c char region noSpace noToken => ?_⟩
  · rw [lexed] at divides
    obtain ⟨body, q, left, rfl, segmented, last, _, length⟩ := divides
    refine ⟨body, _, rfl, length, ?_, segmented.accountedBy last⟩
    rw [length]
    exact length_upToNul_iff text
  · cases lexed : tokenize text with
    | error e => exact ⟨e, rfl⟩
    | ok ts =>
      rw [lexed] at divides
      obtain ⟨body, q, left, _, segmented, last, _⟩ := divides
      rcases (segmented.placed last).2 i c _ char region with (space | comment) | ⟨_, _, _, begins⟩
      · cases noSpace.symm.trans space
      · cases comment
      · exact absurd (begins rfl) noToken

theorem not_beginsToken_dollar : ¬ BeginsToken '$' := by
  rintro ⟨t, spelt, head⟩
  have first := Cursor.first_of_spelt spelt head
  simp [isLetter, Token.Kind.ofChar?] at first

theorem tokenize_accounts_samples :
    tokenize "f // $" = .ok [⟨.ident, "f", ⟨0, 0, 0⟩⟩, ⟨.eof, "", ⟨6, 0, 6⟩⟩] ∧
      (∃ body ending, [⟨.ident, "f", ⟨0, 0, 0⟩⟩, ⟨.eof, "", ⟨6, 0, 6⟩⟩] =
          body ++ [(⟨.eof, "", ending⟩ : Token)] ∧
        ending.char = 6 ∧ (ending.char = 6 ↔ '\x00' ∉ "f // $".toList) ∧
        AccountedBy "f // $".toList body) ∧
      (regions "\"$\" $".toList)[4]? = some .plain ∧ ∃ e, tokenize "\"$\" $" = .error e := by
  have lexed : tokenize "f // $" = .ok [⟨.ident, "f", ⟨0, 0, 0⟩⟩, ⟨.eof, "", ⟨6, 0, 6⟩⟩] := by
    decide +kernel
  have plain : (regions "\"$\" $".toList)[4]? = some .plain := by decide
  exact ⟨lexed, (tokenize_accounts "f // $").2.1 _ lexed, plain,
    (tokenize_accounts "\"$\" $").2.2 4 '$' rfl plain rfl not_beginsToken_dollar⟩

/-- Behind a NUL character a text is not looked at: it ends there, whatever follows. -/
theorem tokenize_stops_at_nul :
    tokenize "a;\x00$" = .ok [⟨.ident, "a", ⟨0, 0, 0⟩⟩, ⟨.semicolon, ";", ⟨1, 0, 1⟩⟩,
        ⟨.eof, "", ⟨2, 0, 2⟩⟩] ∧
      "a;\x00$".length = 4 ∧ "a;\x00$".toList[3]? = some '$' ∧
      (regions "a;\x00$".toList)[3]? = some .plain ∧ isSpace '$' = false ∧ ¬ BeginsToken '$' :=
  ⟨by decide +kernel, rfl, rfl, by decide, rfl, not_beginsToken_dollar⟩

end Tally
