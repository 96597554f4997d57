import Tally.Proofs.Grammar.Blame
import Tally.Proofs.Grammar.Exact
import Tally.Proofs.Grammar.Recorded

namespace Tally

namespace Grammar

/-- The tokens, up to the end of the text if it is among them, begin some derived text. -/
def Viable (g : Grammar) (ts : List Token) : Prop :=
  ∃ p us e, g.Derives p us ∧ e.kind = .eof ∧ ts <+: us ++ [e]

def Anywhere {α : Type} (one : α → List Token → Token.Kind → Prop) (a : α) (us : List Token) :
    Prop := ∀ k, one a us k

theorem Closing.anywhere {us : List Token} {k : Token.Kind} (closing : Closing extended us k) :
    ∀ k', Closing extended us k' := by
  cases closing with
  | none => exact fun _ => .none trivial
  | semicolon kind => exact fun _ => .semicolon kind

theorem inherited_anywhere : Inherited extended (fun s us _ => Anywhere (Clause extended) s us)
    (fun s us _ => Anywhere (Statement extended) s us) (Sequence (Statement extended)) where
  block opens closes inner := fun _ => .block opens inner closes
  loop word opens tested closes inner := fun k => .loop word opens tested closes (inner k)
  ret word returned _ := fun _ => .ret word returned trivial
  eval value _ := fun _ => .eval value trivial
  ended closing inner := fun k => .ended (inner _) (closing.anywhere k)
  nil := .nil
  cons _ first rest := .cons (first _) rest

theorem Entry.anywhere {i : Item} {us : List Token} {k : Token.Kind} :
    Entry greedy i us k → Anywhere (Entry extended) i us
  | .prototype heading assigns named closing, k =>
    .prototype heading assigns named (closing.relaxed.anywhere k)
  | .definition heading body closing, k =>
    .definition heading (inherited_anywhere.of_clause (inherited_relaxed.of_clause body) _)
      (closing.relaxed.anywhere k)
  | .stmt whole, k =>
    .stmt (inherited_anywhere.of_statement (inherited_relaxed.of_statement whole) k)

section

variable {α : Type} {one : α → List Token → Token.Kind → Prop} {whole : α → List Token → Prop}

theorem Sequence.anywhere {as : List α} {us : List Token} {k : Token.Kind}
    (derived : Sequence (fun a us _ => Anywhere one a us) as us k) :
    Anywhere (Sequence one) as us := by
  induction derived with
  | nil => exact fun k => .nil k
  | cons first _ ih => exact fun k => .cons (first _) (ih k)

theorem Sequence.concat {as : List α} {us : List Token} {k : Token.Kind}
    (derived : Sequence (fun a us _ => whole a us) as us k) {a : α} {vs : List Token}
    (last : whole a vs) (k' : Token.Kind) :
    Sequence (fun a us _ => whole a us) (as ++ [a]) (us ++ vs) k' := by
  induction derived with
  | nil =>
    have only : Sequence (fun a us _ => whole a us) [a] (vs ++ []) k' := .cons last (.nil k')
    rwa [List.append_nil] at only
  | cons first _ ih =>
    rw [List.append_assoc]
    exact .cons first ih

end

end Grammar

open Grammar

namespace Reading

variable {α : Type} {item : Reading α} {one : α → List Token → Token.Kind → Prop}
  {whole : α → List Token → Prop}

theorem sequence_blames (stops : Token.Kind → Prop) [DecidablePred stops] (inBlock : Bool)
    (read : item.Reads one) (nonempty : ∀ a us k, one a us k → us ≠ [])
    (wholly : ∀ a us k, one a us k → whole a us) (blames : item.Blames fun us _ => Begins whole us) :
    (iterate [] (sequenceRound stops inBlock item)).Blames fun us _ =>
      Begins (fun as us => Sequence (fun a us _ => whole a us) as us .eof) us := by
  refine Blames.mono (Blames.iterate
      (fun us _ => Begins (fun as us => Sequence (fun a us _ => whole a us) as us .eof) us)
      (sequenceRound_reads stops inBlock read nonempty) (fun before => ?_) [])
    fun us k begun => begun [] fun _ _ _ _ list => list
  have another : ((· :: before) <$> item).Reads fun _ _ _ => True := read.map fun _ _ _ _ => trivial
  have resumed : (do recover inBlock; return before : Reading (List α)).Reads fun _ _ _ => True :=
    (recover_reads inBlock).bind fun _ => .pure fun _ _ _ => trivial
  refine Blames.currentKind fun kind => ?_
  split
  · exact .pure
  refine Blames.map (Blames.orElse (Blames.map (blames.mono ?_) read) another resumed.grows)
    (another.orElse resumed)
  rintro vs k ⟨a, ws, last⟩ _ us list
  have so_far := list [] [] _ rfl (.nil _)
  rw [List.append_nil, List.append_nil] at so_far
  have all := (so_far.mono fun a _ us k => wholly a us k).concat last .eof
  rw [← List.append_assoc] at all
  exact ⟨_, ws, all⟩

end Reading

theorem Expr.parseWhole_blames : parseWhole.Blames fun us _ => Begins (Sum True) us :=
  (parseWhole_straight : Reading.Straight _ Position.start _).blames

theorem Header.parse_blames : Header.parse.Blames fun us _ => Begins (Heading True) us :=
  (parse_straight : Reading.Straight _ Position.start _).blames

theorem skipSemicolon_blames {blamed : List Token → Token.Kind → Prop} :
    skipSemicolon.Blames blamed :=
  (skipSemicolon_straight : Reading.Straight _ Position.start _).blames

namespace Stmt

variable {nested : Reading Stmt} {room : Nat}

theorem Bounded.anywhere {s : Stmt} {us : List Token} {k : Token.Kind} (read : s.Bounded room us k) :
    Anywhere (Statement extended) s us :=
  inherited_anywhere.of_statement
    (inherited_relaxed.of_statement (read.1.plain fun _ _ => Expr.Bounded.sum))

theorem parseBlock_blames (read : nested.Reads (Bounded room))
    (blames : nested.Blames fun us _ => Begins (Anywhere (Statement extended)) us) :
    (parseBlock nested).Blames fun us _ => Begins
      (fun (block : Position × List Stmt) us => Anywhere (Clause extended) (.block block.1 block.2) us)
      us := by
  let opened := Token.ofKind .lbrace
  let closed := Token.ofKind .rbrace
  have takes {kind : Token.Kind} (real : kind ≠ .eof) := Reading.take_reads real
  refine Reading.Blames.bind (Reading.take_blames _ fun k => ?_) (takes (by decide)) fun l => ?_
  · exact ⟨(_, []), [opened, closed], fun k => .block rfl (.nil _) rfl⟩
  refine Reading.Blames.bind (Reading.Blames.mono (Reading.sequence_blames _ true read
    (fun _ _ _ => Bounded.ne_nil) (fun _ _ _ => Bounded.anywhere) blames) ?_)
    (Reading.sequence_reads (fun kind => kind = .rbrace ∨ kind = .eof) true read
      fun _ _ _ => Bounded.ne_nil) fun body => ?_
  · rintro us k ⟨body, vs, inner⟩ _ ⟨rfl, opens⟩
    have block : Anywhere (Clause extended) (.block l.start body) (l :: (us ++ vs ++ [closed])) :=
      fun k => .block opens (inner.anywhere _) rfl
    rw [List.append_assoc] at block
    exact ⟨(l.start, body), vs ++ [closed], block⟩
  refine Reading.Blames.bind (Reading.take_blames _ ?_) (takes (by decide)) fun r => .pure
  rintro k us ⟨_, inner⟩ _ ⟨rfl, opens⟩
  have whole := inner.mono fun s _ us k whole => whole.anywhere
  rw [List.append_nil]
  exact ⟨(l.start, body), [closed], fun k => .block opens (whole.anywhere _) rfl⟩

theorem shortest : Sum True (.ident ⟨"IDENT", Position.start⟩) [Token.ofKind .ident] ∧
    Anywhere (Statement extended) (.eval (.ident ⟨"IDENT", Position.start⟩))
      [Token.ofKind .ident] := by
  have value : Sum True (.ident ⟨"IDENT", Position.start⟩) [Token.ofKind .ident] :=
    .operand (.ident (t := Token.ofKind .ident) rfl)
  exact ⟨value, fun k => .bare (.eval value trivial) trivial⟩

theorem parseLoop_blames (read : nested.Reads (Bounded room))
    (blames : nested.Blames fun us _ => Begins (Anywhere (Statement extended)) us) :
    (parseLoop nested).Blames fun us _ => Begins (Anywhere (Clause extended)) us := by
  let word := Token.ofKind .whileWord
  let opened := Token.ofKind .lparen
  let closed := Token.ofKind .rparen
  let name := Token.ofKind .ident
  obtain ⟨value, statement⟩ := shortest
  have takes {kind : Token.Kind} (real : kind ≠ .eof) := Reading.take_reads real
  refine Reading.Blames.bind (Reading.take_blames _ fun k => ?_) (takes (by decide)) fun w => ?_
  · exact ⟨_, [word, opened, name, closed, name], fun k => .loop rfl rfl value rfl (statement k)⟩
  refine Reading.Blames.bind (Reading.take_blames _ ?_) (takes (by decide)) fun l => ?_
  · rintro k _ ⟨rfl, begins⟩
    exact ⟨_, [opened, name, closed, name], fun k => .loop begins rfl value rfl (statement k)⟩
  refine Reading.Blames.bind (Expr.parseWhole_blames.mono ?_) Expr.parseWhole_reads
    fun condition => ?_
  · rintro us k ⟨e, vs, tested⟩ _ ⟨rfl, opens⟩ _ ⟨rfl, begins⟩
    have clause : Anywhere (Clause extended) _ (w :: l :: ((us ++ vs) ++ closed :: [name])) :=
      fun k => .loop begins opens tested rfl (statement k)
    rw [List.append_assoc] at clause
    exact ⟨_, vs ++ [closed, name], clause⟩
  refine Reading.Blames.bind (Reading.take_blames _ ?_) (takes (by decide)) fun r => ?_
  · rintro k us ⟨tested, _⟩ _ ⟨rfl, opens⟩ _ ⟨rfl, begins⟩
    rw [List.append_nil]
    exact ⟨_, [closed, name], fun k => .loop begins opens tested.sum rfl (statement k)⟩
  refine Reading.Blames.bind (blames.mono ?_) read fun body => .pure
  rintro vs k ⟨s, ws, repeated⟩ _ ⟨rfl, closes⟩ us ⟨tested, _⟩ _ ⟨rfl, opens⟩ _ ⟨rfl, begins⟩
  have clause : Anywhere (Clause extended) _ (w :: l :: (us ++ ([r] ++ vs ++ ws))) :=
    fun k => .loop begins opens tested.sum closes (repeated k)
  rw [← List.append_assoc] at clause
  exact ⟨_, ws, clause⟩

theorem parseReturn_blames :
    parseReturn.Blames fun us _ => Begins (Anywhere (Clause extended)) us := by
  let word := Token.ofKind .returnWord
  let name := Token.ofKind .ident
  refine Reading.Blames.bind (Reading.take_blames _ fun k => ?_) (Reading.take_reads (by decide))
    fun w => ?_
  · exact ⟨_, [word, name], fun k => .ret rfl shortest.1 trivial⟩
  refine Reading.Blames.bind (Expr.parseWhole_blames.mono ?_) Expr.parseWhole_reads fun _ => .pure
  rintro us k ⟨e, vs, returned⟩ _ ⟨rfl, begins⟩
  exact ⟨_, vs, fun k => .ret begins returned trivial⟩

theorem parseBody_blames (read : nested.Reads (Bounded room))
    (blames : nested.Blames fun us _ => Begins (Anywhere (Statement extended)) us) :
    (parseBody nested).Blames fun us _ => Begins (Anywhere (Clause extended)) us := by
  refine Reading.Blames.currentKind fun kind => ?_
  split
  · refine Reading.Blames.bind ((parseBlock_blames read blames).mono ?_) (parseBlock_reads read)
      fun _ => .pure
    rintro us k ⟨block, vs, clause⟩ _
    exact ⟨_, vs, clause⟩
  · exact (parseLoop_blames read blames).mono fun _ _ begun _ => begun
  · exact parseReturn_blames.mono fun _ _ begun _ => begun
  · refine Reading.Blames.map (Expr.parseWhole_blames.mono ?_) Expr.parseWhole_reads
    rintro us k ⟨e, vs, value⟩ _
    exact ⟨_, vs, fun k => .eval value trivial⟩

theorem parse_blames (room : Nat) :
    (parse room).Blames fun us _ => Begins (Anywhere (Statement extended)) us := by
  induction room with
  | zero =>
    have straight : Reading.Straight (parse 0) Position.start
        fun us _ => Begins (Anywhere (Statement extended)) us :=
      Reading.Straight.current fun _ => Reading.abandon_straight rfl
    exact straight.blames
  | succ room ih =>
    refine Reading.Blames.bind ((parseBody_blames (parse_reads room) ih).mono ?_)
      (parseBody_reads (parse_reads room)) fun s => ?_
    · rintro us k ⟨s, vs, clause⟩
      exact ⟨s, vs, fun k => .bare (clause k) trivial⟩
    · exact Reading.Blames.bind skipSemicolon_blames skipSemicolon_reads fun _ => .pure

end Stmt

namespace Item

theorem parseDeclaration_blames :
    parseDeclaration.Blames fun us _ => Begins (Anywhere (Entry extended)) us := by
  let opened := Token.ofKind .lbrace
  let closed := Token.ofKind .rbrace
  let primitive := Token.ofKind .string
  refine Reading.Blames.bind (Header.parse_blames.mono ?_) Header.parse_reads fun h => ?_
  · rintro us k ⟨h, vs, heading⟩
    have entry : Anywhere (Entry extended) (.definition ⟨h, opened.start, []⟩)
        ((us ++ vs) ++ ((opened :: ([] ++ [closed])) ++ [])) :=
      fun k => .definition heading (.block rfl (.nil _) rfl) (.none trivial)
    rw [List.append_assoc] at entry
    exact ⟨_, vs ++ [opened, closed], entry⟩
  refine Reading.Blames.currentKind fun kind => ?_
  split
  · rename_i assigns
    subst assigns
    have missing : ∀ (_ : Token.Kind) (a : Token), a.kind = .assign → ∀ us, Heading True h us →
        Begins (Anywhere (Entry extended)) (us ++ [a]) := by
      intro _ a assigns us heading
      have entry : Anywhere (Entry extended) (.prototype ⟨h, primitive.text⟩)
          (us ++ ([a] ++ ([primitive] ++ []))) :=
        fun k => .prototype heading assigns rfl (.none trivial)
      rw [← List.append_assoc] at entry
      exact ⟨_, [primitive], entry⟩
    refine (Reading.Straight.passKind (by decide) ?_ : Reading.Straight _ Position.start _).blames
    exact Reading.Straight.bind (Reading.take_straight _ missing) (Reading.take_reads (by decide))
      fun _ => Reading.Straight.bind skipSemicolon_straight skipSemicolon_reads fun _ => .pure
  · refine Reading.Blames.bind
      ((Stmt.parseBlock_blames (Stmt.parse_reads nestingLimit) (Stmt.parse_blames _)).mono ?_)
      (Stmt.parseBlock_reads (Stmt.parse_reads nestingLimit)) fun _ => ?_
    · rintro vs k ⟨block, ws, body⟩ _ us heading
      have entry : Anywhere (Entry extended) (.definition ⟨h, block.1, block.2⟩)
          (us ++ ((vs ++ ws) ++ [])) :=
        fun k => .definition heading (body _) (.none trivial)
      rw [List.append_nil, ← List.append_assoc] at entry
      exact ⟨_, ws, entry⟩
    · exact Reading.Blames.bind skipSemicolon_blames skipSemicolon_reads fun _ => .pure

theorem parse_blames : Item.parse.Blames fun us _ => Begins (Anywhere (Entry extended)) us := by
  refine Reading.Blames.currentKind fun kind => ?_
  split
  · exact parseDeclaration_blames.mono fun _ _ begun _ => begun
  · refine Reading.Blames.map ((Stmt.parse_blames nestingLimit).mono ?_)
      (Stmt.parse_reads nestingLimit)
    rintro us k ⟨s, vs, whole⟩ _
    exact ⟨_, vs, fun k => .stmt (whole k)⟩

theorem parseAll_blames : parseAll.Blames fun us _ =>
    Begins (fun items us => Sequence (Entry extended) items us .eof) us := by
  refine Reading.Blames.mono (Reading.sequence_blames (· = .eof) false parse_reads
    (fun _ _ _ => Bounded.ne_nil) (fun _ _ _ read => read.entry.anywhere) parse_blames) ?_
  rintro us k ⟨items, vs, entries⟩
  exact ⟨items, vs, entries.anywhere .eof⟩

end Item

namespace ReadingState

variable {s : ReadingState}

theorem split_current {p : Position} (ending : s.ending = .eof p) (n : Nat) :
    ∃ after, s.tokens ++ [⟨.eof, "", p⟩] = s.tokens.take n ++ (s.drop n).current :: after := by
  have whole : s.tokens.take n ++ (s.drop n).tokens = s.tokens := List.take_append_drop n s.tokens
  rcases (s.drop n).eq_nil_or_cons with none | some
  · have last : (s.drop n).current = ⟨.eof, "", p⟩ := by
      have same : (s.drop n).ending = .eof p := ending
      unfold ReadingState.current
      rw [none, same]
    rw [none, List.append_nil] at whole
    exact ⟨[], by rw [whole, last]⟩
  · refine ⟨((s.drop n).drop 1).tokens ++ [⟨.eof, "", p⟩], ?_⟩
    rw [some] at whole
    rw [← List.cons_append, ← List.append_assoc, whole]

theorem Lexed.take_of_prefix (lexed : s.Lexed) {n : Nat} {us : List Token} {e : Token}
    (real : ∀ u ∈ us, u.kind ≠ .eof) (last : e.kind = .eof)
    (begins : s.tokens.take n ++ [(s.drop n).current] <+: us ++ [e]) :
    us.take (n + 1) = s.tokens.take (n + 1) := by
  rcases List.prefix_concat_iff.mp begins with all | inside
  · obtain ⟨same, ends⟩ := List.append_inj' all rfl
    rcases (s.drop n).eq_nil_or_cons with none | some
    · have length : s.tokens.length ≤ n := List.drop_eq_nil_iff.mp none
      rw [List.take_of_length_le length] at same
      rw [same]
    · rw [← List.singleton_inj.mp ends] at last
      exact absurd last ((lexed.drop n).tokens _ (some ▸ List.mem_cons_self))
  · have real : (s.drop n).current.kind ≠ .eof :=
      real _ (inside.subset (List.mem_append_right _ (List.mem_singleton_self _)))
    rcases (s.drop n).eq_nil_or_cons with none | some
    · rw [(s.drop n).currentKind_eq, none] at real
      exact absurd rfl real
    · have within : n < s.tokens.length := by
        by_contra short
        rw [show (s.drop n).tokens = [] from List.drop_eq_nil_of_le (Nat.le_of_not_lt short)] at some
        cases some
      have length : (s.tokens.take n ++ [(s.drop n).current]).length = n + 1 := by
        rw [List.length_append, List.length_take, Nat.min_eq_left (Nat.le_of_lt within)]
        rfl
      have front := List.prefix_iff_eq_take.mp inside
      rw [length] at front
      rw [← front, ← s.take_add, some]
      rfl

end ReadingState

theorem split_unique {α β : Type} {f : α → β} {as bs cs ds : List α} {a c : α}
    (nodup : ((as ++ a :: bs).map f).Nodup) (same : as ++ a :: bs = cs ++ c :: ds)
    (key : f a = f c) : as = cs ∧ a = c := by
  have apart {as bs : List α} {a c : α} (nodup : ((as ++ a :: bs).map f).Nodup)
      (member : c ∈ bs) : f a ≠ f c := by
    rw [List.map_append, List.map_cons] at nodup
    have rest := (List.nodup_cons.mp (List.nodup_append.mp nodup).2.1).1
    exact fun key => rest (key ▸ List.mem_map_of_mem member)
  rcases List.append_eq_append_iff.mp same with ⟨ws, rfl, rest⟩ | ⟨ws, rfl, rest⟩
  · cases ws with
    | nil => exact ⟨(List.append_nil as).symm, (List.cons.inj rest).1⟩
    | cons w ws =>
      obtain ⟨rfl, rfl⟩ := List.cons.inj rest
      exact absurd key (apart nodup (List.mem_append_right _ List.mem_cons_self))
  · cases ws with
    | nil => exact ⟨List.append_nil cs, (List.cons.inj rest).1.symm⟩
    | cons w ws =>
      obtain ⟨rfl, rfl⟩ := List.cons.inj rest
      rw [List.append_assoc, List.cons_append] at nodup
      exact absurd key.symm (apart nodup (List.mem_append_right _ List.mem_cons_self))

namespace Program

variable {text : String} {ts : List Token} {ending : Position}

/-- Where a text notes an error that is no limit, no text can go on that far. -/
theorem not_viable {s : ReadingState} (lexed : s.Lexed) {cause : ParseFault} {n : Nat}
    (noLimit : cause.isLimit = false)
    (same : ∀ s', s'.Lexed → s.Alike n s' →
      ⟨cause, (s'.drop n).current.start⟩ :: s'.errors <:+ (Item.parseAll s').errors) :
    ¬ extended.Viable (s.tokens.take n ++ [(s.drop n).current]) := by
  rintro ⟨p, us, e, derived, last, begins⟩
  obtain ⟨p', settled⟩ := derived.settled
  obtain ⟨place, ending⟩ := lexed.ending
  let s' : ReadingState := ⟨us, us.length, rfl, .eof place, []⟩
  have real := derived.recorded.ne_eof
  have noted := same s' ⟨real, place, rfl⟩ ⟨lexed.take_of_prefix real last begins, ending.symm⟩
  rcases Item.parseAll_takes_greedy settled s' [] ⟨place, rfl⟩ (List.append_nil us).symm rfl
    with value | ⟨_, s'', e', limit, errors, isLimit⟩
  · rw [value] at noted
    cases List.suffix_nil.mp noted
  · rw [limit, Outcome.errors, errors] at noted
    have only := noted.eq_of_length rfl
    rw [← (List.cons.inj only).1, noLimit] at isLimit
    cases isLimit

/-- The first error of a text that can be split into tokens is at the earliest token: unless it is
a nesting limit, the tokens before it begin some text of the grammar, and up to the token at the
error they begin none. -/
theorem first_error_earliest (lexed : tokenize text = .ok (ts ++ [⟨.eof, "", ending⟩]))
    {r : Rejection} (rejected : parse text = .error r) :
    ∃ first others, r = .malformed first others ∧ (first.cause.isLimit = false →
      (∃ t ∈ ts ++ [⟨.eof, "", ending⟩], t.start = first.position) ∧
      ∀ before t after, ts ++ [⟨.eof, "", ending⟩] = before ++ t :: after →
        t.start = first.position →
          extended.Viable before ∧ ¬ extended.Viable (before ++ [t])) := by
  let s : ReadingState := .ofStream ⟨ts, .eof ending⟩
  have real := TokenStream.ne_eof text
  rw [TokenStream.of_tokenize lexed] at real
  have whole : s.Lexed := ⟨real, ending, rfl⟩
  rw [parse_lexed lexed] at rejected
  have readable (e : LexError) (s' : ReadingState) :
      Item.parseAll s ≠ .abandoned (.unreadable e) s' := by
    intro outcome
    have here := Item.parseAll_reads s whole.readable
    rw [outcome] at here
    cases here.1
  cases Item.parseAll_blames.first s whole with
  | none a n within same =>
    rw [same s (.refl n s)] at rejected
    cases rejected
  | limit e isLimit noted =>
    obtain ⟨later, errors⟩ := noted
    rw [verdict_of_errors errors.symm readable] at rejected
    refine ⟨e, later.reverse, (Except.error.inj rejected).symm, fun noLimit => ?_⟩
    cases isLimit.symm.trans noLimit
  | error cause n within noLimit before same =>
    obtain ⟨later, errors⟩ := same s whole (.refl n s)
    rw [verdict_of_errors errors.symm readable] at rejected
    refine ⟨_, later.reverse, (Except.error.inj rejected).symm, fun _ => ?_⟩
    obtain ⟨after, split⟩ := s.split_current rfl n
    have all : ts ++ [⟨.eof, "", ending⟩] = ts.take n ++ (s.drop n).current :: after := split
    refine ⟨⟨(s.drop n).current, ?_, rfl⟩, fun before' t after' split' start => ?_⟩
    · rw [all]
      exact List.mem_append_right _ List.mem_cons_self
    have nodup := nodup_starts (t := ⟨.eof, "", ending⟩) lexed
    rw [split'] at nodup all
    obtain ⟨rfl, rfl⟩ := split_unique nodup all start
    refine ⟨?_, not_viable whole noLimit same⟩
    obtain ⟨items, vs, derived⟩ := before
    refine ⟨⟨items⟩, s.tokens.take n ++ vs, ⟨.eof, "", ending⟩, derived, rfl, ?_⟩
    exact (List.prefix_append _ _).trans (List.prefix_append _ _)

theorem first_error_earliest_sample : extended.Viable [⟨.ident, "f", ⟨0, 0, 0⟩⟩,
      ⟨.lparen, "(", ⟨1, 0, 1⟩⟩, ⟨.int, "1", ⟨2, 0, 2⟩⟩, ⟨.rparen, ")", ⟨3, 0, 3⟩⟩] ∧
    ¬ extended.Viable [⟨.ident, "f", ⟨0, 0, 0⟩⟩, ⟨.lparen, "(", ⟨1, 0, 1⟩⟩,
      ⟨.int, "1", ⟨2, 0, 2⟩⟩, ⟨.rparen, ")", ⟨3, 0, 3⟩⟩, ⟨.rparen, ")", ⟨4, 0, 4⟩⟩] := by
  have lexed : tokenize "f(1))" = .ok ([⟨.ident, "f", ⟨0, 0, 0⟩⟩, ⟨.lparen, "(", ⟨1, 0, 1⟩⟩,
      ⟨.int, "1", ⟨2, 0, 2⟩⟩, ⟨.rparen, ")", ⟨3, 0, 3⟩⟩, ⟨.rparen, ")", ⟨4, 0, 4⟩⟩] ++
        [⟨.eof, "", ⟨5, 0, 5⟩⟩]) := by
    decide +kernel
  have first : (match parse "f(1))" with
      | .error (.malformed first _) => decide (first = ⟨.unexpected .rparen, ⟨4, 0, 4⟩⟩)
      | _ => false) = true := by
    decide +kernel
  cases outcome : parse "f(1))" with
  | ok p =>
    rw [outcome] at first
    cases first
  | error r =>
    obtain ⟨e, others, rfl, earliest⟩ := first_error_earliest lexed outcome
    rw [outcome] at first
    obtain rfl := of_decide_eq_true first
    exact (earliest rfl).2 [_, _, _, _] _ [_] rfl rfl

end Program

end Tally
