import Tally.Proofs.Grammar.Exact
import Tally.Proofs.Grammar.Orderly

namespace Tally

open Grammar

theorem Expr.parseWhole_orderly : parseWhole.Orderly 0 :=
  Reading.Straight.orderly fun _ => parseWhole_straight

theorem skipSemicolon_orderly : skipSemicolon.Orderly 0 := by
  refine Reading.Orderly.currentKind fun kind => ?_
  split
  · exact Reading.advance_orderly
  · exact .pure

theorem Header.parse_orderly : Header.parse.Orderly 0 :=
  Reading.Straight.orderly fun _ => parse_straight

namespace Stmt

variable {nested : Reading Stmt} {room : Nat}

def blockRound (nested : Reading Stmt) : List Stmt → Reading (List Stmt ⊕ List Stmt) :=
  Reading.sequenceRound (fun kind => kind = .rbrace ∨ kind = .eof) true nested

theorem parseBlock_eq (nested : Reading Stmt) : parseBlock nested = (do
    let brace ← Reading.take .lbrace
    let body ← Reading.iterate [] (blockRound nested)
    let _ ← Reading.take .rbrace
    return (brace.start, body)) := rfl

theorem blockRound_advances (orderly : nested.Orderly 0) (read : nested.Reads (Bounded room))
    (before : List Stmt) (s : ReadingState) (readable : s.Readable) :
    (blockRound nested before s).Advances s :=
  Reading.sequenceRound_advances orderly read (fun _ _ _ => Bounded.ne_nil) (.inr rfl)
    (fun _ => .inl rfl) before s readable

theorem parseBlock_orderly (orderly : nested.Orderly 0) (read : nested.Reads (Bounded room)) :
    (parseBlock nested).Orderly 0 := by
  have loop : (Reading.iterate [] (blockRound nested)).Orderly 1 := fun s readable =>
    (Reading.iterate_paced (blockRound_advances orderly read) [] s readable).2.orderly
  rw [parseBlock_eq]
  refine Reading.Orderly.take (by decide) fun brace => ?_
  refine loop.bind (Reading.sequence_reads _ true read fun _ _ _ => Bounded.ne_nil) fun body => ?_
  exact (Reading.take_orderly _).bind (Reading.take_reads (by decide)) fun _ => .pure

theorem parseLoop_orderly (orderly : nested.Orderly 0) (read : nested.Reads (Bounded room)) :
    (parseLoop nested).Orderly 0 := by
  have takes {kind : Token.Kind} (real : kind ≠ .eof) := Reading.take_reads real
  refine (Reading.take_orderly _).bind (takes (by decide)) fun w => ?_
  refine (Reading.take_orderly _).bind (takes (by decide)) fun l => ?_
  refine Expr.parseWhole_orderly.bind Expr.parseWhole_reads fun condition => ?_
  refine (Reading.take_orderly _).bind (takes (by decide)) fun r => ?_
  exact orderly.bind read fun body => .pure

theorem parseBody_orderly (orderly : nested.Orderly 0) (read : nested.Reads (Bounded room)) :
    (parseBody nested).Orderly 0 := by
  refine Reading.Orderly.currentKind fun kind => ?_
  split
  · exact (parseBlock_orderly orderly read).bind (parseBlock_reads read) fun _ => .pure
  · exact parseLoop_orderly orderly read
  · refine (Reading.take_orderly _).bind (Reading.take_reads (by decide)) fun w => ?_
    exact Expr.parseWhole_orderly.bind Expr.parseWhole_reads fun _ => .pure
  · exact Expr.parseWhole_orderly.map Expr.parseWhole_reads

theorem parse_orderly (room : Nat) : (parse room).Orderly 0 := by
  induction room with
  | zero =>
    have straight (at_ : Position) : Reading.Straight (parse 0) at_ fun _ _ => True :=
      Reading.Straight.current fun _ => Reading.abandon_straight rfl
    exact Reading.Straight.orderly straight
  | succ room ih =>
    refine (parseBody_orderly ih (parse_reads room)).bind (parseBody_reads (parse_reads room))
      fun s => ?_
    exact skipSemicolon_orderly.bind skipSemicolon_reads fun _ => .pure

end Stmt

namespace Item

theorem parseDeclaration_orderly : parseDeclaration.Orderly 0 := by
  have block := Stmt.parse_orderly nestingLimit
  have read := Stmt.parse_reads nestingLimit
  refine Header.parse_orderly.bind Header.parse_reads fun h => ?_
  refine Reading.Orderly.currentKind fun kind => ?_
  split
  · refine Reading.advance_orderly.bind Reading.advance_reads fun _ => ?_
    refine (Reading.take_orderly _).bind (Reading.take_reads (by decide)) fun _ => ?_
    exact skipSemicolon_orderly.bind skipSemicolon_reads fun _ => .pure
  · refine (Stmt.parseBlock_orderly block read).bind (Stmt.parseBlock_reads read) fun _ => ?_
    exact skipSemicolon_orderly.bind skipSemicolon_reads fun _ => .pure

theorem parse_orderly : Item.parse.Orderly 0 := by
  refine Reading.Orderly.currentKind fun kind => ?_
  split
  · exact parseDeclaration_orderly
  · exact (Stmt.parse_orderly nestingLimit).map (Stmt.parse_reads nestingLimit)

def round : List Item → Reading (List Item ⊕ List Item) :=
  Reading.sequenceRound (· = .eof) false Item.parse

theorem parseAll_eq : parseAll = Reading.iterate [] round := rfl

theorem round_advances (before : List Item) (s : ReadingState) (readable : s.Readable) :
    (round before s).Advances s := by
  unfold round
  refine Reading.sequenceRound_advances parse_orderly parse_reads (fun _ _ _ => Bounded.ne_nil) ?_ ?_
    before s readable
  · exact rfl
  · exact nofun

end Item

namespace ReadingState

structure Ascending (s : ReadingState) : Prop where
  last : ∀ t ∈ s.tokens, t.start.char ≤ (TokenStream.last s.ending).char
  apart : s.tokens.Pairwise fun t u => t.start.char < u.start.char

variable {s : ReadingState} {es : List ParseError} {m n : Nat}

theorem Ascending.drop (ascending : s.Ascending) (n : Nat) : (s.drop n).Ascending where
  last t member := ascending.last t (List.mem_of_mem_drop member)
  apart := ascending.apart.sublist (List.drop_sublist n s.tokens)

theorem ofStream_sublist (stream : TokenStream) :
    (ofStream stream).tokens.Sublist stream.tokens := by
  obtain ⟨tokens, ending⟩ := stream
  cases ending with
  | eof p => exact List.Sublist.refl _
  | fault e => exact List.dropLast_sublist _

theorem start_of_finished (finished : s.tokens = []) :
    s.current.start = TokenStream.last s.ending := by
  unfold current
  rw [finished]
  cases s.ending <;> rfl

theorem Ascending.start_le (ascending : s.Ascending) (le : m ≤ n) :
    (s.drop m).current.start.char ≤ (s.drop n).current.start.char := by
  obtain ⟨k, rfl⟩ := Nat.exists_eq_add_of_le le
  rw [← s.drop_drop]
  have here := ascending.drop m
  generalize s.drop m = s at here
  rcases s.eq_nil_or_cons with none | some
  · have later : (s.drop k).tokens = [] := by simp [ReadingState.drop, none]
    rw [start_of_finished none, start_of_finished later]
    exact Nat.le_refl _
  · have member : s.current ∈ s.tokens := some ▸ List.mem_cons_self
    rcases (s.drop k).eq_nil_or_cons with finished | more
    · rw [start_of_finished finished]
      exact here.last _ member
    · have first : (s.drop k).current ∈ (s.drop k).tokens := more ▸ List.mem_cons_self
      have later : (s.drop k).current ∈ s.tokens := List.mem_of_mem_drop first
      have apart := here.apart
      rw [some] at apart later
      rcases List.mem_cons.mp later with same | behind
      · exact Nat.le_of_eq (congrArg (fun t => t.start.char) same.symm)
      · exact Nat.le_of_lt ((List.pairwise_cons.mp apart).1 _ behind)

theorem Trail.ordered (trail : s.Trail es n) (ascending : s.Ascending) :
    (∀ e ∈ es, e.position.char ≤ (s.drop n).current.start.char) ∧
      es.Pairwise fun e e' => e'.position.char ≤ e.position.char := by
  induction trail with
  | nil => exact ⟨nofun, .nil⟩
  | cons place within before ih =>
    rw [← place] at ih
    have le := ascending.start_le within
    rw [← place] at le
    refine ⟨List.forall_mem_cons.mpr ⟨le, fun e member => ?_⟩, .cons ih.1 ih.2⟩
    exact Nat.le_trans (ih.1 e member) le

end ReadingState

theorem ReadingState.ascending_ofText (text : String) :
    (ReadingState.ofStream (TokenStream.ofText text)).Ascending := by
  obtain ⟨last, apart⟩ := TokenStream.increasing text
  have sublist := ReadingState.ofStream_sublist (TokenStream.ofText text)
  exact ⟨fun t member => Nat.le_of_lt (last t (sublist.subset member)), apart.sublist sublist⟩

theorem Outcome.Paced.noted {α : Type} {o : Outcome α} {s : ReadingState} (paced : o.Paced s) :
    ∃ es, o.errors = es ++ s.errors ∧ s.Trail es s.tokens.length ∧
      es.length ≤ s.tokens.length := by
  match o, paced with
  | value a s', ⟨n, es, noted, few⟩ =>
    exact ⟨es, noted.errors, noted.trail.mono noted.within, Nat.le_trans few noted.within⟩
  | abandoned why s', ⟨es, stopped, _, few⟩ =>
    exact ⟨es, stopped.errors, stopped.trail, few⟩

theorem Item.parseAll_paced {s : ReadingState} (readable : s.Readable) : (parseAll s).Paced s :=
  (Reading.iterate_paced round_advances [] s readable).2

theorem Item.parseAll_of_finished {s : ReadingState} (finished : s.tokens = []) :
    parseAll s = .value [] s := by
  have stop : s.current.kind = .eof := by
    rw [s.currentKind_eq, finished]
    rfl
  have last : round [] s = .value (.inr []) s := Reading.sequenceRound_stop stop
  rw [parseAll_eq, Reading.iterate, last]

namespace Program

variable {text : String}

def noted (text : String) : List ParseError :=
  (Item.parseAll (.ofStream (TokenStream.ofText text))).errors.reverse

/-- Reading comes to a token that cannot be read. -/
def Halts (text : String) (e : LexError) : Prop :=
  let s := ReadingState.ofStream (TokenStream.ofText text)
  s.ending = .fault e ∧ (s.tokens = [] ∨ ∃ s', Item.parseAll s = .abandoned (.unreadable e) s')

/-- What becomes of the errors in a text. -/
structure Recovers (text : String) : Prop where
  ordered : (noted text).Pairwise fun e e' => e.position.char ≤ e'.position.char
  few : (noted text).length ≤ (TokenStream.ofText text).tokens.length
  rejected : ∀ r, parse text = .error r → r.noted = noted text
  leftmost : ∀ first others, parse text = .error (.malformed first others) →
    ∀ e ∈ noted text, first.position.char ≤ e.position.char
  rejects : (∃ r, parse text = .error r) ↔ noted text ≠ [] ∨ ∃ e, Halts text e

theorem verdict_noted {o : Outcome (List Item)} {r : Rejection} (rejected : verdict o = .error r) :
    r.noted = o.errors.reverse := by
  have judged {items : List Item} {s : ReadingState} (rejected : judge items s = .error r) :
      r.noted = s.errors.reverse := by
    unfold judge at rejected
    cases errors : s.errors.reverse with
    | nil =>
      rw [errors] at rejected
      cases rejected
    | cons first others =>
      rw [errors] at rejected
      cases rejected
      rfl
  cases o with
  | value items s => exact judged rejected
  | failed s => exact judged rejected
  | abandoned why s =>
    cases why with
    | limit => exact judged rejected
    | unreadable e =>
      cases rejected
      rfl

theorem verdict_error {o : Outcome (List Item)} : (∃ r, verdict o = .error r) ↔
    o.errors.reverse ≠ [] ∨ ∃ e s, o = .abandoned (.unreadable e) s := by
  have judged (items : List Item) (s : ReadingState) :
      (∃ r, judge items s = .error r) ↔ s.errors.reverse ≠ [] := by
    unfold judge
    cases s.errors.reverse <;> simp
  rcases o with ⟨items, s⟩ | s | ⟨_ | e, s⟩
  · simpa [verdict, Outcome.errors] using judged items s
  · simpa [verdict, Outcome.errors] using judged [] s
  · simpa [verdict, Outcome.errors] using judged [] s
  · simp [verdict]

theorem noted_of_finished
    (finished : (ReadingState.ofStream (TokenStream.ofText text)).tokens = []) : noted text = [] := by
  unfold noted
  rw [Item.parseAll_of_finished finished]
  rfl

theorem halts_iff (readable : (ReadingState.ofStream (TokenStream.ofText text)).Readable) :
    (∃ e, Halts text e) ↔ ∃ e s,
      Item.parseAll (.ofStream (TokenStream.ofText text)) = .abandoned (.unreadable e) s := by
  constructor
  · rintro ⟨e, fault, none | reached⟩
    · obtain ⟨position, ending⟩ := readable.ending none
      cases fault.symm.trans ending
    · exact ⟨e, reached⟩
  · rintro ⟨e, s, reached⟩
    have paced := Item.parseAll_paced readable
    rw [reached] at paced
    obtain ⟨_, _, fault, _⟩ := paced
    exact ⟨e, fault, .inr ⟨s, reached⟩⟩

theorem leftmost_of_ordered (rejected : ∀ r, parse text = .error r → r.noted = noted text)
    (ordered : (noted text).Pairwise fun e e' => e.position.char ≤ e'.position.char) :
    ∀ first others, parse text = .error (.malformed first others) →
      ∀ e ∈ noted text, first.position.char ≤ e.position.char := by
  intro first others error e member
  rw [← rejected _ error] at ordered member
  rcases List.mem_cons.mp member with rfl | later
  · exact Nat.le_refl _
  · exact (List.pairwise_cons.mp ordered).1 e later

theorem recovers_text (text : String) : Recovers text := by
  have ascending := ReadingState.ascending_ofText text
  have sublist := ReadingState.ofStream_sublist (TokenStream.ofText text)
  rcases parse_eq_verdict text with ⟨e, rejected, fault, none⟩ | ⟨readable, judged⟩
  · have nothing := noted_of_finished none
    have ordered : (noted text).Pairwise fun e e' => e.position.char ≤ e'.position.char :=
      nothing ▸ .nil
    have same (r : Rejection) (error : parse text = .error r) : r.noted = noted text := by
      cases rejected.symm.trans error
      exact nothing.symm
    refine ⟨ordered, ?_, same, leftmost_of_ordered same ordered, ?_⟩
    · rw [nothing]
      exact Nat.zero_le _
    · exact ⟨fun _ => .inr ⟨e, fault, .inl none⟩, fun _ => ⟨_, rejected⟩⟩
  · obtain ⟨es, errors, trail, few⟩ := (Item.parseAll_paced readable).noted
    have all : noted text = es.reverse := by
      unfold noted
      rw [errors]
      exact congrArg _ (List.append_nil es)
    have ordered : (noted text).Pairwise fun e e' => e.position.char ≤ e'.position.char := by
      rw [all, List.pairwise_reverse]
      exact (trail.ordered ascending).2
    have same (r : Rejection) (error : parse text = .error r) : r.noted = noted text :=
      verdict_noted (judged.symm.trans error)
    refine ⟨ordered, ?_, same, leftmost_of_ordered same ordered, ?_⟩
    · rw [all, List.length_reverse]
      exact Nat.le_trans few sublist.length_le
    · rw [judged, verdict_error, halts_iff readable]
      exact Iff.rfl

/-- Reading goes on after an error, and comes to an end. Whatever the tokens are, each round of the
loop over a text and of the loop over a block passes over some token or is the last, and the loops
end of themselves. The errors of a text are noted from left to right, and there are no more of them
than tokens; a text is rejected exactly if there is one, or if a token cannot be read. -/
theorem recovers :
    (∀ s : ReadingState, s.Readable →
      (∀ before, (Item.round before s).Advances s) ∧
      Reading.Repeats Item.round [] s (Item.parseAll s) ∧
      ∀ room, (∀ before, (Stmt.blockRound (Stmt.parse room) before s).Advances s) ∧
        Reading.Repeats (Stmt.blockRound (Stmt.parse room)) [] s
          (Reading.iterate [] (Stmt.blockRound (Stmt.parse room)) s)) ∧
    ∀ text, Recovers text := by
  refine ⟨fun s readable => ⟨?_, ?_, fun room => ?_⟩, recovers_text⟩
  · exact fun before => Item.round_advances before s readable
  · exact (Reading.iterate_paced Item.round_advances [] s readable).1
  · have rounds := Stmt.blockRound_advances (Stmt.parse_orderly room) (Stmt.parse_reads room)
    exact ⟨fun before => rounds before s readable,
      (Reading.iterate_paced rounds [] s readable).1⟩

theorem recovers_sample :
    Reading.Repeats Item.round [] ⟨[⟨.rparen, ")", ⟨0, 0, 0⟩⟩], 1, rfl, .eof ⟨1, 0, 1⟩, []⟩
      (Item.parseAll ⟨[⟨.rparen, ")", ⟨0, 0, 0⟩⟩], 1, rfl, .eof ⟨1, 0, 1⟩, []⟩) ∧
    noted "\x7b ) \x7d\nfunc (x: int): int \x7b return x \x7d" =
      [⟨.unexpected .rparen, ⟨2, 0, 2⟩⟩, ⟨.expected .ident .lparen, ⟨11, 1, 5⟩⟩] ∧
    ∃ r, parse "\x7b ) \x7d\nfunc (x: int): int \x7b return x \x7d" = .error r := by
  have both : noted "\x7b ) \x7d\nfunc (x: int): int \x7b return x \x7d" =
      [⟨.unexpected .rparen, ⟨2, 0, 2⟩⟩, ⟨.expected .ident .lparen, ⟨11, 1, 5⟩⟩] := by
    decide +kernel
  refine ⟨(recovers.1 _ ⟨?_, fun _ => ⟨_, rfl⟩⟩).2.1, both, ?_⟩
  · exact List.forall_mem_singleton.mpr (by decide)
  · refine (recovers.2 _).rejects.mpr (.inl ?_)
    rw [both]
    exact List.cons_ne_nil _ _

end Program

end Tally
