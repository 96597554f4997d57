import Tally.Proofs.Grammar.Complete
import Tally.Proofs.Grammar.Sound
import Tally.Proofs.Token.Increasing

namespace Tally

def Rejection.noted : Rejection → List ParseError
  | unreadableStart _ => []
  | unreadable _ noted => noted
  | malformed first others => first :: others

def Program.WithinLimits (text : String) : Prop :=
  ∀ r, Program.parse text = .error r → ∀ e ∈ r.noted, e.cause.isLimit = false

namespace Program

variable {text : String} {ts : List Token} {ending : Position}

def verdict : Outcome (List Item) → Except Rejection Program
  | .value items s => judge items s
  | .failed s => judge [] s
  | .abandoned .limit s => judge [] s
  | .abandoned (.unreadable e) s => .error (.unreadable e s.errors.reverse)

theorem parse_eq_verdict (text : String) :
    (∃ e, parse text = .error (.unreadableStart e) ∧ (TokenStream.ofText text).ending = .fault e ∧
      (ReadingState.ofStream (TokenStream.ofText text)).tokens = []) ∨
      (ReadingState.ofStream (TokenStream.ofText text)).Readable ∧
        parse text = verdict (Item.parseAll (.ofStream (TokenStream.ofText text))) := by
  have real := TokenStream.ne_eof text
  unfold parse
  generalize TokenStream.ofText text = stream at real ⊢
  dsimp only
  split
  · rename_i e none ending
    exact .inl ⟨e, rfl, ending, none⟩
  · rename_i begins
    refine .inr ⟨⟨fun t member => ?_, fun none => ?_⟩, ?_⟩
    · cases ending : stream.ending with
      | eof position =>
        simp only [ReadingState.ofStream, ending] at member
        exact real t member
      | fault e =>
        simp only [ReadingState.ofStream, ending] at member
        exact real t (List.dropLast_subset _ member)
    · cases ending : stream.ending with
      | eof position => exact ⟨position, ending⟩
      | fault e => exact absurd ending (begins e none)
    · cases Item.parseAll (.ofStream stream) with
      | value items s => rfl
      | failed s => rfl
      | abandoned why s => cases why <;> rfl

theorem parse_lexed (lexed : tokenize text = .ok (ts ++ [⟨.eof, "", ending⟩])) :
    parse text = verdict (Item.parseAll (.ofStream ⟨ts, .eof ending⟩)) := by
  have stream := TokenStream.of_tokenize lexed
  rcases parse_eq_verdict text with ⟨e, _, fault, _⟩ | ⟨_, judged⟩
  · rw [stream] at fault
    cases fault
  · rwa [stream] at judged

theorem judge_ne_ok {items : List Item} {s : ReadingState} {p : Program}
    (faulted : s.errors ≠ []) : judge items s ≠ .ok p := by
  intro accepted
  unfold judge at accepted
  cases errors : s.errors.reverse with
  | nil => exact faulted (List.reverse_eq_nil_iff.mp errors)
  | cons first others =>
    rw [errors] at accepted
    cases accepted

theorem judge_of_errors {items : List Item} {s : ReadingState} {e : ParseError}
    {later : List ParseError} (errors : s.errors = later ++ [e]) :
    judge items s = .error (.malformed e later.reverse) := by
  unfold judge
  rw [errors, List.reverse_append]
  rfl

theorem verdict_of_errors {o : Outcome (List Item)} {e : ParseError} {later : List ParseError}
    (errors : o.errors = later ++ [e]) (readable : ∀ e s, o ≠ .abandoned (.unreadable e) s) :
    verdict o = .error (.malformed e later.reverse) := by
  cases o with
  | value items s => exact judge_of_errors errors
  | failed s => exact judge_of_errors errors
  | abandoned why s =>
    cases why with
    | limit => exact judge_of_errors errors
    | unreadable e => exact absurd rfl (readable e s)

theorem bounded_of_parse {p : Program} (read : parse text = .ok p) :
    ∃ ts ending, tokenize text = .ok (ts ++ [⟨.eof, "", ending⟩]) ∧
      Grammar.Sequence Item.Bounded p.items ts .eof := by
  rcases parse_eq_verdict text with ⟨e, rejected, _⟩ | ⟨readable, judged⟩
  · cases rejected.symm.trans read
  rw [judged] at read
  generalize start : TokenStream.ofText text = stream at readable read
  have here := Item.parseAll_reads _ readable
  cases outcome : Item.parseAll (.ofStream stream) with
  | failed s =>
    rw [outcome] at here read
    exact absurd read (judge_ne_ok here.2.ne_nil)
  | abandoned why s =>
    rw [outcome] at here read
    cases why with
    | limit => exact absurd read (judge_ne_ok (ReadingState.Faulted.ne_nil here))
    | unreadable e => cases read
  | value items s =>
    rw [outcome] at here read
    obtain ⟨readable', faulted | ⟨us, passes, last, derived⟩⟩ := here
    · exact absurd read (judge_ne_ok faulted.ne_nil)
    · have rest : s.tokens = [] := by
        rcases s.eq_nil_or_cons with none | some
        · exact none
        · exact absurd last (readable'.tokens _ (some ▸ List.mem_cons_self))
      obtain ⟨ending, ends⟩ := readable'.ending rest
      have faultless : stream.ending = .eof ending := passes.ending.symm.trans ends
      have all := passes.tokens
      rw [rest, List.append_nil] at all
      simp only [ReadingState.ofStream, faultless] at all
      dsimp only [verdict] at read
      unfold judge at read
      rw [passes.errors] at read
      cases read
      rw [last] at derived
      refine ⟨us, ending, TokenStream.tokenize_eq ?_, derived⟩
      rw [start, ← all, ← faultless]

theorem exists_derivation {p : Program} (read : parse text = .ok p) :
    ∃ ts ending, tokenize text = .ok (ts ++ [⟨.eof, "", ending⟩]) ∧
      Grammar.greedy.Derives p ts := by
  obtain ⟨ts, ending, lexed, derived⟩ := bounded_of_parse read
  exact ⟨ts, ending, lexed, derived.mono fun _ _ _ _ => Item.Bounded.entry⟩

/-- What all tokens derive greedily is read, or the text is rejected at a nesting limit, which is
the only error noted. -/
theorem parse_of_takes {limited : Prop} {p : Program}
    (lexed : tokenize text = .ok (ts ++ [⟨.eof, "", ending⟩]))
    (takes : Item.parseAll.Takes limited p.items ts .eof) :
    parse text = .ok p ∨
      limited ∧ ∃ e, parse text = .error (.malformed e []) ∧ e.cause.isLimit = true := by
  rw [parse_lexed lexed]
  rcases takes (.ofStream ⟨ts, .eof ending⟩) [] ⟨ending, rfl⟩ (List.append_nil ts).symm rfl
    with value | ⟨reached, s, e, limit, noted, cause⟩
  · rw [value]
    exact .inl rfl
  · have only : s.errors = [] ++ [e] := noted
    rw [limit]
    exact .inr ⟨reached, e, judge_of_errors only, cause⟩

theorem parse_of_derives (lexed : tokenize text = .ok (ts ++ [⟨.eof, "", ending⟩]))
    (within : WithinLimits text) {p : Program} (derived : Grammar.greedy.Derives p ts) :
    parse text = .ok p := by
  rcases parse_of_takes lexed (Item.parseAll_takes_greedy derived) with read | ⟨_, e, rejected, limit⟩
  · exact read
  · cases limit.symm.trans (within _ rejected e List.mem_cons_self)

/-- Where no nesting limit is met, a text is read exactly if the grammar derives its tokens, and
its tree is the one that is derived greedily. -/
theorem parse_exact (lexed : tokenize text = .ok (ts ++ [⟨.eof, "", ending⟩]))
    (within : WithinLimits text) :
    ((∃ p, parse text = .ok p) ↔ ∃ p, Grammar.extended.Derives p ts) ∧
      ∀ p, parse text = .ok p ↔ Grammar.greedy.Derives p ts := by
  have same (p : Program) : parse text = .ok p ↔ Grammar.greedy.Derives p ts := by
    refine ⟨fun read => ?_, parse_of_derives lexed within⟩
    obtain ⟨ts', ending', lexed', derived⟩ := exists_derivation read
    obtain ⟨rfl, _⟩ := List.append_inj' (Except.ok.inj (lexed.symm.trans lexed')) rfl
    exact derived
  refine ⟨⟨fun accepted => ?_, fun derivable => ?_⟩, same⟩
  · obtain ⟨p, read⟩ := accepted
    exact ⟨p, ((same p).mp read).relaxed⟩
  · obtain ⟨p, derived⟩ := derivable
    obtain ⟨p', settled⟩ := derived.settled
    exact ⟨p', (same p').mpr settled⟩

theorem parse_exact_sample : parse "f(1,);" =
    .ok ⟨[.stmt (.eval (.call (.ident ⟨"f", ⟨0, 0, 0⟩⟩) ⟨1, 0, 1⟩ [.int "1" ⟨2, 0, 2⟩]))]⟩ := by
  have lexed : tokenize "f(1,);" = .ok ([⟨.ident, "f", ⟨0, 0, 0⟩⟩, ⟨.lparen, "(", ⟨1, 0, 1⟩⟩,
      ⟨.int, "1", ⟨2, 0, 2⟩⟩, ⟨.comma, ",", ⟨3, 0, 3⟩⟩, ⟨.rparen, ")", ⟨4, 0, 4⟩⟩,
      ⟨.semicolon, ";", ⟨5, 0, 5⟩⟩] ++ [⟨.eof, "", ⟨6, 0, 6⟩⟩]) := by
    decide +kernel
  have accepted : (match parse "f(1,);" with
      | .ok _ => true
      | .error _ => false) = true := by
    decide +kernel
  have within : WithinLimits "f(1,);" := by
    intro r rejected
    rw [rejected] at accepted
    cases accepted
  refine ((parse_exact lexed within).2 _).mpr ?_
  have argument : Grammar.Sum True (.int "1" ⟨2, 0, 2⟩) [⟨.int, "1", ⟨2, 0, 2⟩⟩] :=
    .operand (.int (t := ⟨.int, "1", ⟨2, 0, 2⟩⟩) rfl)
  have list : Grammar.CommaList True (Grammar.Sum True) [.int "1" ⟨2, 0, 2⟩]
      [⟨.int, "1", ⟨2, 0, 2⟩⟩, ⟨.comma, ",", ⟨3, 0, 3⟩⟩] :=
    .cons (t := ⟨.comma, ",", ⟨3, 0, 3⟩⟩) argument rfl .nil fun _ => trivial
  have called : Grammar.Operand True (.ident ⟨"f", ⟨0, 0, 0⟩⟩) [⟨.ident, "f", ⟨0, 0, 0⟩⟩] :=
    .ident (t := ⟨.ident, "f", ⟨0, 0, 0⟩⟩) rfl
  have call := Grammar.Operand.call (l := ⟨.lparen, "(", ⟨1, 0, 1⟩⟩)
    (r := ⟨.rparen, ")", ⟨4, 0, 4⟩⟩) called rfl list rfl
  have noCall : Token.Kind.semicolon ≠ .lparen := by decide
  have clause : Grammar.Clause Grammar.greedy _ _ .semicolon := .eval (.operand call) noCall
  have whole : Grammar.Statement Grammar.greedy _ _ .eof :=
    .closed (t := ⟨.semicolon, ";", ⟨5, 0, 5⟩⟩) clause rfl
  exact .cons (Grammar.Entry.stmt whole) (.nil .eof)

end Program

end Tally
