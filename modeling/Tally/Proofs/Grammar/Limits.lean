import Tally.Proofs.Grammar.Exact

namespace Tally

open Grammar

theorem Expr.Bounded.taken {e : Expr} {us : List Token} (bounded : Bounded e us) :
    TakenWhole False e us :=
  takenWhole bounded.1 (Nat.not_succ_le_self nestingLimit) (Nat.not_lt_of_le bounded.2)

theorem Stmt.Bounded.taken {room : Nat} {s : Stmt} {us : List Token} {k : Token.Kind}
    (bounded : s.Bounded room us k) (next : k ≠ .plus) : (Stmt.parse room).Takes False s us k :=
  Stmt.parse_takes room s us k
    (bounded.1.imp fun _ _ _ _ _ => Expr.Bounded.taken) (Nat.not_lt_of_le bounded.2) next

theorem Item.Bounded.taken {i : Item} {us : List Token} {k : Token.Kind} (bounded : i.Bounded us k)
    (next : k ≠ .plus) : Item.parse.Takes False i us k :=
  Item.parse_takes (bounded.1.mono fun _ _ => Expr.Bounded.taken) (Nat.not_lt_of_le bounded.2) next

theorem Reading.sequenceRound_taken {α : Type} {item : Reading α} {a : α} {us rest : List Token}
    {stops : Token.Kind → Prop} [DecidablePred stops] {inBlock : Bool}
    (taken : item.Takes False a us (firstKind rest .eof))
    (goesOn : ¬ stops (firstKind us (firstKind rest .eof))) (before : List α) {s : ReadingState}
    (faultless : ∃ p, s.ending = .eof p) (split : s.tokens = us ++ rest) :
    sequenceRound stops inBlock item before s = .value (.inl (a :: before)) (s.drop us.length) := by
  have round : (sequenceRound stops inBlock item before).Takes False (.inl (a :: before)) us
      (firstKind rest .eof) := by
    refine .currentKind ?_
    rw [if_neg goesOn]
    exact (((taken.map _).orElse _).map _)
  rcases round s rest faultless split rfl with value | ⟨none, _⟩
  · exact value
  · exact none.elim

namespace Program

variable {text : String} {ts : List Token} {ending : Position} {p : Program}

theorem forall_subterms {post : Expr → Prop}
    (all : ∀ i ∈ p.items, ∀ s ∈ i.parts, ∀ e ∈ s.operands, ∀ e' ∈ e.subterms, post e') :
    ∀ e ∈ p.subterms, post e := by
  intro e member
  obtain ⟨s, part, inside⟩ := List.mem_flatMap.mp member
  obtain ⟨i, item, within⟩ := List.mem_flatMap.mp part
  obtain ⟨whole, operand, subterm⟩ := List.mem_flatMap.mp inside
  exact all i item s within whole operand e subterm

theorem mem_subterms {i : Item} (item : i ∈ p.items) {s : Stmt} (part : s ∈ i.parts) {e : Expr}
    (operand : e ∈ s.operands) : e ∈ p.subterms :=
  List.mem_flatMap.mpr ⟨s, List.mem_flatMap.mpr ⟨i, item, part⟩,
    List.mem_flatMap.mpr ⟨e, operand, e.mem_subterms_self⟩⟩

/-- A bounded derivation is one that keeps expressions to their levels, of a tree that is neither
too high nor too deep. -/
theorem bounded_iff : Sequence Item.Bounded p.items ts .eof ↔
    greedy.DerivesWithin nestingLimit p ts ∧
      (∀ e ∈ p.subterms, e.height ≤ nestingLimit) ∧ ∀ i ∈ p.items, i.nesting ≤ nestingLimit := by
  constructor
  · intro derived
    refine ⟨derived.mono fun _ _ _ _ entry => entry.1.mono fun _ _ => And.left, ?_, ?_⟩
    · refine forall_subterms (derived.forall_mem fun i us k entry s part e operand => ?_)
      have low (e : Expr) (us : List Token) (bounded : e.Bounded us) : e.height ≤ nestingLimit :=
        bounded.2
      exact fun inner member => Nat.le_trans (e.height_le_of_subterm inner member)
        (entry.1.forall_operands low s part e operand)
    · exact derived.forall_mem fun _ _ _ => And.right
  · rintro ⟨derived, low, shallow⟩
    refine derived.mono fun i member us k entry => ⟨entry.imp ?_, shallow i member⟩
    exact fun s part e operand us levels => ⟨levels, low e (mem_subterms member part operand)⟩

theorem parse_of_bounded (lexed : tokenize text = .ok (ts ++ [⟨.eof, "", ending⟩]))
    (derived : Sequence Item.Bounded p.items ts .eof) : parse text = .ok p := by
  have takes : Item.parseAll.Takes False p.items ts .eof :=
    Item.parseAll_takes
      (derived.mono fun _ _ _ _ entry => entry.1.mono fun _ _ => Expr.Bounded.taken)
      (derived.forall_mem fun _ _ _ entry => Nat.not_lt_of_le entry.2)
  rcases parse_of_takes lexed takes with read | ⟨none, _⟩
  · exact read
  · exact none.elim

/-- The nesting limits are exact. What is read keeps to them. What the grammar derives is read,
unless the tree or its levels go beyond a limit, and then no other error is noted. And in a text
with errors, a round of any loop still reads an item that keeps to the limits: what failed before
does not count. -/
theorem limits_exact :
    (∀ p, parse text = .ok p →
      (∀ e ∈ p.subterms, e.height ≤ nestingLimit) ∧ ∀ i ∈ p.items, i.nesting ≤ nestingLimit) ∧
    (∀ ts ending q, tokenize text = .ok (ts ++ [⟨.eof, "", ending⟩]) → extended.Derives q ts →
      ∃ p, greedy.Derives p ts ∧ (parse text = .ok p ∨
        (∃ e, parse text = .error (.malformed e []) ∧ e.cause.isLimit = true) ∧
          ((∃ e ∈ p.subterms, nestingLimit < e.height) ∨
            (∃ i ∈ p.items, nestingLimit < i.nesting) ∨
            ¬ greedy.DerivesWithin nestingLimit p ts))) ∧
    ∀ (s : ReadingState) (us rest : List Token), (∃ p, s.ending = .eof p) → s.tokens = us ++ rest →
      firstKind rest .eof ≠ .plus →
      (∀ i before, Item.Bounded i us (firstKind rest .eof) →
        Reading.sequenceRound (· = .eof) false Item.parse before s =
          .value (.inl (i :: before)) (s.drop us.length)) ∧
      ∀ room inner before, Stmt.Bounded room inner us (firstKind rest .eof) →
        Reading.sequenceRound (fun kind => kind = .rbrace ∨ kind = .eof) true (Stmt.parse room)
          before s = .value (.inl (inner :: before)) (s.drop us.length) := by
  refine ⟨fun p read => ?_, fun ts ending q lexed derivable => ?_, ?_⟩
  · obtain ⟨ts, _, _, derived⟩ := bounded_of_parse read
    exact (bounded_iff.mp derived).2
  · obtain ⟨p, derived⟩ := derivable.settled
    refine ⟨p, derived, ?_⟩
    rcases parse_of_takes lexed (Item.parseAll_takes_greedy derived) with read | ⟨_, limit⟩
    · exact .inl read
    refine .inr ⟨limit, ?_⟩
    by_contra within
    simp only [not_or, not_exists, not_and, Nat.not_lt, not_not] at within
    obtain ⟨e, rejected, _⟩ := limit
    have read := parse_of_bounded lexed (bounded_iff.mpr ⟨within.2.2, within.1, within.2.1⟩)
    cases read.symm.trans rejected
  · intro s us rest faultless split noPlus
    refine ⟨fun i before bounded => ?_, fun room inner before bounded => ?_⟩
    · refine Reading.sequenceRound_taken (bounded.taken noPlus) ?_ before faultless split
      intro stop
      have start := bounded.entry.starts (firstKind rest .eof)
      rw [stop] at start
      cases start
    · refine Reading.sequenceRound_taken (bounded.taken noPlus) ?_ before faultless split
      have start := (bounded.1.plain fun _ _ => Expr.Bounded.sum).starts (firstKind rest .eof)
      rintro (stop | stop) <;> rw [stop] at start <;> cases start

theorem limits_exact_sample :
    (∃ p, parse "f(1,);" = .ok p ∧ (∀ e ∈ p.subterms, e.height ≤ nestingLimit) ∧
      ∀ i ∈ p.items, i.nesting ≤ nestingLimit) ∧
    Reading.sequenceRound (· = .eof) false Item.parse []
        ⟨[⟨.ident, "x", ⟨2, 0, 2⟩⟩], 1, rfl, .eof ⟨3, 0, 3⟩, [⟨.unexpected .rparen, ⟨0, 0, 0⟩⟩]⟩ =
      .value (.inl [.stmt (.eval (.ident ⟨"x", ⟨2, 0, 2⟩⟩))])
        ⟨[], 0, rfl, .eof ⟨3, 0, 3⟩, [⟨.unexpected .rparen, ⟨0, 0, 0⟩⟩]⟩ := by
  constructor
  · have accepted : (match parse "f(1,);" with
        | .ok _ => true
        | .error _ => false) = true := by
      decide +kernel
    cases read : parse "f(1,);" with
    | ok p => exact ⟨p, rfl, limits_exact.1 p read⟩
    | error r =>
      rw [read] at accepted
      cases accepted
  · let x : Token := ⟨.ident, "x", ⟨2, 0, 2⟩⟩
    have rounds := (@limits_exact "").2.2
      ⟨[x], 1, rfl, .eof ⟨3, 0, 3⟩, [⟨.unexpected .rparen, ⟨0, 0, 0⟩⟩]⟩ [x] [] ⟨_, rfl⟩ rfl (by decide)
    have operand : Expr.LowOperand 1 (.ident ⟨x.text, x.start⟩) [x] :=
      .ident (Nat.le_of_ble_eq_true rfl) rfl
    have clause : ClauseOf greedy Expr.Bounded (.eval (.ident ⟨x.text, x.start⟩)) [x] .eof :=
      .eval ⟨.operand operand, Nat.le_of_ble_eq_true rfl⟩ nofun
    have whole : StatementOf greedy Expr.Bounded _ ([x] ++ []) .eof :=
      .ended clause (.none nofun)
    exact rounds.1 _ [] ⟨.stmt whole, Nat.le_of_ble_eq_true rfl⟩
end Program

end Tally
