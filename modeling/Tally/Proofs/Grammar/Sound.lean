import Tally.Proofs.Grammar.Levelled
import Tally.Proofs.Grammar.Passing
import Tally.Proofs.Program.Measures

namespace Tally

open Grammar

def Grammar.ListBegun {α : Type} (one : α → List Token → Prop) (before : List α) (us : List Token)
    (_ : Token.Kind) : Prop :=
  ∀ as vs, CommaList True one as vs → CommaList True one (before.reverse ++ as) (us ++ vs)

namespace Reading

variable {α : Type} {item : Reading α} {one : α → List Token → Prop}

theorem commaRound_reads (read : item.Reads fun a us _ => one a us) (before : List α) :
    (commaRound item before).Reads
      (Keeps (ListBegun one) (fun as us _ => CommaList True one as us) before) := by
  refine Reads.currentKind fun kind => ?_
  split
  · refine .pure fun k _ us list => ?_
    have whole := list [] [] .nil
    rwa [List.append_nil] at whole
  refine read.bind fun a => Reads.currentKind fun kind => ?_
  split
  · rename_i comma
    subst comma
    refine Reads.passKind (by decide) (.pure fun k t comma us item _ => ?_)
    refine ⟨by simp, fun ws list as vs more => ?_⟩
    have whole := list (a :: as) (us ++ t :: vs) (.cons item comma more fun _ => trivial)
    simpa using whole
  · refine .pure fun k _ us item _ ws list => ?_
    have whole := list [a] us (.last item)
    rw [← List.reverse_cons] at whole
    rwa [List.append_nil]

theorem commaList_reads (read : item.Reads fun a us _ => one a us) :
    (commaList item).Reads fun as us _ => CommaList True one as us :=
  Reads.loop (commaRound_reads read) fun _ _ _ list => list

end Reading

namespace Expr

theorem measured_reads (e : Expr) (at_ : Position) :
    (measured e at_).Reads fun e' us _ => e' = e ∧ us = [] ∧ e.height ≤ nestingLimit := by
  unfold measured
  split
  · exact Reading.abandon_reads _ _
  · rename_i low
    exact .pure fun _ => ⟨rfl, rfl, Nat.le_of_not_lt low⟩

abbrev LowOperand : Nat → Expr → List Token → Prop := OperandAt True (· ≤ nestingLimit)

abbrev LowSum : Nat → Expr → List Token → Prop := SumAt True (· ≤ nestingLimit)

/-- A whole expression that keeps to the limit in height and levels. -/
def Bounded (e : Expr) (us : List Token) : Prop := LowSum 1 e us ∧ e.height ≤ nestingLimit

theorem Bounded.sum {e : Expr} {us : List Token} (bounded : Bounded e us) : Sum True e us :=
  bounded.1.plain

structure ReadTo (level strength : Nat) (e : Expr) (us : List Token) (k : Token.Kind) : Prop where
  weaker : k.precedence ≤ strength
  derived : LowOperand level e us ∨ strength < Precedence.sum ∧ LowSum level e us
  low : e.height ≤ nestingLimit

theorem ReadTo.sum {level strength : Nat} {e : Expr} {us : List Token} {k : Token.Kind}
    (h : ReadTo level strength e us k) : LowSum level e us := by
  rcases h.derived with operand | ⟨_, sum⟩
  · exact .operand operand
  · exact sum

theorem operand_reads {nested : Nat → Reading Expr} {level : Nat} (here : level ≤ nestingLimit)
    (read : (nested Precedence.lowest).Reads (ReadTo (level + 1) Precedence.lowest)) :
    (operand nested).Reads fun e us _ => LowOperand level e us ∧ e.height ≤ nestingLimit := by
  refine Reading.Reads.current fun t => ?_
  split
  · rename_i kind
    refine Reading.Reads.pass (by rw [kind]; decide) (.pure fun _ => ?_)
    exact ⟨.ident here kind, Nat.le_of_ble_eq_true rfl⟩
  · rename_i kind
    refine Reading.Reads.pass (by rw [kind]; decide) (.pure fun _ => ?_)
    exact ⟨.int here kind, Nat.le_of_ble_eq_true rfl⟩
  · rename_i kind
    refine Reading.Reads.pass (by rw [kind]; decide) ?_
    refine read.bind fun e => (Reading.take_reads (by decide)).bind fun r => .pure ?_
    intro k ws closes us inner
    rw [closes.1, List.append_nil]
    exact ⟨.group here kind inner.sum closes.2, inner.low⟩
  · exact Reading.fail_reads _

/-- Tokens of an operand; or of a sum, where no argument list comes next. -/
def Extending (level strength : Nat) (e : Expr) (us : List Token) (k : Token.Kind) : Prop :=
  (LowOperand level e us ∨ (strength < Precedence.sum ∧ k ≠ .lparen ∧ LowSum level e us)) ∧
    e.height ≤ nestingLimit

section Extending

variable {level strength : Nat} {e : Expr} {us : List Token} {k : Token.Kind}

theorem Extending.sum (h : Extending level strength e us k) : LowSum level e us := by
  rcases h.1 with operand | ⟨_, _, sum⟩
  · exact .operand operand
  · exact sum

theorem Extending.operand (h : Extending level strength e us .lparen) : LowOperand level e us := by
  rcases h.1 with operand | ⟨_, other, _⟩
  · exact operand
  · exact absurd rfl other

theorem Extending.readTo (h : Extending level strength e us k) (weaker : k.precedence ≤ strength) :
    ReadTo level strength e us k := by
  rcases h.1 with operand | ⟨weak, _, sum⟩
  · exact ⟨weaker, .inl operand, h.2⟩
  · exact ⟨weaker, .inr ⟨weak, sum⟩, h.2⟩

theorem ReadTo.operand (h : ReadTo level Precedence.sum e us k) : LowOperand level e us := by
  rcases h.derived with operand | ⟨absurdly, _⟩
  · exact operand
  · exact absurd absurdly (Nat.lt_irrefl _)

theorem ReadTo.ne_lparen (h : ReadTo level strength e us k) (weak : strength < Precedence.call) :
    k ≠ .lparen := by
  rintro rfl
  exact absurd h.weaker (Nat.not_le_of_lt weak)

end Extending

theorem extendedRound_reads {nested : Nat → Reading Expr} {level strength : Nat}
    (read : ∀ strength, Precedence.lowest ≤ strength → strength < Precedence.call →
      (nested strength).Reads (ReadTo (level + 1) strength))
    (least : Precedence.lowest ≤ strength) (left : Expr) :
    (extendedRound nested strength left).Reads
      (Reading.Keeps (Extending level strength) (ReadTo level strength) left) := by
  refine Reading.Reads.current fun t => ?_
  split
  · rename_i stronger
    split
    · rename_i plus
      rw [plus] at stronger
      refine Reading.Reads.pass (by rw [plus]; decide) ?_
      refine (read Precedence.sum (by decide) (by decide)).bind fun right => ?_
      refine (measured_reads _ _).map ?_
      rintro e ws k ⟨rfl, rfl, low⟩ vs last
      refine ⟨List.cons_ne_nil _ _, fun us first => ⟨?_, low⟩⟩
      rw [List.append_nil]
      exact .inr ⟨stronger, last.ne_lparen (by decide), .add first.sum plus last.operand⟩
    · rename_i paren
      refine Reading.Reads.pass (by rw [paren]; decide) ?_
      have arguments := Reading.commaList_reads
        ((read Precedence.lowest (by decide) (by decide)).mono fun _ _ _ => ReadTo.sum)
      refine arguments.bind fun args => (Reading.take_reads (by decide)).bind fun r => ?_
      refine (measured_reads _ _).map ?_
      rintro e ws k ⟨rfl, rfl, low⟩ _ ⟨rfl, closes⟩ vs list
      refine ⟨List.cons_ne_nil _ _, fun us called => ⟨?_, low⟩⟩
      rw [firstKind_cons, paren] at called
      exact .inl (.call called.operand paren list.argumentsAt closes)
    · rename_i notPlus notParen
      -- no other token binds more strongly than the lowest strength
      have lowest : t.kind.precedence = Precedence.lowest := by
        unfold Token.Kind.precedence
        split
        · exact absurd ‹_› notPlus
        · exact absurd ‹_› notParen
        · rfl
      rw [lowest] at stronger
      exact absurd least (Nat.not_le_of_lt stronger)
  · rename_i weaker
    refine .pure fun k heads us extending => ?_
    rw [List.append_nil]
    refine extending.readTo ?_
    rw [heads.1]
    exact Nat.le_of_not_lt weaker

theorem extended_reads {nested : Nat → Reading Expr} {level strength : Nat}
    (read : ∀ strength, Precedence.lowest ≤ strength → strength < Precedence.call →
      (nested strength).Reads (ReadTo (level + 1) strength))
    (least : Precedence.lowest ≤ strength) (left : Expr) :
    (extended nested strength left).Reads fun e vs k =>
      ∀ us, Extending level strength left us (firstKind vs k) →
        ReadTo level strength e (us ++ vs) k :=
  Reading.Reads.iterate (extendedRound_reads read least) left

theorem parse_reads (room : Nat) {level strength : Nat} (left : room + level = nestingLimit + 1)
    (least : Precedence.lowest ≤ strength) (weak : strength < Precedence.call) :
    (parse room strength).Reads (ReadTo level strength) := by
  induction room generalizing level strength with
  | zero => exact Reading.Reads.current fun _ => Reading.abandon_reads _ _
  | succ room ih =>
    have inside {strength : Nat} (least : Precedence.lowest ≤ strength)
        (weak : strength < Precedence.call) :
        (parse room strength).Reads (ReadTo (level + 1) strength) := ih (by omega) least weak
    have here : level ≤ nestingLimit := by omega
    refine (operand_reads here (inside (by decide) (by decide))).bind fun left => ?_
    refine (extended_reads (fun _ => inside) least left).mono fun e vs k reached us operand => ?_
    exact reached us ⟨.inl operand.1, operand.2⟩

theorem parseWhole_reads : parseWhole.Reads fun e us k => Bounded e us ∧ k ≠ .lparen :=
  (parse_reads nestingLimit rfl (by decide) (by decide)).mono
    fun _ _ _ read => ⟨⟨read.sum, read.low⟩, read.ne_lparen (by decide)⟩

end Expr

theorem skipSemicolon_reads : skipSemicolon.Reads fun _ ws k => Closing greedy ws k := by
  refine Reading.Reads.currentKind fun kind => ?_
  split
  · rename_i semicolon
    refine Reading.advance_reads.mono fun _ us k passed same => ?_
    rcases passed with ⟨t, rfl⟩ | ⟨rfl, none⟩
    · exact .semicolon (same.trans semicolon)
    · cases none.symm.trans (same.trans semicolon)
  · rename_i other
    refine .pure fun k same => .none ?_
    rw [firstKind_nil] at same
    rwa [same]

theorem parseIdent_reads : parseIdent.Reads fun name us _ =>
    ∃ t : Token, us = [t] ∧ t.kind = .ident ∧ name = ⟨t.text, t.start⟩ := by
  refine (Reading.take_reads (by decide)).bind fun t => .pure ?_
  rintro k _ ⟨rfl, kind⟩
  exact ⟨t, rfl, kind, rfl⟩

theorem recover_reads (inBlock : Bool) : (recover inBlock).Reads fun _ _ _ => True := by
  intro s readable
  unfold recover
  split
  · exact ⟨readable, .inr ⟨[], .none s, trivial⟩⟩
  split
  · exact (Reading.advance_reads s readable).mono fun _ _ _ _ => trivial
  split
  · exact ⟨readable, .inr ⟨[], .none s, trivial⟩⟩
  · exact Reading.drop_reads _ s readable

def Grammar.SequenceBegun {α : Type} (one : α → List Token → Token.Kind → Prop) (before : List α)
    (us : List Token) (k : Token.Kind) : Prop :=
  ∀ as vs next, firstKind vs next = k → Sequence one as vs next →
    Sequence one (before.reverse ++ as) (us ++ vs) next

theorem Reading.sequenceRound_reads {α : Type} {item : Reading α}
    {one : α → List Token → Token.Kind → Prop} (stops : Token.Kind → Prop) [DecidablePred stops]
    (inBlock : Bool) (read : item.Reads one) (nonempty : ∀ a us k, one a us k → us ≠ [])
    (before : List α) : (sequenceRound stops inBlock item before).Reads
      (Keeps (SequenceBegun one) (fun as us k => stops k ∧ Sequence one as us k) before) := by
  refine Reads.currentKind fun kind => ?_
  split
  · rename_i stop
    refine .pure fun k same us list => ?_
    rw [firstKind_nil] at same list
    have whole := list [] [] k rfl (.nil k)
    simp only [List.append_nil] at whole ⊢
    exact ⟨same ▸ stop, whole⟩
  · have another : ((· :: before) <$> item).Reads fun as us k => ∃ a, as = a :: before ∧ one a us k :=
      read.map fun a us k here => ⟨a, rfl, here⟩
    have resumed : (do recover inBlock; return before : Reading (List α)).Reads fun _ _ _ => True :=
      (recover_reads inBlock).bind fun _ => .pure fun _ _ _ => trivial
    refine (another.orElse resumed).map ?_
    rintro _ vs k ⟨a, rfl, here⟩ _
    refine ⟨nonempty a vs k here, fun us list as ws next same more => ?_⟩
    have whole := list (a :: as) (vs ++ ws) next (by rw [firstKind_append, same])
      (.cons (same ▸ here) more)
    simpa using whole

theorem Reading.sequence_reads {α : Type} {item : Reading α}
    {one : α → List Token → Token.Kind → Prop} (stops : Token.Kind → Prop) [DecidablePred stops]
    (inBlock : Bool) (read : item.Reads one) (nonempty : ∀ a us k, one a us k → us ≠ []) :
    (iterate [] (sequenceRound stops inBlock item)).Reads fun as us k =>
      stops k ∧ Sequence one as us k :=
  Reads.loop (sequenceRound_reads stops inBlock read nonempty) fun _ _ _ _ _ list => list

namespace Stmt

variable {nested : Reading Stmt} {room : Nat}

def Bounded (room : Nat) (s : Stmt) (us : List Token) (k : Token.Kind) : Prop :=
  StatementOf greedy Expr.Bounded s us k ∧ s.nesting ≤ room

theorem Bounded.ne_nil {s : Stmt} {us : List Token} {k : Token.Kind} (read : s.Bounded room us k) :
    us ≠ [] := (read.1.plain fun _ _ => Expr.Bounded.sum).ne_nil

theorem parseBlock_reads (read : nested.Reads (Bounded room)) :
    (parseBlock nested).Reads fun block us k =>
      ClauseOf greedy Expr.Bounded (.block block.1 block.2) us k ∧
        greatestNesting block.2 ≤ room := by
  refine (Reading.take_reads (by decide)).bind fun l => ?_
  refine (Reading.sequence_reads (fun kind => kind = .rbrace ∨ kind = .eof) true read
    fun _ _ _ => Bounded.ne_nil).bind fun body => ?_
  refine (Reading.take_reads (by decide)).bind fun r => .pure ?_
  rintro k _ ⟨rfl, closes⟩ us ⟨_, inner⟩ _ ⟨rfl, opens⟩
  rw [firstKind_append, firstKind_cons, closes] at inner
  refine ⟨.block opens (inner.mono fun _ _ _ _ => And.left) closes, ?_⟩
  exact greatestNesting_le (inner.forall_mem fun _ _ _ => And.right)

theorem parseLoop_reads (read : nested.Reads (Bounded room)) :
    (parseLoop nested).Reads fun s us k =>
      ClauseOf greedy Expr.Bounded s us k ∧ s.nesting ≤ room + 1 := by
  refine (Reading.take_reads (by decide)).bind fun w => ?_
  refine (Reading.take_reads (by decide)).bind fun l => ?_
  refine Expr.parseWhole_reads.bind fun condition => ?_
  refine (Reading.take_reads (by decide)).bind fun r => ?_
  refine read.bind fun body => .pure ?_
  rintro k vs repeated _ ⟨rfl, closes⟩ us ⟨tested, _⟩ _ ⟨rfl, opens⟩ _ ⟨rfl, word⟩
  rw [List.append_nil]
  exact ⟨.loop word opens tested closes repeated.1, Nat.succ_le_succ repeated.2⟩

theorem parseReturn_reads : parseReturn.Reads fun s us k =>
    ClauseOf greedy Expr.Bounded s us k ∧ s.nesting ≤ room + 1 := by
  refine (Reading.take_reads (by decide)).bind fun w => ?_
  refine Expr.parseWhole_reads.bind fun value => .pure ?_
  rintro k us ⟨returned, stop⟩ _ ⟨rfl, word⟩
  rw [List.append_nil]
  exact ⟨.ret word returned stop, Nat.succ_le_succ (Nat.zero_le room)⟩

theorem parseBody_reads (read : nested.Reads (Bounded room)) :
    (parseBody nested).Reads fun s us k =>
      ClauseOf greedy Expr.Bounded s us k ∧ s.nesting ≤ room + 1 := by
  refine Reading.Reads.currentKind fun kind => ?_
  split
  · refine (parseBlock_reads read).bind fun block => .pure ?_
    intro k us clause _
    rw [List.append_nil]
    exact ⟨clause.1, Nat.succ_le_succ clause.2⟩
  · exact (parseLoop_reads read).mono fun _ _ _ clause _ => clause
  · exact parseReturn_reads.mono fun _ _ _ clause _ => clause
  · refine Expr.parseWhole_reads.map ?_
    rintro e us k ⟨value, stop⟩ _
    exact ⟨.eval value stop, Nat.succ_le_succ (Nat.zero_le room)⟩

theorem parse_reads (room : Nat) : (parse room).Reads (Bounded room) := by
  induction room with
  | zero => exact Reading.Reads.current fun _ => Reading.abandon_reads _ _
  | succ room ih =>
    refine (parseBody_reads ih).bind fun s => skipSemicolon_reads.bind fun _ => .pure ?_
    intro k ws closing us clause
    rw [List.append_nil] at clause ⊢
    exact ⟨.ended clause.1 closing, clause.2⟩

end Stmt

theorem Param.parse_reads : Param.parse.Reads fun p us _ => Parameter p us := by
  refine parseIdent_reads.bind fun name => ?_
  refine (Reading.take_reads (by decide)).bind fun c => ?_
  refine parseIdent_reads.bind fun type => .pure ?_
  rintro k _ ⟨t, rfl, types, rfl⟩ _ ⟨rfl, colons⟩ _ ⟨n, rfl, named, rfl⟩
  exact .typed named colons types

theorem Header.parse_reads : Header.parse.Reads fun h us _ => Heading True h us := by
  refine (Reading.take_reads (by decide)).bind fun w => ?_
  refine parseIdent_reads.bind fun name => ?_
  refine (Reading.take_reads (by decide)).bind fun l => ?_
  refine (Reading.commaList_reads Param.parse_reads).bind fun params => ?_
  refine (Reading.take_reads (by decide)).bind fun r => ?_
  refine (Reading.take_reads (by decide)).bind fun c => ?_
  refine parseIdent_reads.bind fun result => .pure ?_
  rintro k _ ⟨t, rfl, types, rfl⟩ _ ⟨rfl, colons⟩ _ ⟨rfl, closes⟩ us list _ ⟨rfl, opens⟩
    _ ⟨n, rfl, named, rfl⟩ _ ⟨rfl, word⟩
  exact .typed word named opens list closes colons types

namespace Item

def Bounded (i : Item) (us : List Token) (k : Token.Kind) : Prop :=
  EntryOf greedy Expr.Bounded i us k ∧ i.nesting ≤ nestingLimit

theorem parseDeclaration_reads : parseDeclaration.Reads Bounded := by
  refine Header.parse_reads.bind fun h => Reading.Reads.currentKind fun kind => ?_
  split
  · rename_i assigns
    subst assigns
    refine Reading.Reads.passKind (by decide) ?_
    refine (Reading.take_reads (by decide)).bind fun primitive => ?_
    refine skipSemicolon_reads.bind fun _ => .pure ?_
    rintro k ws closing _ ⟨rfl, named⟩ a assigns us heading
    rw [List.append_nil]
    exact ⟨.prototype heading assigns named closing, Nat.zero_le _⟩
  · refine (Stmt.parseBlock_reads (Stmt.parse_reads nestingLimit)).bind fun block => ?_
    refine skipSemicolon_reads.bind fun _ => .pure ?_
    intro k ws closing vs body _ us heading
    rw [List.append_nil] at body ⊢
    exact ⟨.definition heading body.1 closing, body.2⟩

theorem parse_reads : Item.parse.Reads Bounded := by
  refine Reading.Reads.currentKind fun kind => ?_
  split
  · exact parseDeclaration_reads.mono fun _ _ _ entry _ => entry
  · exact (Stmt.parse_reads nestingLimit).map fun _ _ _ whole _ => ⟨.stmt whole.1, whole.2⟩

theorem Bounded.entry {i : Item} {us : List Token} {k : Token.Kind} (read : Bounded i us k) :
    Entry greedy i us k := read.1.plain fun _ _ => Expr.Bounded.sum

theorem Bounded.ne_nil {i : Item} {us : List Token} {k : Token.Kind} (read : i.Bounded us k) :
    us ≠ [] := read.entry.ne_nil

theorem parseAll_reads : parseAll.Reads fun items us k => k = .eof ∧ Sequence Bounded items us k :=
  Reading.sequence_reads (· = .eof) false parse_reads fun _ _ _ => Bounded.ne_nil

end Item

end Tally
