import Tally.Proofs.Grammar.Levelled
import Tally.Proofs.Grammar.Taking
import Tally.Proofs.Program.Measures

namespace Tally

open Grammar
open Token.Kind (startsItem_of_statement)

namespace Reading

variable {α : Type} {limited : Prop}

theorem iterate_commaRound_takes {item : Reading α} {one : α → List Token → Prop}
    (takes : ∀ a us k, one a us → k = .comma ∨ k = .rparen → item.Takes limited a us k)
    (starts : ∀ a us k, one a us → (firstKind us k).startsOperand = true) {as : List α}
    {us : List Token} (list : CommaList True one as us) (before : List α) :
    (iterate before (commaRound item)).Takes limited (before.reverse ++ as) us .rparen := by
  have goesOn {a : α} {us : List Token} {k : Token.Kind} (here : one a us) :
      ¬ (firstKind us k = .rparen ∨ firstKind us k = .eof) := by
    have start := starts a us k here
    rintro (stop | stop) <;> rw [stop] at start <;> cases start
  induction list generalizing before with
  | nil =>
    refine .last (.currentKind ?_)
    rw [if_pos (.inl rfl), List.append_nil]
    exact .pure
  | @last a us here =>
    refine .last (.currentKind ?_)
    rw [if_neg (goesOn here), ← List.reverse_cons]
    refine (takes a us _ here (.inr rfl)).bindLast (.currentKind ?_)
    rw [if_neg (by decide)]
    exact .pure
  | @cons a as us vs t here comma more ends ih =>
    have round : (commaRound item before).Takes limited (.inl (a :: before)) (us ++ [t])
        (firstKind vs .rparen) := by
      refine .currentKind ?_
      rw [firstKind_append, if_neg (goesOn here)]
      refine (takes a us _ here (.inl comma)).bind (.currentKind ?_)
      rw [firstKind_cons, if_pos comma]
      exact .pass t .pure
    have rest := ih (a :: before)
    rw [List.reverse_cons, List.append_assoc] at rest
    have whole := round.more (by simp) rest
    rwa [List.append_assoc] at whole

theorem commaList_takes {item : Reading α} {one : α → List Token → Prop}
    (takes : ∀ a us k, one a us → k = .comma ∨ k = .rparen → item.Takes limited a us k)
    (starts : ∀ a us k, one a us → (firstKind us k).startsOperand = true) {as : List α}
    {us : List Token} (list : CommaList True one as us) :
    (commaList item).Takes limited as us .rparen := iterate_commaRound_takes takes starts list []

end Reading

namespace Expr

variable {nested : Nat → Reading Expr} {strength level : Nat} {limited : Prop}
  {allowed : Nat → Prop}

theorem measured_takes {e : Expr} (tall : nestingLimit < e.height → limited) (at_ : Position)
    (k : Token.Kind) : (measured e at_).Takes limited e [] k := by
  unfold measured
  split
  · rename_i high
    exact Reading.abandon_takes rfl _ (tall high)
  · exact .pure

theorem extended_last {e : Expr} {k : Token.Kind} (weaker : k.precedence ≤ strength) :
    (extended nested strength e).Takes limited e [] k := by
  refine Reading.Takes.last (Reading.Takes.current fun t heads => ?_)
  rw [if_neg]
  · exact .pure
  · rw [← heads.1]
    exact Nat.not_lt_of_le weaker

theorem extended_plus {left right e : Expr} {t : Token} {vs ws : List Token} {k : Token.Kind}
    (plus : t.kind = .plus) (weak : strength < Precedence.sum)
    (tall : nestingLimit < (add left t.start right).height → limited)
    (takes : (nested Precedence.sum).Takes limited right vs (firstKind ws k))
    (rest : (extended nested strength (.add left t.start right)).Takes limited e ws k) :
    (extended nested strength left).Takes limited e (t :: vs ++ ws) k := by
  refine Reading.Takes.more (Reading.Takes.current fun u heads => ?_) (List.cons_ne_nil _ _) rest
  obtain rfl := heads.2 t rfl
  have stronger : strength < t.kind.precedence := by rwa [plus]
  rw [if_pos stronger, plus]
  refine .pass t (takes.bindLast ?_)
  exact (measured_takes tall _ _).map _

theorem extended_paren {callee e : Expr} {args : List Expr} {l r : Token} {vs ws : List Token}
    {k : Token.Kind} (opens : l.kind = .lparen) (closes : r.kind = .rparen)
    (weak : strength < Precedence.call)
    (tall : nestingLimit < (call callee l.start args).height → limited)
    (takes : (Reading.commaList (nested Precedence.lowest)).Takes limited args vs .rparen)
    (rest : (extended nested strength (.call callee l.start args)).Takes limited e ws k) :
    (extended nested strength callee).Takes limited e (l :: (vs ++ [r]) ++ ws) k := by
  refine Reading.Takes.more (Reading.Takes.current fun u heads => ?_) (List.cons_ne_nil _ _) rest
  obtain rfl := heads.2 l rfl
  have stronger : strength < l.kind.precedence := by rwa [opens]
  rw [if_pos stronger, opens]
  refine .pass l (.bind (by rwa [firstKind_cons, closes]) ?_)
  exact (Reading.take_takes closes).bindLast ((measured_takes tall _ _).map _)

def TakesInside (limited : Prop) (allowed : Nat → Prop) (level : Nat)
    (nested : Nat → Reading Expr) : Prop :=
  (∀ e us k, OperandAt True allowed level e us → (nestingLimit < e.height → limited) →
      k ≠ .lparen → (nested Precedence.sum).Takes limited e us k) ∧
    ∀ e us k, SumAt True allowed level e us → (nestingLimit < e.height → limited) →
      k.precedence = Precedence.lowest → (nested Precedence.lowest).Takes limited e us k

theorem arguments_takes (inside : TakesInside limited allowed level nested) {args : List Expr}
    {us : List Token} (list : ArgumentsAt True allowed level args us)
    (tall : ∀ e ∈ args, nestingLimit < e.height → limited) :
    (Reading.commaList (nested Precedence.lowest)).Takes limited args us .rparen := by
  have each : CommaList True (fun e us => SumAt True allowed level e us ∧
      (nestingLimit < e.height → limited)) args us := list.commaList.and tall
  refine Reading.commaList_takes (fun e us k sum next => ?_) (fun _ _ k sum => sum.1.plain.starts k)
    each
  exact inside.2 e us k sum.1 sum.2 (by rcases next with rfl | rfl <;> rfl)

theorem takes_operand (inside : TakesInside limited allowed (level + 1) nested)
    (weak : strength < Precedence.call) {e : Expr} {us : List Token} :
    OperandAt True allowed level e us → (nestingLimit < e.height → limited) →
      ∀ {e' : Expr} {ws : List Token} {k : Token.Kind},
        (extended nested strength e).Takes limited e' ws k →
        (operand nested >>= extended nested strength).Takes limited e' (us ++ ws) k
  | .ident (t := t) _ kind, _, _, _, _, rest => by
    refine .bind (.current fun u heads => ?_) rest
    obtain rfl := heads.2 t rfl
    rw [kind]
    exact .pass t .pure
  | .int (t := t) _ kind, _, _, _, _, rest => by
    refine .bind (.current fun u heads => ?_) rest
    obtain rfl := heads.2 t rfl
    rw [kind]
    exact .pass t .pure
  | .group (l := l) (r := r) _ opens inner closes, tall, _, _, _, rest => by
    refine .bind (.current fun u heads => ?_) rest
    obtain rfl := heads.2 l rfl
    rw [opens]
    refine .pass l (.bind (inside.2 _ _ _ inner tall (by rw [firstKind_cons, closes]; rfl)) ?_)
    exact (Reading.take_takes closes).bindLast .pure
  | .call called opens list closes, tall, _, _, _, rest => by
    have arguments := arguments_takes inside list fun e member high =>
      tall (Nat.lt_trans high (height_argument_lt _ _ member))
    rw [List.append_assoc]
    exact takes_operand inside weak called
      (fun high => tall (Nat.lt_trans high (height_callee_lt _ _ _)))
      (extended_paren opens closes weak tall arguments rest)

theorem takes_sum (inside : TakesInside limited allowed (level + 1) nested)
    (weak : strength < Precedence.sum) {e : Expr} {us : List Token} :
    SumAt True allowed level e us → (nestingLimit < e.height → limited) →
      ∀ {e' : Expr} {ws : List Token} {k : Token.Kind},
        firstKind ws k ≠ .lparen → (extended nested strength e).Takes limited e' ws k →
        (operand nested >>= extended nested strength).Takes limited e' (us ++ ws) k
  | .operand only, tall, _, _, _, _, rest =>
    takes_operand inside (Nat.lt_succ_of_lt weak) only tall rest
  | .add first plus last, tall, _, _, _, next, rest => by
    have right := inside.1 _ _ _ last
      (fun high => tall (Nat.lt_trans high (height_right_lt _ _ _))) next
    rw [List.append_assoc]
    refine takes_sum inside weak first
      (fun high => tall (Nat.lt_trans high (height_left_lt _ _ _))) ?_
      (extended_plus plus weak tall right rest)
    rw [List.cons_append, firstKind_cons, plus]
    decide

theorem takesInside_parse (deep : allowed (nestingLimit + 1) → limited) (room : Nat) {level : Nat}
    (left : room + level = nestingLimit + 1) : TakesInside limited allowed level (parse room) := by
  induction room generalizing level with
  | zero =>
    rw [Nat.zero_add] at left
    have limit {e : Expr} {us : List Token} {k : Token.Kind} (strength : Nat)
        (here : allowed level) : (parse 0 strength).Takes limited e us k :=
      Reading.Takes.current fun _ _ => Reading.abandon_takes rfl _ (deep (left ▸ here))
    exact ⟨fun _ _ _ operand _ _ => limit _ operand.here, fun _ _ _ sum _ _ => limit _ sum.here⟩
  | succ room ih =>
    have inside : TakesInside limited allowed (level + 1) (parse room) := ih (by omega)
    constructor
    · intro e us k operand tall next
      have weaker : k.precedence ≤ Precedence.sum := by
        cases k with
        | lparen => exact absurd rfl next
        | _ => decide
      have whole := takes_operand inside (by decide) operand tall (extended_last weaker)
      rwa [List.append_nil] at whole
    · intro e us k sum tall lowest
      have other : k ≠ .lparen := by
        rintro rfl
        cases lowest
      have last : (extended (parse room) Precedence.lowest e).Takes limited e [] k :=
        extended_last (Nat.le_of_eq lowest)
      have whole := takes_sum inside (by decide) sum tall
        (show firstKind [] k ≠ .lparen from other) last
      rwa [List.append_nil] at whole

def TakenWhole (limited : Prop) (e : Expr) (us : List Token) : Prop :=
  Sum True e us ∧ ∀ k, k ≠ .lparen → k ≠ .plus → parseWhole.Takes limited e us k

theorem takenWhole {e : Expr} {us : List Token} (sum : SumAt True allowed 1 e us)
    (deep : allowed (nestingLimit + 1) → limited) (tall : nestingLimit < e.height → limited) :
    TakenWhole limited e us := by
  refine ⟨sum.plain, fun k noCall noPlus => ?_⟩
  refine (takesInside_parse deep nestingLimit rfl).2 e us k sum tall ?_
  cases k with
  | lparen => exact absurd rfl noCall
  | plus => exact absurd rfl noPlus
  | _ => rfl

theorem takenWhole_of_sum {e : Expr} {us : List Token} (sum : Sum True e us) :
    TakenWhole True e us :=
  takenWhole (sum.somewhere 1) (fun _ => trivial) fun _ => trivial

end Expr

section

variable {limited : Prop}

theorem skipSemicolon_takes {ws : List Token} {k : Token.Kind} (closing : Closing greedy ws k) :
    skipSemicolon.Takes limited () ws k := by
  refine Reading.Takes.currentKind ?_
  cases closing with
  | none stop =>
    rw [firstKind_nil, if_neg stop]
    exact .pure
  | @semicolon t _ kind =>
    rw [firstKind_cons, if_pos kind]
    exact Reading.advance_takes t

theorem parseIdent_takes {t : Token} {k : Token.Kind} (kind : t.kind = .ident) :
    parseIdent.Takes limited ⟨t.text, t.start⟩ [t] k := (Reading.take_takes kind).bindLast .pure

end

namespace Reading

variable {α : Type} {limited : Prop}

theorem iterate_sequenceRound_takes {item : Reading α} {one : α → List Token → Token.Kind → Prop}
    (stops : Token.Kind → Prop) [DecidablePred stops] (inBlock : Bool)
    (takes : ∀ a us k, one a us k → k.followsItem = true → item.Takes limited a us k)
    (starts : ∀ a us k next, one a us k → (firstKind us next).startsItem = true)
    (goesOn : ∀ kind, kind.startsItem = true → ¬ stops kind) {as : List α} {us : List Token}
    {k : Token.Kind} (list : Sequence one as us k) (stop : stops k) (after : k.followsItem = true)
    (before : List α) :
    (iterate before (sequenceRound stops inBlock item)).Takes limited (before.reverse ++ as) us
      k := by
  induction list generalizing before with
  | nil k =>
    refine .last (.currentKind ?_)
    rw [firstKind_nil, if_pos stop, List.append_nil]
    exact .pure
  | @cons a as us vs k here more ih =>
    have next := more.follows starts after
    have round : (sequenceRound stops inBlock item before).Takes limited (.inl (a :: before)) us
        (firstKind vs k) := by
      refine .currentKind ?_
      rw [if_neg (goesOn _ (starts a us _ _ here))]
      exact (((takes a us _ here next).map _).orElse _).map _
    have rest := ih stop after (a :: before)
    rw [List.reverse_cons, List.append_assoc] at rest
    exact round.more (ne_nil_of_starts (starts a us _ _ here)) rest

end Reading

namespace Stmt

variable {limited : Prop} {nested : Reading Stmt} {room : Nat}

/-- What is read where a statement stands inside another, with room for so many, is what is
derived. -/
def TakesStatements (limited : Prop) (room : Nat) (nested : Reading Stmt) : Prop :=
  ∀ s us k, StatementOf greedy (Expr.TakenWhole limited) s us k → (room < s.nesting → limited) →
    k ≠ .plus → nested.Takes limited s us k

theorem ne_plus_of_follows {k : Token.Kind} (next : k.followsItem = true) : k ≠ .plus := by
  rintro rfl
  cases next

theorem parseBlock_takes (takes : TakesStatements limited room nested) {brace : Position}
    {body : List Stmt} {us : List Token} {k : Token.Kind}
    (clause : ClauseOf greedy (Expr.TakenWhole limited) (.block brace body) us k)
    (deep : room < greatestNesting body → limited) :
    (parseBlock nested).Takes limited (brace, body) us k := by
  cases clause with
  | @block l r _ us _ opens inner closes =>
    have each : Sequence (fun s us k => StatementOf greedy (Expr.TakenWhole limited) s us k ∧
        (room < s.nesting → limited)) body us .rbrace :=
      inner.mono fun s member _ _ whole =>
        ⟨whole, fun inside => deep (Nat.lt_of_lt_of_le inside (nesting_le_of_mem member))⟩
    have statements : (Reading.iterate [] (Reading.sequenceRound
        (fun kind => kind = .rbrace ∨ kind = .eof) true nested)).Takes limited ([] ++ body) us
        .rbrace := Reading.iterate_sequenceRound_takes _ true
      (fun s us k whole next => takes s us k whole.1 whole.2 (ne_plus_of_follows next))
      (fun s us k next whole =>
        startsItem_of_statement ((whole.1.plain fun _ _ => And.left).starts next))
      (fun kind start stop => by rcases stop with rfl | rfl <;> cases start) each (.inl rfl) rfl []
    refine (Reading.take_takes opens).bind (.bind (a := body) ?_ ?_)
    · rw [firstKind_cons, closes]
      exact statements
    · exact (Reading.take_takes closes).bindLast .pure

theorem parseBody_takes (takes : TakesStatements limited room nested) {s : Stmt} {us : List Token}
    {k : Token.Kind} (clause : ClauseOf greedy (Expr.TakenWhole limited) s us k)
    (deep : room + 1 < s.nesting → limited) (next : k ≠ .plus) :
    (parseBody nested).Takes limited s us k := by
  refine .currentKind ?_
  cases clause with
  | @block l r body us _ opens inner closes =>
    rw [firstKind_cons, opens]
    refine (parseBlock_takes takes (.block opens inner closes) fun inside => ?_).bindLast .pure
    exact deep (Nat.succ_lt_succ inside)
  | @loop w l r condition body us vs _ word opens tested closes repeated =>
    rw [firstKind_cons, word]
    refine (Reading.take_takes word).bind ?_
    refine (Reading.take_takes opens).bind ?_
    refine .bind (tested.2 _ ?_ ?_) ?_
    · rw [firstKind_cons, closes]
      decide
    · rw [firstKind_cons, closes]
      decide
    refine (Reading.take_takes closes).bind ?_
    exact (takes _ _ _ repeated (fun inside => deep (Nat.succ_lt_succ inside)) next).bindLast .pure
  | @ret w value us _ word returned stop =>
    rw [firstKind_cons, word]
    refine (Reading.take_takes word).bind ?_
    exact (returned.2 _ stop next).bindLast .pure
  | eval value stop =>
    have start := value.1.starts k
    split
    · rename_i kind
      rw [kind] at start
      cases start
    · rename_i kind
      rw [kind] at start
      cases start
    · rename_i kind
      rw [kind] at start
      cases start
    · exact (value.2 _ stop next).map _

theorem parse_takes (room : Nat) : TakesStatements limited room (parse room) := by
  induction room with
  | zero =>
    exact fun s _ _ _ deep _ =>
      Reading.Takes.current fun _ _ => Reading.abandon_takes rfl _ (deep s.nesting_pos)
  | succ room ih =>
    intro s us k whole deep next
    cases whole with
    | @ended _ us ws _ body closing =>
      refine .bind (parseBody_takes ih body deep ?_) ((skipSemicolon_takes closing).bindLast .pure)
      cases closing with
      | none => exact next
      | semicolon kind =>
        rw [firstKind_cons, kind]
        decide

end Stmt

section

variable {limited : Prop}

theorem Param.parse_takes {p : Param} {us : List Token} {k : Token.Kind} :
    Parameter p us → Param.parse.Takes limited p us k
  | .typed named colons types => by
    refine (parseIdent_takes named).bind ?_
    refine (Reading.take_takes colons).bind ?_
    exact (parseIdent_takes types).bindLast .pure

theorem Grammar.Parameter.starts {p : Param} {us : List Token} (one : Parameter p us)
    (next : Token.Kind) : (firstKind us next).startsOperand = true := by
  cases one with
  | typed named =>
    rw [firstKind_cons, named]
    rfl

theorem Header.parse_takes {h : Header} {us : List Token} {k : Token.Kind} :
    Heading True h us → Header.parse.Takes limited h us k
  | .typed word named opens list closes colons types => by
    have params : (Reading.commaList Param.parse).Takes limited _ _ .rparen := Reading.commaList_takes
      (fun _ _ _ one _ => Param.parse_takes one) (fun _ _ k one => one.starts k) list
    refine (Reading.take_takes word).bind ?_
    refine (parseIdent_takes named).bind ?_
    refine (Reading.take_takes opens).bind ?_
    refine .bind (by rwa [firstKind_cons, closes]) ?_
    refine (Reading.take_takes closes).bind ?_
    refine (Reading.take_takes colons).bind ?_
    exact (parseIdent_takes types).bindLast .pure

end

namespace Item

variable {limited : Prop}

theorem parse_takes {i : Item} {us : List Token} {k : Token.Kind}
    (entry : EntryOf greedy (Expr.TakenWhole limited) i us k)
    (deep : nestingLimit < i.nesting → limited) (next : k ≠ .plus) :
    Item.parse.Takes limited i us k := by
  refine .currentKind ?_
  cases entry with
  | prototype heading assigns named closing =>
    rw [firstKind_append, heading.starts, if_pos rfl]
    refine .bind (Header.parse_takes heading) (.currentKind ?_)
    rw [firstKind_cons, if_pos assigns]
    refine .pass _ ((Reading.take_takes named).bind ?_)
    exact (skipSemicolon_takes closing).bindLast .pure
  | @definition d us vs ws _ heading body closing =>
    rw [firstKind_append, heading.starts, if_pos rfl]
    refine .bind (Header.parse_takes heading) (.currentKind ?_)
    rw [if_neg]
    · refine .bind (Stmt.parseBlock_takes (Stmt.parse_takes nestingLimit) body deep) ?_
      exact (skipSemicolon_takes closing).bindLast .pure
    · have start := (body.plain fun _ _ => And.left).starts (firstKind ws k)
      rw [← firstKind_append] at start
      intro assign
      rw [assign] at start
      cases start
  | stmt whole =>
    rw [if_neg]
    · exact (Stmt.parse_takes nestingLimit _ _ _ whole deep next).map _
    · intro func
      have start := (whole.plain fun _ _ => And.left).starts k
      rw [func] at start
      cases start

theorem parseAll_takes {items : List Item} {us : List Token}
    (derived : Sequence (EntryOf greedy (Expr.TakenWhole limited)) items us .eof)
    (deep : ∀ i ∈ items, nestingLimit < i.nesting → limited) :
    parseAll.Takes limited items us .eof := by
  have each : Sequence (fun i us k => EntryOf greedy (Expr.TakenWhole limited) i us k ∧
      (nestingLimit < i.nesting → limited)) items us .eof :=
    derived.mono fun i member _ _ entry => ⟨entry, deep i member⟩
  exact Reading.iterate_sequenceRound_takes (· = .eof) false
    (fun _ _ _ entry next => parse_takes entry.1 entry.2 (Stmt.ne_plus_of_follows next))
    (fun _ _ _ next entry => (entry.1.plain fun _ _ => And.left).starts next)
    (fun kind start stop => by rw [stop] at start; cases start) each rfl rfl []

/-- What the whole text derives greedily is read, or some limit is met. -/
theorem parseAll_takes_greedy {items : List Item} {us : List Token}
    (derived : Sequence (Entry greedy) items us .eof) : parseAll.Takes True items us .eof :=
  parseAll_takes
    (derived.mono fun _ _ _ _ entry => entry.valued.mono fun _ _ => Expr.takenWhole_of_sum)
    fun _ _ _ => trivial

end Item

end Tally
