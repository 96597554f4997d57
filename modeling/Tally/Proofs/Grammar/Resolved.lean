import Tally.Program.Grammar

namespace Tally

namespace Token.Kind

def startsOperand : Kind → Bool
  | ident | int | lparen => true
  | _ => false

def startsStatement : Kind → Bool
  | lbrace | whileWord | returnWord => true
  | kind => kind.startsOperand

def startsItem : Kind → Bool
  | funcWord => true
  | kind => kind.startsStatement

theorem startsStatement_of_operand {kind : Kind} (h : kind.startsOperand = true) :
    kind.startsStatement = true := by
  unfold startsStatement
  split
  · rfl
  · rfl
  · rfl
  · exact h

theorem startsItem_of_statement {kind : Kind} (h : kind.startsStatement = true) :
    kind.startsItem = true := by
  unfold startsItem
  split
  · rfl
  · exact h

def followsItem : Kind → Bool
  | rbrace | eof => true
  | kind => kind.startsItem

theorem followsItem_of_starts {kind : Kind} (h : kind.startsItem = true) :
    kind.followsItem = true := by
  unfold followsItem
  split
  · rfl
  · rfl
  · exact h

end Token.Kind

namespace Grammar

open Token.Kind (startsStatement_of_operand startsItem_of_statement followsItem_of_starts)

@[simp] theorem firstKind_append (us vs : List Token) (next : Token.Kind) :
    firstKind (us ++ vs) next = firstKind us (firstKind vs next) := by
  cases us <;> rfl

@[simp] theorem firstKind_nil (next : Token.Kind) : firstKind [] next = next := rfl

@[simp] theorem firstKind_cons (t : Token) (ts : List Token) (next : Token.Kind) :
    firstKind (t :: ts) next = t.kind := rfl

theorem firstKind_congr {us : List Token} (nonempty : us ≠ []) (next next' : Token.Kind) :
    firstKind us next = firstKind us next' := by
  cases us with
  | nil => exact absurd rfl nonempty
  | cons t ts => rfl

theorem ne_nil_of_starts {us : List Token} (starts : (firstKind us .eof).startsItem = true) :
    us ≠ [] := by
  rintro rfl
  cases starts

section Starts

variable {trailing : Prop} {g : Grammar}

theorem Operand.starts {e : Expr} {us : List Token} : Operand trailing e us → ∀ next,
    (firstKind us next).startsOperand = true
  | .ident kind, _ => by rw [firstKind_cons, kind]; rfl
  | .int kind, _ => by rw [firstKind_cons, kind]; rfl
  | .group opens _ _, _ => by rw [firstKind_cons, opens]; rfl
  | .call called _ _ _, _ => by
    rw [firstKind_append]
    exact called.starts _

theorem Sum.starts {e : Expr} {us : List Token} : Sum trailing e us → ∀ next,
    (firstKind us next).startsOperand = true
  | .operand only, _ => only.starts _
  | .add first _ _, _ => by
    rw [firstKind_append]
    exact first.starts _

theorem Operand.ne_nil {e : Expr} {us : List Token} (operand : Operand trailing e us) : us ≠ [] :=
  ne_nil_of_starts (startsItem_of_statement (startsStatement_of_operand (operand.starts .eof)))

theorem Sum.ne_nil {e : Expr} {us : List Token} (sum : Sum trailing e us) : us ≠ [] :=
  ne_nil_of_starts (startsItem_of_statement (startsStatement_of_operand (sum.starts .eof)))

variable {us : List Token}

theorem Clause.starts {s : Stmt} {k : Token.Kind} (clause : Clause g s us k) (next : Token.Kind) :
    (firstKind us next).startsStatement = true := by
  cases clause with
  | block opens => rw [firstKind_cons, opens]; rfl
  | loop word => rw [firstKind_cons, word]; rfl
  | ret word => rw [firstKind_cons, word]; rfl
  | eval value => exact startsStatement_of_operand (value.starts next)

theorem Statement.starts {s : Stmt} {k : Token.Kind} (whole : Statement g s us k)
    (next : Token.Kind) : (firstKind us next).startsStatement = true := by
  cases whole with
  | ended body closing =>
    rw [firstKind_append]
    exact body.starts _

theorem Heading.starts {h : Header} (heading : Heading trailing h us) (next : Token.Kind) :
    firstKind us next = .funcWord := by
  cases heading with
  | typed word => exact word

theorem Entry.starts {i : Item} {k : Token.Kind} (entry : Entry g i us k) (next : Token.Kind) :
    (firstKind us next).startsItem = true := by
  cases entry with
  | prototype heading =>
    rw [firstKind_append, heading.starts]
    rfl
  | definition heading =>
    rw [firstKind_append, heading.starts]
    rfl
  | stmt whole => exact startsItem_of_statement (whole.starts next)

theorem Statement.ne_nil {s : Stmt} {k : Token.Kind} (whole : Statement g s us k) : us ≠ [] :=
  ne_nil_of_starts (startsItem_of_statement (whole.starts .eof))

theorem Entry.ne_nil {i : Item} {k : Token.Kind} (entry : Entry g i us k) : us ≠ [] :=
  ne_nil_of_starts (entry.starts .eof)

theorem Sequence.follows {α : Type} {one : α → List Token → Token.Kind → Prop} {as : List α}
    {k : Token.Kind} (starts : ∀ a us k next, one a us k → (firstKind us next).startsItem = true)
    (derived : Sequence one as us k) (after : k.followsItem = true) :
    (firstKind us k).followsItem = true := by
  cases derived with
  | nil => exact after
  | cons first more =>
    rw [firstKind_append]
    exact followsItem_of_starts (starts _ _ _ _ first)

end Starts

section Endings

variable {g : Grammar} {s : Stmt} {us : List Token} {k : Token.Kind}

theorem Statement.bare (clause : Clause g s us k) (stop : g.afterBare k) : Statement g s us k := by
  have whole : Statement g s (us ++ []) k := .ended clause (.none stop)
  rwa [List.append_nil] at whole

theorem Statement.closed {t : Token} (clause : Clause g s us .semicolon)
    (kind : t.kind = .semicolon) : Statement g s (us ++ [t]) k :=
  .ended (by rwa [firstKind_cons, kind]) (.semicolon kind)

end Endings

/-- What holds of a derivation if it holds of the derivations inside. -/
structure Inherited (g : Grammar) (clause statement : Stmt → List Token → Token.Kind → Prop)
    (sequence : List Stmt → List Token → Token.Kind → Prop) : Prop where
  block {l r : Token} {body : List Stmt} {us : List Token} {k : Token.Kind}
    (opens : l.kind = .lbrace) (closes : r.kind = .rbrace) (inner : sequence body us .rbrace) :
    clause (.block l.start body) (l :: (us ++ [r])) k
  loop {w l r : Token} {condition : Expr} {body : Stmt} {us vs : List Token} {k : Token.Kind}
    (word : w.kind = .whileWord) (opens : l.kind = .lparen) (tested : Sum g.trailing condition us)
    (closes : r.kind = .rparen) (inner : statement body vs k) :
    clause (.loop w.start condition body) (w :: l :: (us ++ r :: vs)) k
  ret {w : Token} {value : Expr} {us : List Token} {k : Token.Kind} (word : w.kind = .returnWord)
    (returned : Sum g.trailing value us) (stop : g.afterOperand k) :
    clause (.ret w.start value) (w :: us) k
  eval {e : Expr} {us : List Token} {k : Token.Kind} (value : Sum g.trailing e us)
    (stop : g.afterOperand k) : clause (.eval e) us k
  ended {s : Stmt} {us ws : List Token} {k : Token.Kind} (closing : Closing g ws k)
    (inner : clause s us (firstKind ws k)) : statement s (us ++ ws) k
  nil (k : Token.Kind) : sequence [] [] k
  cons {s : Stmt} {ss : List Stmt} {us vs : List Token} {k : Token.Kind}
    (more : Sequence (Statement g) ss vs k) (first : statement s us (firstKind vs k))
    (rest : sequence ss vs k) : sequence (s :: ss) (us ++ vs) k

namespace Inherited

variable {g : Grammar} {clause statement : Stmt → List Token → Token.Kind → Prop}
  {sequence : List Stmt → List Token → Token.Kind → Prop} {us : List Token} {k : Token.Kind}

theorem of_clause (h : Inherited g clause statement sequence) {s : Stmt}
    (derived : Clause g s us k) : clause s us k :=
  @Clause.rec g (fun s us k _ => clause s us k) (fun s us k _ => statement s us k)
    (fun ss us k _ => sequence ss us k) (fun opens _ closes => h.block opens closes)
    (fun word opens tested closes _ => h.loop word opens tested closes) h.ret h.eval
    (fun _ closing => h.ended closing) h.nil (fun _ more => h.cons more) s us k derived

theorem of_statement (h : Inherited g clause statement sequence) {s : Stmt}
    (derived : Statement g s us k) : statement s us k := by
  cases derived with
  | ended body closing => exact h.ended closing (h.of_clause body)

theorem of_sequence (h : Inherited g clause statement sequence) {ss : List Stmt}
    (derived : Sequence (Statement g) ss us k) : sequence ss us k := by
  induction derived with
  | nil k => exact h.nil k
  | cons first more ih => exact h.cons more (h.of_statement first) ih

end Inherited

theorem Operand.merge {f e : Expr} {us vs : List Token} (before : Operand True f us) :
    Operand True e vs → firstKind vs .eof = .lparen → ∃ e', Operand True e' (us ++ vs)
  | .ident kind, opens => by cases kind.symm.trans opens
  | .int kind, opens => by cases kind.symm.trans opens
  | .group opens inner closes, _ => ⟨_, .call before opens (.last inner) closes⟩
  | .call called opens list closes, first => by
    rw [firstKind_append, firstKind_congr called.ne_nil _ .eof] at first
    obtain ⟨callee, merged⟩ := before.merge called first
    have whole := Operand.call merged opens list closes
    rw [List.append_assoc] at whole
    exact ⟨_, whole⟩

theorem Sum.mergeOperand {f e : Expr} {us vs : List Token} :
    Sum True f us → Operand True e vs → firstKind vs .eof = .lparen → ∃ e', Sum True e' (us ++ vs)
  | .operand only, after, opens => by
    obtain ⟨e', merged⟩ := only.merge after opens
    exact ⟨e', .operand merged⟩
  | .add first plus last, after, opens => by
    obtain ⟨right, merged⟩ := last.merge after opens
    have whole := Sum.add first plus merged
    rw [← List.cons_append, ← List.append_assoc] at whole
    exact ⟨_, whole⟩

theorem Sum.merge {f e : Expr} {us vs : List Token} (before : Sum True f us) :
    Sum True e vs → firstKind vs .eof = .lparen → ∃ e', Sum True e' (us ++ vs)
  | .operand only, opens => before.mergeOperand only opens
  | .add first plus last, opens => by
    rw [firstKind_append, firstKind_congr first.ne_nil _ .eof] at opens
    obtain ⟨left, merged⟩ := before.merge first opens
    have whole := Sum.add merged plus last
    rw [List.append_assoc] at whole
    exact ⟨_, whole⟩

/-- Only the place of calls is settled, not that of semicolons. -/
def calling : Grammar := ⟨True, (· ≠ .lparen), fun _ => True⟩

/-- Something of these tokens may stand before anything. Or it may stand before all but a
parenthesis, and with a statement that begins with one it makes a whole. -/
def Absorbs {α β : Type} (one : α → List Token → Token.Kind → Prop)
    (whole : β → List Token → Token.Kind → Prop) (us : List Token) : Prop :=
  (∀ k, ∃ a, one a us k) ∨ ((∀ k, k ≠ .lparen → ∃ a, one a us k) ∧
    ∀ s vs k, Statement calling s vs k → firstKind vs k = .lparen → ∃ b, whole b (us ++ vs) k)

theorem Absorbs.before {α β : Type} {one : α → List Token → Token.Kind → Prop}
    {whole : β → List Token → Token.Kind → Prop} {us : List Token} (h : Absorbs one whole us)
    {k : Token.Kind} (other : k ≠ .lparen) : ∃ a, one a us k := by
  rcases h with anywhere | ⟨elsewhere, _⟩
  · exact anywhere k
  · exact elsewhere k other

theorem Sum.absorbs {e : Expr} {us : List Token} (before : Sum True e us)
    (build : Expr → Stmt) (mark : List Token)
    (clause : ∀ e us k, Sum True e us → k ≠ .lparen → Clause calling (build e) (mark ++ us) k) :
    Absorbs (Clause calling) (Statement calling) (mark ++ us) := by
  refine .inr ⟨fun k other => ⟨_, clause e us k before other⟩, ?_⟩
  intro s vs k whole first
  cases whole with
  | ended body closing =>
    cases body with
    | block opens => cases opens.symm.trans first
    | loop word => cases word.symm.trans first
    | ret word => cases word.symm.trans first
    | eval value stop =>
      rw [firstKind_append, firstKind_congr value.ne_nil _ .eof] at first
      obtain ⟨e', merged⟩ := before.merge value first
      have whole := Statement.ended (clause e' _ _ merged stop) closing
      rw [List.append_assoc, List.append_assoc, ← List.append_assoc] at whole
      exact ⟨_, whole⟩

theorem Sequence.absorb {α : Type} {one : α → List Token → Token.Kind → Prop}
    (isStatement : ∀ a us k, one a us k → firstKind us k = .lparen →
      ∃ s, Statement calling s us k)
    {us vs : List Token} {k : Token.Kind} (item : Absorbs one one us) {as : List α}
    (more : Sequence one as vs k) (other : k ≠ .lparen) :
    ∃ bs, Sequence one bs (us ++ vs) k := by
  by_cases paren : firstKind vs k = .lparen
  · rcases item with anywhere | ⟨_, joined⟩
    · obtain ⟨a, first⟩ := anywhere (firstKind vs k)
      exact ⟨a :: as, .cons first more⟩
    · cases more with
      | nil => exact absurd paren other
      | @cons b bs ws rest _ second more =>
        rw [firstKind_append] at paren
        obtain ⟨s, whole⟩ := isStatement _ _ _ second paren
        obtain ⟨c, first⟩ := joined s ws _ whole paren
        have joint := Sequence.cons first more
        rw [List.append_assoc] at joint
        exact ⟨c :: bs, joint⟩
  · obtain ⟨a, first⟩ := item.before paren
    exact ⟨a :: as, .cons first more⟩

/-- Every clause and statement absorbs, and so a sequence settles where its calls are. -/
theorem inherited_absorbs : Inherited extended
    (fun _ us _ => Absorbs (Clause calling) (Statement calling) us)
    (fun _ us _ => Absorbs (Statement calling) (Statement calling) us)
    (fun _ us k => k ≠ .lparen → ∃ body, Sequence (Statement calling) body us k) where
  block opens closes inner := by
    obtain ⟨body, calls⟩ := inner (by decide)
    exact .inl fun k => ⟨_, .block opens calls closes⟩
  loop word opens tested closes inner := by
    rcases inner with anywhere | ⟨elsewhere, joined⟩
    · refine .inl fun k => ?_
      obtain ⟨body, inner⟩ := anywhere k
      exact ⟨_, .loop word opens tested closes inner⟩
    · refine .inr ⟨fun k other => ?_, fun s vs k whole first => ?_⟩
      · obtain ⟨body, inner⟩ := elsewhere k other
        exact ⟨_, .loop word opens tested closes inner⟩
      · obtain ⟨body, inner⟩ := joined s vs k whole first
        have clause : Clause calling _ _ k := .loop word opens tested closes inner
        simp only [List.cons_append, List.append_assoc]
        exact ⟨_, .bare clause trivial⟩
  ret word returned _ :=
    returned.absorbs (.ret _) [_] fun _ _ _ value other => .ret word value other
  eval value _ := value.absorbs .eval [] fun _ _ _ value other => .eval value other
  ended closing inner := by
    cases closing with
    | none stop =>
      rw [List.append_nil]
      rcases inner with anywhere | ⟨elsewhere, joined⟩
      · refine .inl fun k => ?_
        obtain ⟨s', clause⟩ := anywhere k
        exact ⟨s', .bare clause trivial⟩
      · refine .inr ⟨fun k other => ?_, joined⟩
        obtain ⟨s', clause⟩ := elsewhere k other
        exact ⟨s', .bare clause trivial⟩
    | semicolon kind =>
      refine .inl fun k => ?_
      have other : Token.Kind.semicolon ≠ .lparen := by decide
      obtain ⟨s', clause⟩ := inner.before other
      exact ⟨s', .closed clause kind⟩
  nil k := fun _ => ⟨[], .nil k⟩
  cons _ first rest := fun other => by
    obtain ⟨body, calls⟩ := rest other
    exact Sequence.absorb (fun s _ _ whole _ => ⟨s, whole⟩) first calls other

theorem Entry.absorbs {i : Item} {us : List Token} {k : Token.Kind}
    (entry : Entry extended i us k) : Absorbs (Entry calling) (Entry calling) us := by
  have retold {ws : List Token} (closing : Closing extended ws k) (k' : Token.Kind) :
      Closing calling ws k' := by
    cases closing with
    | none => exact .none trivial
    | semicolon kind => exact .semicolon kind
  cases entry with
  | prototype heading assigns named closing =>
    exact .inl fun k' => ⟨_, .prototype heading assigns named (retold closing k')⟩
  | @definition d _ _ _ _ heading body closing =>
    obtain ⟨header, brace, block⟩ := d
    cases body with
    | @block l _ _ _ _ opens inner closes =>
      obtain ⟨block', calls⟩ := inherited_absorbs.of_sequence inner (by decide)
      refine .inl fun k' => ⟨.definition ⟨header, l.start, block'⟩, ?_⟩
      exact .definition heading (.block opens calls closes) (retold closing k')
  | stmt whole =>
    rcases inherited_absorbs.of_statement whole with anywhere | ⟨elsewhere, joined⟩
    · refine .inl fun k' => ?_
      obtain ⟨s', whole⟩ := anywhere k'
      exact ⟨_, .stmt whole⟩
    · refine .inr ⟨fun k' other => ?_, fun s vs k' after first => ?_⟩
      · obtain ⟨s', whole⟩ := elsewhere k' other
        exact ⟨_, .stmt whole⟩
      · obtain ⟨s', whole⟩ := joined s vs k' after first
        exact ⟨_, .stmt whole⟩

theorem Entry.isStatement {i : Item} {us : List Token} {k : Token.Kind}
    (entry : Entry calling i us k) (first : firstKind us k = .lparen) :
    ∃ s, Statement calling s us k := by
  cases entry with
  | prototype heading =>
    rw [firstKind_append, heading.starts] at first
    cases first
  | definition heading =>
    rw [firstKind_append, heading.starts] at first
    cases first
  | stmt whole => exact ⟨_, whole⟩

theorem Entry.sequence_calls {items : List Item} {us : List Token} {k : Token.Kind}
    (derived : Sequence (Entry extended) items us k) (other : k ≠ .lparen) :
    ∃ items', Sequence (Entry calling) items' us k := by
  induction derived with
  | nil k => exact ⟨[], .nil k⟩
  | cons first more ih =>
    obtain ⟨rest, calls⟩ := ih other
    exact Sequence.absorb (fun _ _ _ => Entry.isStatement) first.absorbs calls other

theorem ne_semicolon {k : Token.Kind} (next : k.followsItem = true) : k ≠ .semicolon := by
  rintro rfl
  cases next

/-- With up to `room` semicolons more, the statement is derived greedily. -/
def Settles (s : Stmt) (us : List Token) (k : Token.Kind) (room : Nat) : Prop :=
  ∀ ws k', (∀ t ∈ ws, t.kind = .semicolon) → ws.length ≤ room →
    (ws = [] → k' = k ∨ k' = .semicolon) → (ws.length < room → k' ≠ .semicolon) →
      Statement greedy s (us ++ ws) k'

theorem Settles.whole {s : Stmt} {us : List Token} {k : Token.Kind} {room : Nat}
    (settles : Settles s us k room) (next : k.followsItem = true) : Statement greedy s us k := by
  have whole := settles [] k nofun (Nat.zero_le _) (fun _ => .inl rfl)
    (fun _ => ne_semicolon next)
  rwa [List.append_nil] at whole

theorem ne_lparen {k k' : Token.Kind} (stop : k ≠ .lparen) (next : k' = k ∨ k' = .semicolon) :
    k' ≠ .lparen := by
  rcases next with rfl | rfl
  · exact stop
  · decide

theorem Clause.settles {s : Stmt} {us : List Token} {k : Token.Kind}
    (clause : ∀ k', k' = k ∨ k' = .semicolon → Clause greedy s us k') : Settles s us k 1 := by
  intro ws k' semicolons fits next stop
  match ws, fits with
  | [], _ =>
    rw [List.append_nil]
    exact .bare (clause k' (next rfl)) (stop (by decide))
  | [t], _ => exact .closed (clause .semicolon (.inr rfl)) (semicolons t List.mem_cons_self)

theorem Clause.settles_loop {w l r : Token} {condition : Expr} {body : Stmt}
    {us vs : List Token} {k : Token.Kind} {room : Nat} (word : w.kind = .whileWord)
    (opens : l.kind = .lparen) (tested : Sum True condition us) (closes : r.kind = .rparen)
    (inner : Settles body vs k room) :
    Settles (.loop w.start condition body) (w :: l :: (us ++ r :: vs)) k (room + 1) := by
  intro ws k' semicolons fits next stop
  by_cases enough : ws.length ≤ room
  · have clause : Clause greedy _ _ k' := .loop word opens tested closes
      (inner ws k' semicolons enough next fun less => stop (by omega))
    simp only [List.cons_append, List.append_assoc]
    exact .bare clause (stop (by omega))
  · -- the body takes all but the last
    rcases List.eq_nil_or_concat ws with rfl | ⟨front, t, split⟩
    · exact absurd (Nat.zero_le room) enough
    rw [List.concat_eq_append] at split
    subst split
    rw [List.length_append, List.length_singleton] at fits enough
    have clause : Clause greedy _ _ .semicolon := .loop word opens tested closes
      (inner front .semicolon (fun u member => semicolons u (List.mem_append_left _ member))
        (by omega) (fun _ => .inr rfl) (fun less => by omega))
    have kind := semicolons t (List.mem_append_right _ List.mem_cons_self)
    have whole := Statement.closed (k := k') clause kind
    simpa only [List.cons_append, List.append_assoc] using whole

theorem inherited_settles : Inherited calling
    (fun s us k => ∃ room, Settles s us k (room + 1)) (fun s us k => ∃ room, Settles s us k room)
    (fun ss us k => k.followsItem = true → Sequence (Statement greedy) ss us k) where
  block opens closes inner :=
    have body := inner rfl
    ⟨0, Clause.settles fun _ _ => .block opens body closes⟩
  loop word opens tested closes inner := by
    obtain ⟨room, settles⟩ := inner
    exact ⟨room, Clause.settles_loop word opens tested closes settles⟩
  ret word returned stop :=
    ⟨0, Clause.settles fun _ next => .ret word returned (ne_lparen stop next)⟩
  eval value stop := ⟨0, Clause.settles fun _ next => .eval value (ne_lparen stop next)⟩
  ended closing inner := by
    obtain ⟨room, settles⟩ := inner
    cases closing with
    | none stop =>
      rw [List.append_nil]
      exact ⟨room + 1, settles⟩
    | semicolon kind =>
      refine ⟨room, fun ws k' semicolons fits _ stop => ?_⟩
      rw [List.append_assoc]
      exact settles (_ :: ws) k' (List.forall_mem_cons.mpr ⟨kind, semicolons⟩)
        (Nat.succ_le_succ fits) nofun fun less => stop (Nat.lt_of_succ_lt_succ less)
  nil k := fun _ => .nil k
  cons more first rest := fun after => by
    obtain ⟨room, settles⟩ := first
    have next := more.follows (fun _ _ _ next whole => startsItem_of_statement (whole.starts next))
      after
    exact .cons (settles.whole next) (rest after)

theorem Entry.settled {i : Item} {us : List Token} {k : Token.Kind} (entry : Entry calling i us k)
    (next : k.followsItem = true) : Entry greedy i us k := by
  have kept {ws : List Token} (closing : Closing calling ws k) : Closing greedy ws k := by
    cases closing with
    | none => exact .none (ne_semicolon next)
    | semicolon kind => exact .semicolon kind
  cases entry with
  | prototype heading assigns named closing =>
    exact .prototype heading assigns named (kept closing)
  | @definition d _ _ _ _ heading body closing =>
    obtain ⟨header, brace, block⟩ := d
    cases body with
    | block opens inner closes =>
      have body := inherited_settles.of_sequence inner rfl
      exact .definition heading (.block opens body closes) (kept closing)
  | stmt whole =>
    obtain ⟨room, settles⟩ := inherited_settles.of_statement whole
    exact .stmt (settles.whole next)

theorem Entry.sequence_settled {items : List Item} {us : List Token} {k : Token.Kind}
    (derived : Sequence (Entry calling) items us k) (after : k.followsItem = true) :
    Sequence (Entry greedy) items us k := by
  induction derived with
  | nil k => exact .nil k
  | cons first more ih =>
    have next := more.follows (fun _ _ _ next entry => entry.starts next) after
    exact .cons (first.settled next) (ih after)

theorem Closing.relaxed {us : List Token} {k : Token.Kind} :
    Closing greedy us k → Closing extended us k
  | .none _ => .none trivial
  | .semicolon kind => .semicolon kind

theorem inherited_relaxed :
    Inherited greedy (Clause extended) (Statement extended) (Sequence (Statement extended)) where
  block opens closes inner := .block opens inner closes
  loop word opens tested closes inner := .loop word opens tested closes inner
  ret word returned _ := .ret word returned trivial
  eval value _ := .eval value trivial
  ended closing inner := .ended inner closing.relaxed
  nil := .nil
  cons _ first rest := .cons first rest

theorem Entry.relaxed {i : Item} {us : List Token} {k : Token.Kind} :
    Entry greedy i us k → Entry extended i us k
  | .prototype heading assigns named closing => .prototype heading assigns named closing.relaxed
  | .definition heading body closing => .definition heading (inherited_relaxed.of_clause body) closing.relaxed
  | .stmt whole => .stmt (inherited_relaxed.of_statement whole)

theorem Entry.sequence_relaxed {items : List Item} {us : List Token} {k : Token.Kind}
    (derived : Sequence (Entry greedy) items us k) : Sequence (Entry extended) items us k := by
  induction derived with
  | nil k => exact .nil k
  | cons first more ih => exact .cons first.relaxed ih

/-- What is derived greedily is derived, with the same tree. -/
theorem Derives.relaxed {p : Program} {ts : List Token} (derived : greedy.Derives p ts) :
    extended.Derives p ts := Entry.sequence_relaxed derived

theorem Derives.settled {p : Program} {ts : List Token} (derived : extended.Derives p ts) :
    ∃ p', greedy.Derives p' ts := by
  obtain ⟨items, calls⟩ := Entry.sequence_calls derived (by decide)
  exact ⟨⟨items⟩, Entry.sequence_settled calls rfl⟩

end Grammar

end Tally
