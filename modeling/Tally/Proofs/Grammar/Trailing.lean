import Tally.Proofs.Grammar.Exact

namespace Tally

namespace Grammar

/-- The tokens without the commas right before a closing parenthesis; `next` comes behind them. -/
def withoutTrailing : List Token → Token.Kind → List Token
  | [], _ => []
  | t :: ts, next =>
    if t.kind = .comma ∧ firstKind ts next = .rparen then withoutTrailing ts next
    else t :: withoutTrailing ts next

def TrailingComma (ts : List Token) : Prop :=
  ∃ before comma closing after, ts = before ++ comma :: closing :: after ∧
    comma.kind = .comma ∧ closing.kind = .rparen

theorem withoutTrailing_append (us vs : List Token) (next : Token.Kind) :
    withoutTrailing (us ++ vs) next =
      withoutTrailing us (firstKind vs next) ++ withoutTrailing vs next := by
  induction us with
  | nil => rfl
  | cons t us ih =>
    rw [List.cons_append, withoutTrailing, withoutTrailing, firstKind_append, ih]
    split <;> rfl

theorem withoutTrailing_cons {t : Token} (other : t.kind ≠ .comma) (ts : List Token)
    (next : Token.Kind) : withoutTrailing (t :: ts) next = t :: withoutTrailing ts next :=
  if_neg fun trailing => other trailing.1

theorem length_withoutTrailing (ts : List Token) (next : Token.Kind) :
    (withoutTrailing ts next).length ≤ ts.length := by
  induction ts with
  | nil => exact Nat.le_refl _
  | cons t ts ih =>
    rw [withoutTrailing]
    split
    · exact Nat.le_succ_of_le ih
    · exact Nat.succ_le_succ ih

theorem trailingComma_cons {t : Token} {ts : List Token} : TrailingComma (t :: ts) ↔
    (t.kind = .comma ∧ firstKind ts .eof = .rparen) ∨ TrailingComma ts := by
  constructor
  · rintro ⟨before, comma, closing, after, split, isComma, closes⟩
    cases before with
    | nil =>
      cases split
      exact .inl ⟨isComma, closes⟩
    | cons u before =>
      cases split
      exact .inr ⟨before, comma, closing, after, rfl, isComma, closes⟩
  · rintro (⟨isComma, closes⟩ | ⟨before, comma, closing, after, rfl, isComma, closes⟩)
    · cases ts with
      | nil => cases closes
      | cons r ts => exact ⟨[], t, r, ts, rfl, isComma, closes⟩
    · exact ⟨t :: before, comma, closing, after, rfl, isComma, closes⟩

theorem withoutTrailing_eq_self_iff (ts : List Token) :
    withoutTrailing ts .eof = ts ↔ ¬ TrailingComma ts := by
  induction ts with
  | nil =>
    refine iff_of_true rfl ?_
    rintro ⟨before, comma, closing, after, split, _⟩
    cases before <;> cases split
  | cons t ts ih =>
    rw [withoutTrailing, trailingComma_cons]
    by_cases trailing : t.kind = .comma ∧ firstKind ts .eof = .rparen
    · rw [if_pos trailing]
      refine iff_of_false (fun same => ?_) (fun none => none (.inl trailing))
      have shorter := length_withoutTrailing ts .eof
      rw [same] at shorter
      exact absurd shorter (Nat.not_succ_le_self _)
    · rw [if_neg trailing]
      simp [trailing, ih]

/-- Without trailing commas the tokens derive what they shall, whatever comes behind them; and if
no comma may be trailing, none is left out. -/
def Tidies (trailing : Prop) (derived : List Token → Prop) (us : List Token) : Prop :=
  ∀ next, derived (withoutTrailing us next) ∧ (¬ trailing → withoutTrailing us next = us)

theorem CommaList.tidied {α : Type} {trailing : Prop} {one : α → List Token → Prop} {as : List α}
    {us : List Token} (list : CommaList trailing (fun a us =>
      (∀ next, firstKind us next ≠ .rparen) ∧ Tidies trailing (one a) us) as us) :
    CommaList False one as (withoutTrailing us .rparen) ∧
      (¬ trailing → withoutTrailing us .rparen = us) := by
  induction list with
  | nil => exact ⟨.nil, fun _ => rfl⟩
  | last item =>
    obtain ⟨tidy, same⟩ := item.2 .rparen
    exact ⟨.last tidy, same⟩
  | @cons a as us vs t item comma more ends ih =>
    obtain ⟨tidy, same⟩ := item.2 .comma
    rw [withoutTrailing_append, firstKind_cons, comma, withoutTrailing]
    -- The comma is trailing if nothing more is listed; an item begins with no closing parenthesis.
    cases more with
    | nil =>
      rw [if_pos ⟨comma, rfl⟩, withoutTrailing, List.append_nil]
      exact ⟨.last tidy, fun strict => absurd (ends rfl) strict⟩
    | last second =>
      rw [if_neg fun closes => second.1 _ closes.2]
      exact ⟨.cons tidy comma ih.1 nofun, fun strict => by rw [same strict, ih.2 strict]⟩
    | cons second _ _ _ =>
      rw [firstKind_append, if_neg fun closes => second.1 _ closes.2]
      exact ⟨.cons tidy comma ih.1 nofun, fun strict => by rw [same strict, ih.2 strict]⟩

variable {trailing : Prop} {g : Grammar}

theorem ne_rparen_of_starts {kind : Token.Kind} (starts : kind.startsOperand = true) :
    kind ≠ .rparen := by
  rintro rfl
  cases starts

mutual

theorem Operand.tidied {e : Expr} {us : List Token} :
    Operand trailing e us → Tidies trailing (Operand False e) us
  | .ident kind, next => by
    rw [withoutTrailing_cons (by rw [kind]; decide)]
    exact ⟨.ident kind, fun _ => rfl⟩
  | .int kind, next => by
    rw [withoutTrailing_cons (by rw [kind]; decide)]
    exact ⟨.int kind, fun _ => rfl⟩
  | .group opens inner closes, next => by
    obtain ⟨tidy, same⟩ := inner.tidied .rparen
    rw [withoutTrailing_cons (by rw [opens]; decide), withoutTrailing_append, firstKind_cons,
      closes, withoutTrailing_cons (by rw [closes]; decide)]
    exact ⟨.group opens tidy closes, fun strict => by rw [same strict]; rfl⟩
  | .call called opens list closes, next => by
    obtain ⟨tidy, same⟩ := called.tidied .lparen
    obtain ⟨tidy', same'⟩ := (arguments_tidied list).tidied
    rw [withoutTrailing_append, firstKind_cons, opens, withoutTrailing_cons (by rw [opens]; decide),
      withoutTrailing_append, firstKind_cons, closes, withoutTrailing_cons (by rw [closes]; decide)]
    refine ⟨.call tidy opens tidy' closes, fun strict => ?_⟩
    rw [same strict, same' strict]
    rfl

theorem Sum.tidied {e : Expr} {us : List Token} :
    Sum trailing e us → Tidies trailing (Sum False e) us
  | .operand only, next => by
    obtain ⟨tidy, same⟩ := only.tidied next
    exact ⟨.operand tidy, same⟩
  | .add first plus last, next => by
    obtain ⟨tidy, same⟩ := first.tidied .plus
    obtain ⟨tidy', same'⟩ := last.tidied next
    rw [withoutTrailing_append, firstKind_cons, plus, withoutTrailing_cons (by rw [plus]; decide)]
    refine ⟨.add tidy plus tidy', fun strict => ?_⟩
    rw [same strict, same' strict]

theorem arguments_tidied {es : List Expr} {us : List Token} :
    CommaList trailing (Sum trailing) es us → CommaList trailing (fun e us =>
      (∀ next, firstKind us next ≠ .rparen) ∧ Tidies trailing (Sum False e) us) es us
  | .nil => .nil
  | .last item => .last ⟨fun next => ne_rparen_of_starts (item.starts next), item.tidied⟩
  | .cons item comma more ends =>
    .cons ⟨fun next => ne_rparen_of_starts (item.starts next), item.tidied⟩ comma
      (arguments_tidied more) ends

end

theorem Tidies.append {derived derived' whole : List Token → Prop} {us vs : List Token}
    (first : Tidies trailing derived us) (second : Tidies trailing derived' vs)
    (together : ∀ us vs, derived us → derived' vs → whole (us ++ vs)) :
    Tidies trailing whole (us ++ vs) := by
  intro next
  obtain ⟨tidy, same⟩ := first (firstKind vs next)
  obtain ⟨tidy', same'⟩ := second next
  rw [withoutTrailing_append]
  exact ⟨together _ _ tidy tidy', fun strict => by rw [same strict, same' strict]⟩

theorem Tidies.cons {derived whole : List Token → Prop} {t : Token} {us : List Token}
    (other : t.kind ≠ .comma) (rest : Tidies trailing derived us)
    (together : ∀ us, derived us → whole (t :: us)) : Tidies trailing whole (t :: us) := by
  intro next
  obtain ⟨tidy, same⟩ := rest next
  rw [withoutTrailing_cons other]
  exact ⟨together _ tidy, fun strict => by rw [same strict]⟩

theorem Closing.tidied {us : List Token} {k : Token.Kind} (closing : Closing g us k) :
    Tidies g.trailing (fun vs => ∀ k', Closing documented vs k') us := by
  intro next
  cases closing with
  | none => exact ⟨fun _ => .none trivial, fun _ => rfl⟩
  | semicolon kind =>
    rw [withoutTrailing_cons (by rw [kind]; decide)]
    exact ⟨fun _ => .semicolon kind, fun _ => rfl⟩

theorem tidies_nil {derived : List Token → Prop} (empty : derived []) :
    Tidies trailing derived [] := fun _ => ⟨empty, fun _ => rfl⟩

theorem inherited_tidied : Inherited g
    (fun s us _ => Tidies g.trailing (fun vs => ∀ k, Clause documented s vs k) us)
    (fun s us _ => Tidies g.trailing (fun vs => ∀ k, Statement documented s vs k) us)
    (fun ss us _ => Tidies g.trailing (fun vs => ∀ k, Sequence (Statement documented) ss vs k) us)
    where
  block {l r body us k} opens closes inner := by
    have ended : Tidies g.trailing (fun vs => vs = []) [] := tidies_nil rfl
    have closed : Tidies g.trailing (fun vs => vs = [r]) [r] :=
      .cons (by rw [closes]; decide) ended fun _ none => congrArg _ none
    refine .cons (by rw [opens]; decide) (inner.append closed fun us vs tidy last => ?_) fun _ => id
    subst last
    exact fun k => .block opens (tidy _) closes
  loop {w l r condition body us vs k} word opens tested closes inner := by
    have behind : Tidies g.trailing
        (fun ws => ∃ vs, ws = r :: vs ∧ ∀ k, Statement documented body vs k) (r :: vs) :=
      .cons (by rw [closes]; decide) inner fun us tidy => ⟨us, rfl, tidy⟩
    refine .cons (by rw [word]; decide) (.cons (by rw [opens]; decide)
      (tested.tidied.append behind ?_) fun _ => id) fun _ => id
    rintro us ws tidy ⟨vs, rfl, repeated⟩ k
    exact .loop word opens tidy closes (repeated k)
  ret word returned _ :=
    .cons (by rw [word]; decide) returned.tidied fun _ tidy k => .ret word tidy trivial
  eval value _ := fun next => ⟨fun _ => .eval (value.tidied next).1 trivial, (value.tidied next).2⟩
  ended closing inner := inner.append closing.tidied fun _ _ tidy last k => .ended (tidy _) (last k)
  nil _ := tidies_nil fun k => .nil k
  cons _ first rest := first.append rest fun _ _ tidy more k => .cons (tidy _) (more k)

theorem Parameter.tidied {p : Param} {us : List Token} (derived : Parameter p us) :
    (∀ next, firstKind us next ≠ .rparen) ∧ Tidies trailing (Parameter p) us := by
  cases derived with
  | typed named colons types =>
    refine ⟨fun next => by rw [firstKind_cons, named]; decide, fun next => ?_⟩
    rw [withoutTrailing_cons (by rw [named]; decide), withoutTrailing_cons (by rw [colons]; decide),
      withoutTrailing_cons (by rw [types]; decide)]
    exact ⟨.typed named colons types, fun _ => rfl⟩

theorem parameters_tidied {ps : List Param} {us : List Token}
    (list : CommaList trailing Parameter ps us) :
    CommaList False Parameter ps (withoutTrailing us .rparen) ∧
      (¬ trailing → withoutTrailing us .rparen = us) := by
  have items : CommaList trailing (fun p us =>
      (∀ next, firstKind us next ≠ .rparen) ∧ Tidies trailing (Parameter p) us) ps us := by
    induction list with
    | nil => exact .nil
    | last item => exact .last item.tidied
    | cons item comma _ ends ih => exact .cons item.tidied comma ih ends
  exact items.tidied

theorem Heading.tidied {h : Header} {us : List Token} (heading : Heading trailing h us) :
    Tidies trailing (Heading False h) us := by
  cases heading with
  | @typed w name l r colon type params us word named opens list closes colons types =>
    intro next
    obtain ⟨tidy, same⟩ := parameters_tidied list
    rw [withoutTrailing_cons (by rw [word]; decide), withoutTrailing_cons (by rw [named]; decide),
      withoutTrailing_cons (by rw [opens]; decide), withoutTrailing_append, firstKind_cons, closes,
      withoutTrailing_cons (by rw [closes]; decide), withoutTrailing_cons (by rw [colons]; decide),
      withoutTrailing_cons (by rw [types]; decide)]
    exact ⟨.typed word named opens tidy closes colons types, fun strict => by rw [same strict]; rfl⟩

theorem Entry.tidied {i : Item} {us : List Token} {k : Token.Kind} (entry : Entry g i us k) :
    Tidies g.trailing (fun vs => ∀ k, Entry documented i vs k) us := by
  cases entry with
  | @prototype h assign primitive us ws _ heading assigns named closing =>
    have closed : Tidies g.trailing
        (fun vs => ∃ ws, vs = primitive :: ws ∧ ∀ k, Closing documented ws k) (primitive :: ws) :=
      .cons (by rw [named]; decide) closing.tidied fun ws tidy => ⟨ws, rfl, tidy⟩
    have value : Tidies g.trailing
        (fun vs => ∃ ws, vs = assign :: primitive :: ws ∧ ∀ k, Closing documented ws k)
        (assign :: primitive :: ws) := by
      refine .cons (by rw [assigns]; decide) closed ?_
      rintro _ ⟨ws, rfl, last⟩
      exact ⟨ws, rfl, last⟩
    refine heading.tidied.append value ?_
    rintro us _ tidy ⟨ws, rfl, last⟩ k
    exact .prototype tidy assigns named (last k)
  | @definition d us vs ws _ heading body closing =>
    have clause := inherited_tidied.of_clause body
    have whole : Tidies g.trailing (fun xs => ∃ vs ws, xs = vs ++ ws ∧
        (∀ k, Clause documented d.block vs k) ∧ ∀ k, Closing documented ws k) (vs ++ ws) :=
      clause.append closing.tidied fun vs ws tidy last => ⟨vs, ws, rfl, tidy, last⟩
    refine heading.tidied.append whole ?_
    rintro us _ tidy ⟨vs, ws, rfl, inner, last⟩ k
    exact .definition tidy (inner _) (last k)
  | stmt whole =>
    intro next
    obtain ⟨tidy, same⟩ := inherited_tidied.of_statement whole next
    exact ⟨fun k => .stmt (tidy k), same⟩

theorem Entry.sequence_tidied {items : List Item} {us : List Token} {k : Token.Kind}
    (derived : Sequence (Entry g) items us k) :
    Tidies g.trailing (fun vs => ∀ k, Sequence (Entry documented) items vs k) us := by
  induction derived with
  | nil => exact tidies_nil fun k => .nil k
  | cons first _ ih =>
    exact first.tidied.append ih fun _ _ tidy more k => .cons (tidy _) (more k)

/-- Without trailing commas, what a grammar derives is derived as documented, with the same tree. -/
theorem Derives.tidied {p : Program} {ts : List Token} (derived : g.Derives p ts) :
    documented.Derives p (withoutTrailing ts .eof) ∧
      (¬ g.trailing → withoutTrailing ts .eof = ts) := by
  obtain ⟨tidy, same⟩ := Entry.sequence_tidied derived .eof
  exact ⟨tidy .eof, same⟩

theorem Derives.no_trailingComma {p : Program} {ts : List Token}
    (derived : documented.Derives p ts) : ¬ TrailingComma ts :=
  (withoutTrailing_eq_self_iff ts).mp (derived.tidied.2 id)

end Grammar

namespace Program

/-- The tokens of a text that is read derive its tree as documented, once trailing commas are left
out; they derive one as they stand exactly if there are no trailing commas. -/
theorem documented_of_parse {text : String} {p : Program} (read : parse text = .ok p) :
    ∃ ts ending, tokenize text = .ok (ts ++ [⟨.eof, "", ending⟩]) ∧
      Grammar.documented.Derives p (Grammar.withoutTrailing ts .eof) ∧
      ((∃ p', Grammar.documented.Derives p' ts) ↔ ¬ Grammar.TrailingComma ts) := by
  obtain ⟨ts, ending, lexed, derived⟩ := exists_derivation read
  have tidy := derived.tidied.1
  refine ⟨ts, ending, lexed, tidy, fun ⟨p', whole⟩ => whole.no_trailingComma, fun none => ?_⟩
  rw [(Grammar.withoutTrailing_eq_self_iff ts).mpr none] at tidy
  exact ⟨p, tidy⟩

theorem exists_of_accepted (text : String) (accepted : (parse text).isOk = true) :
    ∃ p, parse text = .ok p := by
  cases read : parse text with
  | ok p => exact ⟨p, rfl⟩
  | error r =>
    rw [read] at accepted
    cases accepted

theorem documented_of_parse_sample : ∃ p, parse "func f(a: int,): int \x7b return f(a,) \x7d" = .ok p ∧
    ∃ ts ending, tokenize "func f(a: int,): int \x7b return f(a,) \x7d" =
        .ok (ts ++ [⟨.eof, "", ending⟩]) ∧
      Grammar.documented.Derives p (Grammar.withoutTrailing ts .eof) ∧
      ((∃ p', Grammar.documented.Derives p' ts) ↔ ¬ Grammar.TrailingComma ts) := by
  obtain ⟨p, read⟩ := exists_of_accepted "func f(a: int,): int \x7b return f(a,) \x7d"
    (by decide +kernel)
  exact ⟨p, read, documented_of_parse read⟩

/-- A comma may end a list, of arguments as of parameters, though none is documented there. -/
theorem parse_takes_trailingComma :
    (∃ p ts, parse "f(1,)" = .ok p ∧ tokenize "f(1,)" = .ok (ts ++ [⟨.eof, "", ⟨5, 0, 5⟩⟩]) ∧
      ¬ ∃ p', Grammar.documented.Derives p' ts) ∧
    ∃ p ts, parse "func f(a: int,): int \x7b\x7d" = .ok p ∧
      tokenize "func f(a: int,): int \x7b\x7d" = .ok (ts ++ [⟨.eof, "", ⟨23, 0, 23⟩⟩]) ∧
      ¬ ∃ p', Grammar.documented.Derives p' ts := by
  constructor
  · obtain ⟨p, read⟩ := exists_of_accepted "f(1,)" (by decide +kernel)
    have lexed : tokenize "f(1,)" = .ok ([⟨.ident, "f", ⟨0, 0, 0⟩⟩, ⟨.lparen, "(", ⟨1, 0, 1⟩⟩,
        ⟨.int, "1", ⟨2, 0, 2⟩⟩, ⟨.comma, ",", ⟨3, 0, 3⟩⟩, ⟨.rparen, ")", ⟨4, 0, 4⟩⟩] ++
        [⟨.eof, "", ⟨5, 0, 5⟩⟩]) := by
      decide +kernel
    refine ⟨p, _, read, lexed, fun ⟨p', derived⟩ => derived.no_trailingComma ?_⟩
    exact ⟨[_, _, _], _, _, [], rfl, rfl, rfl⟩
  · obtain ⟨p, read⟩ := exists_of_accepted "func f(a: int,): int \x7b\x7d" (by decide +kernel)
    have lexed : tokenize "func f(a: int,): int \x7b\x7d" = .ok ([⟨.funcWord, "func", ⟨0, 0, 0⟩⟩,
        ⟨.ident, "f", ⟨5, 0, 5⟩⟩, ⟨.lparen, "(", ⟨6, 0, 6⟩⟩, ⟨.ident, "a", ⟨7, 0, 7⟩⟩,
        ⟨.colon, ":", ⟨8, 0, 8⟩⟩, ⟨.ident, "int", ⟨10, 0, 10⟩⟩, ⟨.comma, ",", ⟨13, 0, 13⟩⟩,
        ⟨.rparen, ")", ⟨14, 0, 14⟩⟩, ⟨.colon, ":", ⟨15, 0, 15⟩⟩, ⟨.ident, "int", ⟨17, 0, 17⟩⟩,
        ⟨.lbrace, "\x7b", ⟨21, 0, 21⟩⟩, ⟨.rbrace, "\x7d", ⟨22, 0, 22⟩⟩] ++
        [⟨.eof, "", ⟨23, 0, 23⟩⟩]) := by
      decide +kernel
    refine ⟨p, _, read, lexed, fun ⟨p', derived⟩ => derived.no_trailingComma ?_⟩
    exact ⟨[_, _, _, _, _, _], _, _, [_, _, _, _], rfl, rfl, rfl⟩

end Program

end Tally
