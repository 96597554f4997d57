import Tally.Program.Joined
import Tally.Program.Levels
import Tally.Program.Placeless
import Tally.Program.Text
import Tally.Proofs.Grammar.Spelt
import Tally.Proofs.Token.Written

namespace Tally

open Grammar

section

variable {sep first next : String} {others : List String}

theorem toList_intercalate_cons : (sep.intercalate (first :: next :: others)).toList =
    first.toList ++ (sep.toList ++ (sep.intercalate (next :: others)).toList) := by
  simp [String.toList_intercalate, List.intercalate]

theorem toList_intercalate_ne_nil (some : first.toList ≠ []) :
    (sep.intercalate (first :: others)).toList ≠ [] := by
  cases others with
  | nil => simpa [String.toList_intercalate] using some
  | cons next others =>
    rw [toList_intercalate_cons]
    exact List.append_ne_nil_of_left_ne_nil some _

end

theorem Written.commas {α : Type} {text : α → String} {key : α → α}
    {one : α → List Token → Prop} (nonempty : ∀ a, ¬ one a []) {as : List α}
    (all : ∀ a ∈ as, Written (text a).toList fun ts => ∃ a', key a' = key a ∧ one a' ts) :
    Written (commaSeparated (as.map text)).toList
      fun ts => ∃ as', as'.map key = as.map key ∧ CommaList True one as' ts := by
  induction as with
  | nil => exact .nil ⟨[], rfl, .nil⟩
  | cons a as ih =>
    obtain ⟨here, rest⟩ := List.forall_mem_cons.mp all
    cases as with
    | nil =>
      have only : (commaSeparated [text a]).toList = (text a).toList := by
        simp [commaSeparated]
      rw [List.map_singleton, only]
      exact here.imp fun ts ⟨a', same, item⟩ => ⟨[a'], by simp [same], .last item⟩
    | cons b as =>
      have next : (text b).toList ≠ [] := (rest b List.mem_cons_self).ne_nil
        fun ⟨b', _, item⟩ => nonempty b' item
      have split : (commaSeparated ((a :: b :: as).map text)).toList =
          (text a).toList ++ ',' :: ' ' :: (commaSeparated ((b :: as).map text)).toList :=
        toList_intercalate_cons
      rw [split]
      refine here.append (.cons rfl) fun us ⟨a', same, item⟩ => ?_
      refine .sign rfl fun t comma => .blank ?_ (toList_intercalate_ne_nil next)
      refine (ih rest).imp fun vs ⟨as', same', list⟩ => ?_
      exact ⟨a' :: as', by rw [List.map_cons, same, same']; rfl,
        .cons item comma list fun _ => trivial⟩

/-- Tokens that derive an expression again, but for its places. -/
def Expr.Restored (e : Expr) (ts : List Token) : Prop :=
  ∃ e', e'.placeless = e.placeless ∧ Grammar.Operand True e' ts

theorem Expr.Restored.ne_nil {e : Expr} : ¬ e.Restored [] := by
  rintro ⟨e', _, operand⟩
  have start := operand.starts .eof
  cases start

theorem Expr.texts_eq (es : List Expr) : Expr.texts es = es.map Expr.text := by
  induction es with
  | nil => rfl
  | cons e es ih => exact congrArg (e.text :: ·) ih

theorem Expr.allPlaceless_eq (es : List Expr) : Expr.allPlaceless es = es.map Expr.placeless := by
  induction es with
  | nil => rfl
  | cons e es ih => exact congrArg (e.placeless :: ·) ih

def Expr.Enclosed (e : Expr) (ts : List Token) : Prop :=
  ∃ l us r e', ts = l :: (us ++ [r]) ∧ l.kind = .lparen ∧ r.kind = .rparen ∧
    e'.placeless = e.placeless ∧ Sum True e' us

theorem Expr.Enclosed.restored {e : Expr} {ts : List Token} (enclosed : e.Enclosed ts) :
    e.Restored ts := by
  obtain ⟨l, us, r, e', rfl, opens, closes, same, sum⟩ := enclosed
  exact ⟨e', same, .group opens sum closes⟩

theorem Expr.written_add {left right : Expr} {at_ : Position}
    (front : Written left.text.toList left.Restored)
    (back : Written right.text.toList right.Restored) :
    Written (Expr.add left at_ right).text.toList (Expr.add left at_ right).Enclosed := by
  have split : (Expr.add left at_ right).text.toList =
      '(' :: (left.text.toList ++ ' ' :: '+' :: ' ' :: (right.text.toList ++ [')'])) := by
    simp [Expr.text]
  rw [split]
  refine .sign rfl fun l opens => ?_
  refine front.append (.cons rfl) fun us ⟨left', same, first⟩ => ?_
  refine .blank (.sign rfl fun t plus => .blank ?_ (by simp)) nofun
  refine back.append (.cons rfl) fun vs ⟨right', same', last⟩ => ?_
  refine .sign rfl fun r closes => .nil ?_
  refine ⟨l, us ++ t :: vs, r, .add left' t.start right', ?_, opens, closes, ?_, ?_⟩
  · rw [List.append_assoc]
    rfl
  · rw [Expr.placeless, same, same', Expr.placeless]
  · exact .add (.operand first) plus last

theorem Expr.written_call {callee : Expr} {at_ : Position} {args : List Expr} {cs : List Char}
    (called : Written cs callee.Restored) (all : ∀ e ∈ args, Written e.text.toList e.Restored) :
    Written (cs ++ '(' :: ((commaSeparated (args.map Expr.text)).toList ++ [')']))
      (Expr.call callee at_ args).Restored := by
  refine called.append (.cons rfl) fun us ⟨callee', same, called⟩ => ?_
  refine .sign rfl fun l opens => ?_
  have list : Written (commaSeparated (args.map Expr.text)).toList fun ts =>
      ∃ args', args'.map Expr.placeless = args.map Expr.placeless ∧
        CommaList True (Sum True) args' ts := by
    refine .commas (fun e sum => ?_) fun e member => (all e member).imp ?_
    · cases sum.starts .eof
    · exact fun ts ⟨e', same, operand⟩ => ⟨e', same, .operand operand⟩
  refine list.append (.cons rfl) fun vs ⟨args', same', list⟩ => ?_
  refine .sign rfl fun r closes => .nil ⟨.call callee' l.start args', ?_, ?_⟩
  · rw [Expr.placeless, Expr.placeless, same, Expr.allPlaceless_eq, Expr.allPlaceless_eq, same']
  · exact .call called opens list closes

theorem Expr.toList_text_call (callee : Expr) (at_ : Position) (args : List Expr) :
    (Expr.call callee at_ args).text.toList = callee.text.toList ++
      '(' :: ((commaSeparated (args.map Expr.text)).toList ++ [')']) := by
  simp [Expr.text, Expr.texts_eq]

mutual

theorem Expr.written : (e : Expr) → (∀ m ∈ e.marks, m.Spelt) → Written e.text.toList e.Restored
  | .int digits position, spelt => by
    have here : (Token.mk .int digits position).Spelt := spelt _ List.mem_cons_self
    rw [show (Expr.int digits position).text.toList = digits.toList ++ [] by simp [Expr.text]]
    exact .token ⟨.int, digits, position⟩ here nofun (fun _ => nofun) fun p =>
      .nil ⟨.int digits p, rfl, .int (t := ⟨.int, digits, p⟩) rfl⟩
  | .ident name, spelt => by
    have here : (Token.mk .ident name.text name.position).Spelt := spelt _ List.mem_cons_self
    rw [show (Expr.ident name).text.toList = name.text.toList ++ [] by simp [Expr.text]]
    exact .token ⟨.ident, name.text, name.position⟩ here nofun (fun _ => nofun) fun p =>
      .nil ⟨.ident ⟨name.text, p⟩, rfl, .ident (t := ⟨.ident, name.text, p⟩) rfl⟩
  | .add left at_ right, spelt => by
    obtain ⟨front, back⟩ := List.forall_mem_append.mp spelt
    have sum : Written (Expr.add left at_ right).text.toList _ :=
      Expr.written_add (left.written front) (right.written (List.forall_mem_cons.mp back).2)
    exact sum.imp fun _ => Expr.Enclosed.restored
  | .call callee at_ args, spelt => by
    obtain ⟨front, back⟩ := List.forall_mem_append.mp spelt
    rw [Expr.toList_text_call]
    exact Expr.written_call (callee.written front)
      (Expr.allWritten args (List.forall_mem_cons.mp back).2)

theorem Expr.allWritten : (es : List Expr) → (∀ m ∈ Expr.allMarks es, m.Spelt) →
    ∀ e ∈ es, Written e.text.toList e.Restored
  | [], _ => nofun
  | e :: es, spelt => by
    obtain ⟨front, back⟩ := List.forall_mem_append.mp spelt
    exact List.forall_mem_cons.mpr ⟨e.written front, Expr.allWritten es back⟩

end

/-- Tokens that derive a statement again, but for its places, together with the semicolon behind
them, if there is one. No parenthesis comes behind an expression at its end. -/
def Stmt.Restored (s : Stmt) (ts : List Token) : Prop :=
  ∃ s', s'.placeless = s.placeless ∧ ∀ ws next, Closing greedy ws next →
    (s.endsOpen = true → firstKind ws next ≠ .lparen) → next ≠ .semicolon →
      Statement greedy s' (ts ++ ws) next

def Stmt.BlockRestored (body : List Stmt) (ts : List Token) : Prop :=
  ∃ brace body', Stmt.allPlaceless body' = Stmt.allPlaceless body ∧
    ∀ next, Clause greedy (.block brace body') ts next

theorem Stmt.BlockRestored.restored {at_ : Position} {body : List Stmt} {ts : List Token}
    (restored : BlockRestored body ts) : (Stmt.block at_ body).Restored ts := by
  obtain ⟨brace, body', same, block⟩ := restored
  refine ⟨.block brace body', ?_, fun ws next closing _ _ => .ended (block _) closing⟩
  rw [Stmt.placeless, same, Stmt.placeless]

theorem Stmt.texts_eq (ss : List Stmt) : Stmt.texts ss = ss.map Stmt.text := by
  induction ss with
  | nil => rfl
  | cons s ss ih => exact congrArg (s.text :: ·) ih

theorem Stmt.allPlaceless_eq (ss : List Stmt) : Stmt.allPlaceless ss = ss.map Stmt.placeless := by
  induction ss with
  | nil => rfl
  | cons s ss ih => exact congrArg (s.placeless :: ·) ih

theorem Stmt.Restored.ne_nil {s : Stmt} : ¬ s.Restored [] := by
  rintro ⟨s', _, whole⟩
  have start := (whole [] .eof (.none nofun) (fun _ => nofun) nofun).starts .eof
  cases start

theorem Grammar.Sequence.ne_semicolon {ss : List Stmt} {us : List Token}
    (derived : Sequence (Statement greedy) ss us .rbrace) :
    firstKind us .rbrace ≠ .semicolon := by
  cases derived with
  | nil => exact nofun
  | cons first more =>
    intro semicolon
    rw [firstKind_append] at semicolon
    have start := semicolon ▸ first.starts (firstKind _ .rbrace)
    cases start

theorem Stmt.written_body {s : Stmt} {ss : List Stmt}
    (all : ∀ s' ∈ s :: ss, Written s'.text.toList s'.Restored) :
    Written ("; ".intercalate ((s :: ss).map Stmt.text)).toList fun ts =>
      ∃ ss', ss'.map Stmt.placeless = (s :: ss).map Stmt.placeless ∧
        Sequence (Statement greedy) ss' ts .rbrace := by
  induction ss generalizing s with
  | nil =>
    have only : ("; ".intercalate [s.text]).toList = s.text.toList := by simp
    rw [List.map_singleton, only]
    refine (all s List.mem_cons_self).imp fun ts ⟨s', same, whole⟩ => ⟨[s'], by simp [same], ?_⟩
    have last := Sequence.cons (whole [] .rbrace (.none nofun) (fun _ => nofun) nofun) (.nil .rbrace)
    rwa [List.append_nil, List.append_nil] at last
  | cons next ss ih =>
    obtain ⟨here, rest⟩ := List.forall_mem_cons.mp all
    have more := rest next List.mem_cons_self
    have split : ("; ".intercalate ((s :: next :: ss).map Stmt.text)).toList =
        s.text.toList ++ ';' :: ' ' :: ("; ".intercalate ((next :: ss).map Stmt.text)).toList :=
      toList_intercalate_cons
    rw [split]
    refine here.append (.cons rfl) fun us ⟨s', same, whole⟩ => ?_
    refine .sign rfl fun t semicolon => .blank ?_ (toList_intercalate_ne_nil ?_)
    · refine (ih rest).imp fun vs ⟨ss', same', derived⟩ => ⟨s' :: ss', ?_, ?_⟩
      · rw [List.map_cons, same, same']
        rfl
      · have stop : firstKind [t] (firstKind vs .rbrace) ≠ .lparen := by
          rw [firstKind_cons, semicolon]
          exact nofun
        have first := whole [t] _ (.semicolon semicolon) (fun _ => stop) derived.ne_semicolon
        have both := Sequence.cons first derived
        rwa [List.append_assoc] at both
    · exact more.ne_nil Stmt.Restored.ne_nil

theorem Stmt.written_block {body : List Stmt}
    (all : ∀ s ∈ body, Written s.text.toList s.Restored) :
    Written (inBraces (body.map Stmt.text)).toList (BlockRestored body) := by
  cases body with
  | nil =>
    have split : (inBraces []).toList = ['\x7b', ' ', ' ', '\x7d'] := by decide
    rw [List.map_nil, split]
    refine .sign rfl fun l opens => .blank (.blank (.sign rfl fun r closes => .nil ?_) nofun) nofun
    exact ⟨l.start, [], rfl, fun next => .block opens (.nil .rbrace) closes⟩
  | cons s body =>
    have split : (inBraces ((s :: body).map Stmt.text)).toList =
        '\x7b' :: ' ' :: (("; ".intercalate ((s :: body).map Stmt.text)).toList ++ [' ', '\x7d']) := by
      simp [inBraces]
    rw [split]
    refine .sign rfl fun l opens => .blank ?_ (by simp)
    refine (Stmt.written_body all).append (.cons rfl) fun us ⟨body', same, inner⟩ => ?_
    refine .blank (.sign rfl fun r closes => .nil ?_) nofun
    refine ⟨l.start, body', ?_, fun next => .block opens inner closes⟩
    rw [Stmt.allPlaceless_eq, same, Stmt.allPlaceless_eq]

inductive Stmt.WrittenAs : Stmt → List Char → Prop where
  | block {at_ : Position} {body : List Stmt} {cs : List Char}
    (inner : Written cs (BlockRestored body)) : WrittenAs (.block at_ body) cs
  | loop {at_ : Position} {condition : Expr} {body : Stmt} {cs ds : List Char}
    (tested : Written cs condition.Restored) (repeated : WrittenAs body ds) :
    WrittenAs (.loop at_ condition body)
      ("while".toList ++ ' ' :: '(' :: (cs ++ ')' :: ' ' :: ds))
  | ret {at_ : Position} {value : Expr} {cs : List Char} (returned : Written cs value.Restored) :
    WrittenAs (.ret at_ value) ("return".toList ++ ' ' :: cs)
  | eval {e : Expr} {cs : List Char} (value : Written cs e.Restored) : WrittenAs (.eval e) cs

theorem Stmt.WrittenAs.restored {s : Stmt} {cs : List Char} (written : s.WrittenAs cs) :
    Written cs s.Restored := by
  induction written with
  | block inner => exact inner.imp fun _ => BlockRestored.restored
  | @loop at_ condition body cs ds tested _ ih =>
    refine .token ⟨.whileWord, "while", at_⟩ rfl nofun (fun _ => .cons rfl) fun p => ?_
    refine .blank (.sign rfl fun l opens => ?_) nofun
    refine tested.append (.cons rfl) fun us ⟨condition', same, tested⟩ => ?_
    refine .sign rfl fun r closes => .blank ?_ (ih.ne_nil Stmt.Restored.ne_nil)
    refine ih.imp fun vs ⟨body', same', whole⟩ => ?_
    refine ⟨.loop p condition' body', ?_, fun ws next closing stop bare => ?_⟩
    · rw [Stmt.placeless, same, same', Stmt.placeless]
    · have loop : Clause greedy (.loop p condition' body') _ next :=
        .loop (w := ⟨.whileWord, "while", p⟩) rfl opens (.operand tested) closes
          (whole ws next closing stop bare)
      -- the semicolon is that of the body, so the loop takes none
      have ended : Statement greedy _ _ next := .ended loop (.none bare)
      simpa [List.append_assoc] using ended
  | @ret at_ value cs returned =>
    refine .token ⟨.returnWord, "return", at_⟩ rfl nofun (fun _ => .cons rfl) fun p => ?_
    refine .blank (returned.imp fun us ⟨value', same, operand⟩ => ?_) ?_
    · refine ⟨.ret p value', ?_, fun ws next closing stop _ => ?_⟩
      · rw [Stmt.placeless, same, Stmt.placeless]
      · have ret : Clause greedy (.ret p value') _ (firstKind ws next) :=
          .ret (w := ⟨.returnWord, "return", p⟩) rfl (.operand operand) (stop rfl)
        exact .ended ret closing
    · exact returned.ne_nil Expr.Restored.ne_nil
  | eval value =>
    refine value.imp fun us ⟨e', same, operand⟩ => ⟨.eval e', ?_, ?_⟩
    · rw [Stmt.placeless, same, Stmt.placeless]
    · exact fun ws next closing stop _ => .ended (.eval (.operand operand) (stop rfl)) closing

mutual

theorem Stmt.writtenAs : (s : Stmt) → (∀ m ∈ s.marks, m.Spelt) → s.WrittenAs s.text.toList
  | .block at_ body, spelt => by
    have all := Stmt.allWritten body (List.forall_mem_cons.mp spelt).2
    rw [Stmt.text, Stmt.texts_eq]
    exact .block (Stmt.written_block all)
  | .loop at_ condition body, spelt => by
    have split : (Stmt.loop at_ condition body).text.toList = "while".toList ++ ' ' :: '(' ::
        (condition.text.toList ++ ')' :: ' ' :: body.text.toList) := by
      simp [Stmt.text]
    obtain ⟨front, back⟩ := List.forall_mem_append.mp (List.forall_mem_cons.mp spelt).2
    rw [split]
    exact .loop (condition.written front) (body.writtenAs back)
  | .ret at_ value, spelt => by
    have split : (Stmt.ret at_ value).text.toList =
        "return".toList ++ ' ' :: value.text.toList := by
      simp [Stmt.text]
    rw [split]
    exact .ret (value.written (List.forall_mem_cons.mp spelt).2)
  | .eval e, spelt => .eval (e.written spelt)

theorem Stmt.allWritten : (ss : List Stmt) → (∀ m ∈ Stmt.allMarks ss, m.Spelt) →
    ∀ s ∈ ss, Written s.text.toList s.Restored
  | [], _ => nofun
  | s :: ss, spelt => by
    obtain ⟨front, back⟩ := List.forall_mem_append.mp spelt
    exact List.forall_mem_cons.mpr ⟨(s.writtenAs front).restored, Stmt.allWritten ss back⟩

end

theorem Ident.text_ne_nil {name : Ident} (spelt : name.mark.Spelt) : name.text.toList ≠ [] := by
  have named : (Token.mk .ident name.text name.position).Spelt := spelt
  exact named.lexeme_ne_nil

theorem Param.written {p : Param} (spelt : ∀ m ∈ p.marks, m.Spelt) :
    Written p.text.toList fun ts => ∃ p', p'.placeless = p.placeless ∧ Parameter p' ts := by
  obtain ⟨name, type⟩ := p
  have split : (Param.mk name type).text.toList =
      name.text.toList ++ ':' :: ' ' :: (type.text.toList ++ []) := by
    simp [Param.text]
  obtain ⟨named, typed⟩ := List.forall_mem_cons.mp spelt
  have typed := typed _ List.mem_cons_self
  have some := List.append_ne_nil_of_left_ne_nil (Ident.text_ne_nil typed) []
  rw [split]
  refine .token ⟨.ident, name.text, name.position⟩ named nofun (fun _ => .cons rfl) fun p => ?_
  refine .sign rfl fun colon colons => .blank ?_ some
  refine .token ⟨.ident, type.text, type.position⟩ typed nofun (fun _ => nofun) fun q => .nil ?_
  have param : Parameter _ [⟨.ident, name.text, p⟩, colon, ⟨.ident, type.text, q⟩] :=
    .typed rfl colons rfl
  exact ⟨⟨⟨name.text, p⟩, ⟨type.text, q⟩⟩, rfl, param⟩

theorem Header.written {h : Header} (spelt : ∀ m ∈ h.marks, m.Spelt) :
    Written h.text.toList fun ts => ∃ h', h'.placeless = h.placeless ∧ Heading True h' ts := by
  obtain ⟨word, name, params, result⟩ := h
  have split : (Header.mk word name params result).text.toList =
      "func".toList ++ ' ' :: (name.text.toList ++ '(' ::
        ((commaSeparated (params.map Param.text)).toList ++ ')' :: ':' :: ' ' ::
          (result.text.toList ++ []))) := by
    simp [Header.text]
  obtain ⟨named, back⟩ := List.forall_mem_cons.mp (List.forall_mem_cons.mp spelt).2
  obtain ⟨inner, typed⟩ := List.forall_mem_append.mp back
  have typed := typed _ List.mem_cons_self
  have list : Written (commaSeparated (params.map Param.text)).toList fun ts =>
      ∃ params', params'.map Param.placeless = params.map Param.placeless ∧
        CommaList True Parameter params' ts := by
    refine .commas (fun _ => nofun) fun param member => Param.written fun m mark => ?_
    exact inner m (List.mem_flatMap.mpr ⟨param, member, mark⟩)
  rw [split]
  refine .token ⟨.funcWord, "func", word⟩ rfl nofun (fun _ => .cons rfl) fun p => ?_
  refine .blank ?_ (List.append_ne_nil_of_left_ne_nil (Ident.text_ne_nil named) _)
  refine .token ⟨.ident, name.text, name.position⟩ named nofun (fun _ => .cons rfl) fun q => ?_
  refine .sign rfl fun l opens => ?_
  refine list.append (.cons rfl) fun us ⟨params', same, list⟩ => ?_
  refine .sign rfl fun r closes => .sign rfl fun colon colons => ?_
  refine .blank ?_ (List.append_ne_nil_of_left_ne_nil (Ident.text_ne_nil typed) _)
  refine .token ⟨.ident, result.text, result.position⟩ typed nofun (fun _ => nofun) fun at_ => ?_
  have heading : Heading True _ (⟨.funcWord, "func", p⟩ :: ⟨.ident, name.text, q⟩ :: l ::
      (us ++ [r, colon, ⟨.ident, result.text, at_⟩])) := .typed rfl rfl opens list closes colons rfl
  refine .nil ⟨_, ?_, heading⟩
  simp [Header.placeless, same, Ident.placeless]

def Item.Restored (i : Item) (ts : List Token) : Prop :=
  ∃ i', i'.placeless = i.placeless ∧ ∀ next, (i.endsOpen = true → next ≠ .lparen) →
    next ≠ .semicolon → Entry greedy i' ts next

theorem Definition.written {d : Definition} (spelt : ∀ m ∈ (Item.definition d).marks, m.Spelt) :
    Written (Item.definition d).text.toList (Item.definition d).Restored := by
  have split : (Item.definition d).text.toList =
      d.header.text.toList ++ ' ' :: (inBraces (d.body.map Stmt.text)).toList := by
    simp [Item.text, Definition.block, Stmt.text, Stmt.texts_eq]
  obtain ⟨front, back⟩ := List.forall_mem_append.mp spelt
  have all := Stmt.allWritten d.body (List.forall_mem_cons.mp back).2
  rw [split]
  refine (Header.written front).append (.cons rfl) fun us ⟨header, same, heading⟩ => ?_
  refine .blank ((Stmt.written_block all).imp fun vs ⟨brace, body, same', block⟩ => ?_) ?_
  · refine ⟨.definition ⟨header, brace, body⟩, ?_, fun next _ bare => ?_⟩
    · rw [Item.placeless, Item.placeless, Definition.placeless, Definition.placeless, same, same']
    · have entry : Entry greedy (.definition ⟨header, brace, body⟩) _ next :=
        .definition heading (block _) (.none bare)
      rwa [List.append_nil] at entry
  · simp [inBraces]

theorem Stmt.Restored.item {s : Stmt} {ts : List Token} (restored : s.Restored ts) :
    (Item.stmt s).Restored ts := by
  obtain ⟨s', same, whole⟩ := restored
  refine ⟨.stmt s', congrArg Item.stmt same, fun next stop bare => .stmt ?_⟩
  have last := whole [] next (.none bare) stop bare
  rwa [List.append_nil] at last

/-- The text of an item is read as that item alone, wherever its parts stand then, unless it meets
a nesting limit. -/
def Item.Rereads (i : Item) : Prop :=
  (∃ e, Program.parse i.text = .error (.malformed e []) ∧ e.cause.isLimit = true) ∨
    ∃ i', Program.parse i.text = .ok ⟨[i']⟩ ∧ i'.placeless = i.placeless

theorem Item.rereads_of_written {i : Item} (written : Written i.text.toList i.Restored) :
    i.Rereads := by
  obtain ⟨ts, ending, lexed, i', same, entry⟩ := tokenize_of_written written
  have derived : greedy.Derives ⟨[i']⟩ (ts ++ []) :=
    Sequence.cons (entry .eof (fun _ => nofun) nofun) (.nil .eof)
  rw [List.append_nil] at derived
  rcases Program.parse_of_takes lexed (Item.parseAll_takes_greedy derived) with read | ⟨_, limit⟩
  · exact .inr ⟨i', read, same⟩
  · exact .inl limit

namespace Program

variable {text : String} {p : Program}

/-- Printing a statement or a function of a program that was read, and reading the text, gives it
back: nothing but its places is lost. A text may go beyond a nesting limit, as it is printed with
more parentheses. -/
theorem printed_rereads (read : parse text = .ok p) :
    (∀ s ∈ p.parts, (Item.stmt s).Rereads) ∧
      ∀ d ∈ p.definitions, (Item.definition d).Rereads := by
  have spelt := spelt_of_parse read
  constructor
  · intro s part
    obtain ⟨i, item, within⟩ := List.mem_flatMap.mp part
    have marks : ∀ m ∈ s.marks, m.Spelt := fun m mark =>
      spelt m (List.mem_flatMap.mpr ⟨i, item, i.marks_of_part s within mark⟩)
    exact Item.rereads_of_written ((s.writtenAs marks).restored.imp fun _ => Stmt.Restored.item)
  · intro d member
    obtain ⟨i, item, found⟩ := List.mem_filterMap.mp member
    cases i with
    | prototype q => cases found
    | stmt s => cases found
    | definition d' =>
      cases found
      have marks : ∀ m ∈ (Item.definition d).marks, m.Spelt := fun m mark =>
        spelt m (List.mem_flatMap.mpr ⟨_, item, mark⟩)
      exact Item.rereads_of_written (Definition.written marks)

theorem printed_rereads_sample :
    ∃ p, parse "func f(a: int): int \x7b return a \x7d while (f) (f + 1)(2,)" = .ok p ∧
      p.parts.length = 4 ∧ (∀ s ∈ p.parts, (Item.stmt s).Rereads) ∧
        ∀ d ∈ p.definitions, (Item.definition d).Rereads := by
  have accepted : (match parse "func f(a: int): int \x7b return a \x7d while (f) (f + 1)(2,)" with
      | .ok p => p.parts.length
      | .error _ => 0) = 4 := by
    decide +kernel
  cases read : parse "func f(a: int): int \x7b return a \x7d while (f) (f + 1)(2,)" with
  | ok p =>
    rw [read] at accepted
    exact ⟨p, rfl, accepted, printed_rereads read⟩
  | error r =>
    rw [read] at accepted
    cases accepted

end Program

end Tally
