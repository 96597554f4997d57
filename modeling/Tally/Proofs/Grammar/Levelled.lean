import Tally.Program.Lawful
import Tally.Program.Levels
import Tally.Proofs.Grammar.Resolved

namespace Tally

namespace Grammar

section Levels

variable {trailing : Prop} {allowed : Nat → Prop}

mutual

theorem OperandAt.plain {level : Nat} {e : Expr} {us : List Token} :
    OperandAt trailing allowed level e us → Operand trailing e us
  | .ident _ kind => .ident kind
  | .int _ kind => .int kind
  | .group _ opens inner closes => .group opens inner.plain closes
  | .call called opens list closes => .call called.plain opens list.plain closes

theorem SumAt.plain {level : Nat} {e : Expr} {us : List Token} :
    SumAt trailing allowed level e us → Sum trailing e us
  | .operand only => .operand only.plain
  | .add first plus last => .add first.plain plus last.plain

theorem ArgumentsAt.plain {level : Nat} {es : List Expr} {us : List Token} :
    ArgumentsAt trailing allowed level es us → CommaList trailing (Sum trailing) es us
  | .nil => .nil
  | .last item => .last item.plain
  | .cons item comma more ends => .cons item.plain comma more.plain ends

end

mutual

theorem Operand.somewhere {e : Expr} {us : List Token} :
    Operand trailing e us → ∀ level, OperandAt trailing (fun _ => True) level e us
  | .ident kind, _ => .ident trivial kind
  | .int kind, _ => .int trivial kind
  | .group opens inner closes, level =>
    .group trivial opens (inner.somewhere (level + 1)) closes
  | .call called opens list closes, level =>
    .call (called.somewhere level) opens (arguments_somewhere list (level + 1)) closes

theorem Sum.somewhere {e : Expr} {us : List Token} :
    Sum trailing e us → ∀ level, SumAt trailing (fun _ => True) level e us
  | .operand only, level => .operand (only.somewhere level)
  | .add first plus last, level => .add (first.somewhere level) plus (last.somewhere (level + 1))

theorem arguments_somewhere {es : List Expr} {us : List Token} :
    CommaList trailing (Sum trailing) es us →
      ∀ level, ArgumentsAt trailing (fun _ => True) level es us
  | .nil, _ => .nil
  | .last item, level => .last (item.somewhere level)
  | .cons item comma more ends, level =>
    .cons (item.somewhere level) comma (arguments_somewhere more level) ends

end

theorem CommaList.argumentsAt {level : Nat} {es : List Expr} {us : List Token}
    (list : CommaList trailing (SumAt trailing allowed level) es us) :
    ArgumentsAt trailing allowed level es us := by
  induction list with
  | nil => exact .nil
  | last item => exact .last item
  | cons item comma _ ends ih => exact .cons item comma ih ends

theorem ArgumentsAt.commaList {level : Nat} {es : List Expr} {us : List Token} :
    ArgumentsAt trailing allowed level es us →
      CommaList trailing (SumAt trailing allowed level) es us
  | .nil => .nil
  | .last item => .last item
  | .cons item comma more ends => .cons item comma more.commaList ends

theorem CommaList.and {α : Type} {one : α → List Token → Prop} {post : α → Prop} {as : List α}
    {us : List Token} (list : CommaList trailing one as us) (all : ∀ a ∈ as, post a) :
    CommaList trailing (fun a us => one a us ∧ post a) as us := by
  induction list with
  | nil => exact .nil
  | last item => exact .last ⟨item, all _ List.mem_cons_self⟩
  | cons item comma _ ends ih =>
    obtain ⟨here, rest⟩ := List.forall_mem_cons.mp all
    exact .cons ⟨item, here⟩ comma (ih rest) ends

theorem OperandAt.here {level : Nat} {e : Expr} {us : List Token} :
    OperandAt trailing allowed level e us → allowed level
  | .ident here _ => here
  | .int here _ => here
  | .group here _ _ _ => here
  | .call called _ _ _ => called.here

theorem SumAt.here {level : Nat} {e : Expr} {us : List Token} :
    SumAt trailing allowed level e us → allowed level
  | .operand only => only.here
  | .add first _ _ => first.here

end Levels

section Values

variable {g : Grammar} {value value' : Expr → List Token → Prop}

mutual

theorem ClauseOf.imp {s : Stmt} {us : List Token} {next : Token.Kind} :
    ClauseOf g value s us next →
      (∀ s' ∈ s.parts, ∀ e ∈ s'.operands, ∀ us, value e us → value' e us) →
        ClauseOf g value' s us next
  | .block opens inner closes, weaker =>
    .block opens (sequence_imp inner (List.forall_mem_cons.mp weaker).2) closes
  | .loop word opens tested closes repeated, weaker =>
    .loop word opens (weaker _ List.mem_cons_self _ List.mem_cons_self _ tested) closes
      (repeated.imp (List.forall_mem_cons.mp weaker).2)
  | .ret word returned stop, weaker =>
    .ret word (weaker _ List.mem_cons_self _ List.mem_cons_self _ returned) stop
  | .eval evaluated stop, weaker =>
    .eval (weaker _ List.mem_cons_self _ List.mem_cons_self _ evaluated) stop

theorem StatementOf.imp {s : Stmt} {us : List Token} {next : Token.Kind} :
    StatementOf g value s us next →
      (∀ s' ∈ s.parts, ∀ e ∈ s'.operands, ∀ us, value e us → value' e us) →
        StatementOf g value' s us next
  | .ended body closing, weaker => .ended (body.imp weaker) closing

theorem sequence_imp {ss : List Stmt} {us : List Token} {next : Token.Kind} :
    Sequence (StatementOf g value) ss us next →
      (∀ s' ∈ Stmt.allParts ss, ∀ e ∈ s'.operands, ∀ us, value e us → value' e us) →
        Sequence (StatementOf g value') ss us next
  | .nil next, _ => .nil next
  | .cons first more, weaker =>
    .cons (first.imp (List.forall_mem_append.mp weaker).1)
      (sequence_imp more (List.forall_mem_append.mp weaker).2)

end

mutual

theorem ClauseOf.plain (sums : ∀ e us, value e us → Sum g.trailing e us) {s : Stmt}
    {us : List Token} {next : Token.Kind} : ClauseOf g value s us next → Clause g s us next
  | .block opens inner closes => .block opens (sequence_plain sums inner) closes
  | .loop word opens tested closes repeated =>
    .loop word opens (sums _ _ tested) closes (repeated.plain sums)
  | .ret word returned stop => .ret word (sums _ _ returned) stop
  | .eval evaluated stop => .eval (sums _ _ evaluated) stop

theorem StatementOf.plain (sums : ∀ e us, value e us → Sum g.trailing e us) {s : Stmt}
    {us : List Token} {next : Token.Kind} : StatementOf g value s us next → Statement g s us next
  | .ended body closing => .ended (body.plain sums) closing

theorem sequence_plain (sums : ∀ e us, value e us → Sum g.trailing e us) {ss : List Stmt}
    {us : List Token} {next : Token.Kind} :
    Sequence (StatementOf g value) ss us next → Sequence (Statement g) ss us next
  | .nil next => .nil next
  | .cons first more => .cons (first.plain sums) (sequence_plain sums more)

end

theorem EntryOf.imp {i : Item} {us : List Token} {next : Token.Kind} : EntryOf g value i us next →
    (∀ s ∈ i.parts, ∀ e ∈ s.operands, ∀ us, value e us → value' e us) → EntryOf g value' i us next
  | .prototype heading assigns named closing, _ => .prototype heading assigns named closing
  | .definition heading body closing, weaker => .definition heading (body.imp weaker) closing
  | .stmt whole, weaker => .stmt (whole.imp weaker)

theorem EntryOf.mono (weaker : ∀ e us, value e us → value' e us) {i : Item} {us : List Token}
    {next : Token.Kind} (entry : EntryOf g value i us next) : EntryOf g value' i us next :=
  entry.imp fun _ _ e _ => weaker e

mutual

theorem ClauseOf.forall_operands {post : Expr → Prop} (fits : ∀ e us, value e us → post e)
    {s : Stmt} {us : List Token} {next : Token.Kind} :
    ClauseOf g value s us next → ∀ s' ∈ s.parts, ∀ e ∈ s'.operands, post e
  | .block _ inner _ => List.forall_mem_cons.mpr ⟨nofun, sequence_forall_operands fits inner⟩
  | .loop _ _ tested _ repeated =>
    List.forall_mem_cons.mpr
      ⟨List.forall_mem_singleton.mpr (fits _ _ tested), repeated.forall_operands fits⟩
  | .ret _ returned _ =>
    List.forall_mem_singleton.mpr (List.forall_mem_singleton.mpr (fits _ _ returned))
  | .eval evaluated _ =>
    List.forall_mem_singleton.mpr (List.forall_mem_singleton.mpr (fits _ _ evaluated))

theorem StatementOf.forall_operands {post : Expr → Prop} (fits : ∀ e us, value e us → post e)
    {s : Stmt} {us : List Token} {next : Token.Kind} :
    StatementOf g value s us next → ∀ s' ∈ s.parts, ∀ e ∈ s'.operands, post e
  | .ended body _ => body.forall_operands fits

theorem sequence_forall_operands {post : Expr → Prop} (fits : ∀ e us, value e us → post e)
    {ss : List Stmt} {us : List Token} {next : Token.Kind} :
    Sequence (StatementOf g value) ss us next → ∀ s ∈ Stmt.allParts ss, ∀ e ∈ s.operands, post e
  | .nil _ => nofun
  | .cons first more =>
    List.forall_mem_append.mpr ⟨first.forall_operands fits, sequence_forall_operands fits more⟩

end

theorem EntryOf.forall_operands {post : Expr → Prop} (fits : ∀ e us, value e us → post e)
    {i : Item} {us : List Token} {next : Token.Kind} :
    EntryOf g value i us next → ∀ s ∈ i.parts, ∀ e ∈ s.operands, post e
  | .prototype .. => nofun
  | .definition _ body _ => body.forall_operands fits
  | .stmt whole => whole.forall_operands fits

theorem EntryOf.plain (sums : ∀ e us, value e us → Sum g.trailing e us) {i : Item}
    {us : List Token} {next : Token.Kind} : EntryOf g value i us next → Entry g i us next
  | .prototype heading assigns named closing => .prototype heading assigns named closing
  | .definition heading body closing => .definition heading (body.plain sums) closing
  | .stmt whole => .stmt (whole.plain sums)

theorem inherited_valued : Inherited g (ClauseOf g (Sum g.trailing))
    (StatementOf g (Sum g.trailing)) (Sequence (StatementOf g (Sum g.trailing))) where
  block opens closes inner := .block opens inner closes
  loop word opens tested closes inner := .loop word opens tested closes inner
  ret word returned stop := .ret word returned stop
  eval value stop := .eval value stop
  ended closing inner := .ended inner closing
  nil := .nil
  cons _ first rest := .cons first rest

theorem Entry.valued {i : Item} {us : List Token} {next : Token.Kind} :
    Entry g i us next → EntryOf g (Sum g.trailing) i us next
  | .prototype heading assigns named closing => .prototype heading assigns named closing
  | .definition heading body closing => .definition heading (inherited_valued.of_clause body) closing
  | .stmt whole => .stmt (inherited_valued.of_statement whole)

end Values

theorem Sequence.mono {α : Type} {one one' : α → List Token → Token.Kind → Prop} {as : List α}
    {us : List Token} {next : Token.Kind} (derived : Sequence one as us next)
    (weaker : ∀ a ∈ as, ∀ us k, one a us k → one' a us k) : Sequence one' as us next := by
  induction derived with
  | nil next => exact .nil next
  | cons first _ ih =>
    obtain ⟨here, rest⟩ := List.forall_mem_cons.mp weaker
    exact .cons (here _ _ first) (ih rest)

theorem Sequence.forall_mem {α : Type} {one : α → List Token → Token.Kind → Prop} {as : List α}
    {us : List Token} {next : Token.Kind} (derived : Sequence one as us next) {post : α → Prop}
    (fits : ∀ a us k, one a us k → post a) : ∀ a ∈ as, post a := by
  induction derived with
  | nil => nofun
  | cons first _ ih => exact List.forall_mem_cons.mpr ⟨fits _ _ _ first, ih⟩

end Grammar

end Tally
