import Tally.Program.Lowering
import Tally.Program.Rules
import Tally.Proofs.Effects

namespace Tally

def Binding.instr (depth : Nat) : Binding → Instr Label
  | .function entry => .pushFunc entry
  | .native index _ => .pushNative index
  | .argument index => .peek (depth + index + 1)

mutual

/-- The lines of an expression that stands above `depth` values. -/
def Expr.code (scope : Scope) (depth : Nat) : Expr → List Line
  | .int digits _ => [.instr (.pushInt (Expr.literalValue digits))]
  | .ident name =>
    match scope.resolve name.text with
    | .ok binding => [.instr (binding.instr depth)]
    | .error _ => []
  | .add left _ right => left.code scope depth ++ right.code scope (depth + 1) ++ [.instr .add]
  | .call callee _ args =>
    Expr.codeArgs scope depth args ++ callee.code scope (depth + args.length) ++
      [.instr (.call args.length)]

def Expr.codeArgs (scope : Scope) (depth : Nat) : List Expr → List Line
  | [] => []
  | e :: es => Expr.codeArgs scope depth es ++ e.code scope (depth + es.length)

end

mutual

def Stmt.labelCount : Stmt → Nat
  | .block _ body => Stmt.labelCountAll body
  | .loop _ _ body => body.labelCount + 2
  | .ret .. => 0
  | .eval _ => 0

def Stmt.labelCountAll : List Stmt → Nat
  | [] => 0
  | s :: ss => s.labelCount + Stmt.labelCountAll ss

end

mutual

/-- The lines of a statement whose loops take the labels from `labels` on. -/
def Stmt.code (scope : Scope) (labels : Nat) : Stmt → List Line
  | .block _ body => Stmt.codeAll scope.enterBlock labels body
  | .loop _ condition body =>
    [.label labels] ++ condition.code scope 0 ++ [.instr (.jumpFalse (labels + 1))] ++
      body.code scope (labels + 2) ++ [.instr (.jump labels), .label (labels + 1)]
  | .ret _ value => value.code scope 0 ++ [.instr (.ret 0 scope.paramCount)]
  | .eval e => e.code scope 0 ++ [.instr .pop]

def Stmt.codeAll (scope : Scope) (labels : Nat) : List Stmt → List Line
  | [] => []
  | s :: ss => s.code scope labels ++ Stmt.codeAll scope (labels + s.labelCount) ss

end

def Surroundings.Covers (around : Surroundings) (scope : Scope) : Prop :=
  ∀ name, around.knows name = true → ∃ binding, scope.resolve name = .ok binding

def Draft.after (d : Draft) (ls : List Line) (depth labels : Nat) : Draft :=
  ⟨d.lines ++ ls.toArray, depth, labels⟩

namespace Draft

variable (d : Draft)

theorem after_nil : d.after [] d.depth d.labels = d := by
  simp [after]

theorem after_after (ls ms : List Line) (depth labels depth' labels' : Nat) :
    (d.after ls depth labels).after ms depth' labels' = d.after (ls ++ ms) depth' labels' := by
  simp [after, Array.append_assoc]

end Draft

namespace Lowering

variable (d : Draft)

theorem emit_eq (line : Line) : emit line d = .ok ((), d.after [line] d.depth d.labels) := by
  change Except.ok ((), (⟨d.lines.push line, d.depth, d.labels⟩ : Draft)) = _
  rw [Draft.after, Array.push_eq_append]

theorem emitInstr_eq (i : Instr Label) :
    emitInstr i d = .ok ((), d.after [.instr i] d.depth d.labels) := emit_eq d (.instr i)

theorem pushed_eq (n : Nat) : pushed n d = .ok ((), d.after [] (d.depth + n) d.labels) := by
  change Except.ok ((), (⟨d.lines, d.depth + n, d.labels⟩ : Draft)) = _
  simp [Draft.after]

theorem popped_eq (n : Nat) : popped n d = .ok ((), d.after [] (d.depth - n) d.labels) := by
  change Except.ok ((), (⟨d.lines, d.depth - n, d.labels⟩ : Draft)) = _
  simp [Draft.after]

theorem newLabel_eq : newLabel d = .ok (d.labels, d.after [] d.depth (d.labels + 1)) := by
  change Except.ok (d.labels, (⟨d.lines, d.depth, d.labels + 1⟩ : Draft)) = _
  simp [Draft.after]

theorem resolve_eq {scope : Scope} {name : String} {binding : Binding}
    (bound : scope.resolve name = .ok binding) : resolve scope name d = .ok (binding, d) := by
  unfold resolve
  rw [bound]
  rfl

theorem lower_binding_eq (binding : Binding) :
    binding.lower d = .ok ((), d.after [.instr (binding.instr d.depth)] d.depth d.labels) := by
  cases binding with
  | function entry => exact emit_eq d _
  | native index name => exact emit_eq d _
  | argument index => exact emit_eq d _

end Lowering

theorem exists_binding_of_kept {around : Surroundings} {scope : Scope}
    (covers : around.Covers scope) {name : Ident} (kept : (Expr.ident name).violations around = []) :
    ∃ binding, scope.resolve name.text = .ok binding := by
  apply covers
  by_cases known : around.knows name.text = true
  · exact known
  · rw [Expr.violations, if_neg known] at kept
    cases kept

open Lowering

mutual

theorem Expr.lower_eq {around : Surroundings} {scope : Scope} (covers : around.Covers scope) :
    ∀ (e : Expr) (d : Draft), e.violations around = [] →
      e.lower scope d = .ok ((), d.after (e.code scope d.depth) (d.depth + 1) d.labels)
  | .int digits _, d, _ => by
    rw [Expr.lower, Expr.code, run_bind_of_ok (emitInstr_eq d _), pushed_eq, Draft.after_after]
    rfl
  | .ident name, d, kept => by
    obtain ⟨binding, bound⟩ := exists_binding_of_kept covers kept
    rw [Expr.lower, Expr.code, bound, run_bind_of_ok (resolve_eq d bound),
      run_bind_of_ok (lower_binding_eq d binding), pushed_eq, Draft.after_after]
    rfl
  | .add left _ right, d, kept => by
    rw [Expr.violations, List.append_eq_nil_iff] at kept
    rw [Expr.lower, Expr.code, run_bind_of_ok (Expr.lower_eq covers left d kept.1),
      run_bind_of_ok (Expr.lower_eq covers right _ kept.2), Draft.after_after,
      run_bind_of_ok (emitInstr_eq _ _), popped_eq, Draft.after_after, Draft.after_after]
    simp [Draft.after]
  | .call callee _ args, d, kept => by
    rw [Expr.violations, List.append_eq_nil_iff, List.append_eq_nil_iff] at kept
    rw [Expr.lower, Expr.code, run_bind_of_ok (Expr.lowerArgs_eq covers args d kept.1.2),
      run_bind_of_ok (Expr.lower_eq covers callee _ kept.1.1), Draft.after_after,
      run_bind_of_ok (emitInstr_eq _ _), popped_eq, Draft.after_after, Draft.after_after]
    have depth : d.depth + args.length + 1 - args.length = d.depth + 1 := by omega
    simp [Draft.after, depth]

theorem Expr.lowerArgs_eq {around : Surroundings} {scope : Scope} (covers : around.Covers scope) :
    ∀ (es : List Expr) (d : Draft), Expr.violationsOfAll around es = [] →
      Expr.lowerArgs scope es d =
        .ok ((), d.after (Expr.codeArgs scope d.depth es) (d.depth + es.length) d.labels)
  | [], d, _ => by
    rw [Expr.lowerArgs, Expr.codeArgs]
    exact congrArg (fun d' => Except.ok ((), d')) d.after_nil.symm
  | e :: es, d, kept => by
    rw [Expr.violationsOfAll, List.append_eq_nil_iff] at kept
    rw [Expr.lowerArgs, Expr.codeArgs, run_bind_of_ok (Expr.lowerArgs_eq covers es d kept.2),
      Expr.lower_eq covers e _ kept.1, Draft.after_after]
    rfl

end

theorem Surroundings.Covers.enterBlock {around : Surroundings} {scope : Scope}
    (covers : around.Covers scope) : around.Covers scope.enterBlock := covers

mutual

theorem Stmt.lower_eq {around : Surroundings} {scope : Scope} (covers : around.Covers scope) :
    ∀ (s : Stmt) (d : Draft), s.violations around = [] → d.depth = 0 →
      s.lower scope d = .ok ((), d.after (s.code scope d.labels) 0 (d.labels + s.labelCount))
  | .block _ body, d, kept, bottom => by
    have lowered := Stmt.lowerAll_eq covers.enterBlock body d kept bottom
    have depth (d' : Draft) : Lowering.depth d' = .ok (d'.depth, d') := rfl
    rw [Stmt.lower, Stmt.code, Stmt.labelCount, run_bind_of_ok (depth d), run_bind_of_ok lowered,
      run_bind_of_ok (depth _), Draft.after, bottom]
    rfl
  | .loop _ condition body, d, kept, bottom => by
    rw [Stmt.violations, List.append_eq_nil_iff] at kept
    rw [Stmt.lower, Stmt.code, Stmt.labelCount, run_bind_of_ok (newLabel_eq d),
      run_bind_of_ok (newLabel_eq _), Draft.after_after, run_bind_of_ok (emit_eq _ _),
      Draft.after_after, run_bind_of_ok (Expr.lower_eq covers condition _ kept.1),
      Draft.after_after, run_bind_of_ok (emitInstr_eq _ _), Draft.after_after,
      run_bind_of_ok (popped_eq _ _), Draft.after_after,
      run_bind_of_ok (Stmt.lower_eq covers body _ kept.2 (by simp [Draft.after, bottom])),
      Draft.after_after, run_bind_of_ok (emitInstr_eq _ _), Draft.after_after, emit_eq,
      Draft.after_after]
    have labels : d.labels + 1 + 1 + body.labelCount = d.labels + (body.labelCount + 2) := by omega
    simp [Draft.after, bottom, labels]
  | .ret _ value, d, kept, bottom => by
    rw [Stmt.violations, List.append_eq_nil_iff] at kept
    have depth (d' : Draft) : Lowering.depth d' = .ok (d'.depth, d') := rfl
    rw [Stmt.lower, Stmt.code, Stmt.labelCount, run_bind_of_ok (Expr.lower_eq covers value d kept.2),
      run_bind_of_ok (popped_eq _ _), Draft.after_after, run_bind_of_ok (depth _), emitInstr_eq,
      Draft.after_after]
    simp [Draft.after, bottom]
  | .eval e, d, kept, bottom => by
    rw [Stmt.lower, Stmt.code, Stmt.labelCount, run_bind_of_ok (Expr.lower_eq covers e d kept),
      run_bind_of_ok (emitInstr_eq _ _), popped_eq, Draft.after_after, Draft.after_after]
    simp [Draft.after, bottom]

theorem Stmt.lowerAll_eq {around : Surroundings} {scope : Scope} (covers : around.Covers scope) :
    ∀ (ss : List Stmt) (d : Draft), Stmt.violationsOfAll around ss = [] → d.depth = 0 →
      Stmt.lowerAll scope ss d =
        .ok ((), d.after (Stmt.codeAll scope d.labels ss) 0 (d.labels + Stmt.labelCountAll ss))
  | [], d, _, bottom => by
    rw [Stmt.lowerAll, Stmt.codeAll, Stmt.labelCountAll, Nat.add_zero, ← bottom, d.after_nil]
    rfl
  | s :: ss, d, kept, bottom => by
    rw [Stmt.violationsOfAll, List.append_eq_nil_iff] at kept
    rw [Stmt.lowerAll, Stmt.codeAll, Stmt.labelCountAll,
      run_bind_of_ok (Stmt.lower_eq covers s d kept.1 bottom),
      Stmt.lowerAll_eq covers ss _ kept.2 rfl, Draft.after_after, ← Nat.add_assoc]
    rfl

end

end Tally
