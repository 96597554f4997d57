import Tally.Proofs.Assembly.Layout
import Tally.Proofs.Program.Emission

namespace Tally

/-- The number of values left on the stack after an instruction. It fails where the instruction would
not find what it needs, where an argument is looked for outside the arguments, and at jumps where
values are left. `arity?` is the number of parameters of the function, and none at the top. -/
def Instr.depthAfter {α : Type} (arity? : Option Nat) (d : Nat) : Instr α → Option Nat
  | pushFunc _ | pushNative _ | pushInt _ => some (d + 1)
  | peek k =>
    match arity? with
    | some n => if d + 1 ≤ k ∧ k ≤ d + n then some (d + 1) else none
    | none => none
  | pop => if 1 ≤ d then some (d - 1) else none
  | add => if 2 ≤ d then some (d - 1) else none
  | call n => if n + 1 ≤ d then some (d - n) else none
  | ret k n => if arity? = some n ∧ k = 0 ∧ d = 1 then some 0 else none
  | jumpFalse _ => if d = 1 then some 0 else none
  | jump _ => if d = 0 then some 0 else none
  | stop => if arity? = none ∧ d = 0 then some 0 else none

namespace Instr

variable {α : Type} {arity? : Option Nat} {d d' : Nat}

theorem counted_peek {k : Nat} (counted : (peek k : Instr α).depthAfter arity? d = some d') :
    ∃ n, arity? = some n ∧ d + 1 ≤ k ∧ k ≤ d + n ∧ d' = d + 1 := by
  cases arity? with
  | none => cases counted
  | some n =>
    rw [depthAfter] at counted
    obtain ⟨range, same⟩ := Option.ite_none_right_eq_some.mp counted
    exact ⟨n, rfl, range.1, range.2, (Option.some.inj same).symm⟩

theorem counted_pop (counted : (pop : Instr α).depthAfter arity? d = some d') :
    1 ≤ d ∧ d' = d - 1 := by
  obtain ⟨enough, same⟩ := Option.ite_none_right_eq_some.mp counted
  exact ⟨enough, (Option.some.inj same).symm⟩

theorem counted_add (counted : (add : Instr α).depthAfter arity? d = some d') :
    2 ≤ d ∧ d' = d - 1 := by
  obtain ⟨enough, same⟩ := Option.ite_none_right_eq_some.mp counted
  exact ⟨enough, (Option.some.inj same).symm⟩

theorem counted_call {n : Nat} (counted : (call n : Instr α).depthAfter arity? d = some d') :
    n + 1 ≤ d ∧ d' = d - n := by
  obtain ⟨enough, same⟩ := Option.ite_none_right_eq_some.mp counted
  exact ⟨enough, (Option.some.inj same).symm⟩

theorem counted_ret {k n : Nat} (counted : (ret k n : Instr α).depthAfter arity? d = some d') :
    arity? = some n ∧ k = 0 ∧ d = 1 ∧ d' = 0 := by
  obtain ⟨⟨arity, none, one⟩, same⟩ := Option.ite_none_right_eq_some.mp counted
  exact ⟨arity, none, one, (Option.some.inj same).symm⟩

theorem counted_jumpFalse {target : α}
    (counted : (jumpFalse target).depthAfter arity? d = some d') : d = 1 ∧ d' = 0 := by
  obtain ⟨one, same⟩ := Option.ite_none_right_eq_some.mp counted
  exact ⟨one, (Option.some.inj same).symm⟩

theorem counted_jump {target : α} (counted : (jump target).depthAfter arity? d = some d') :
    d = 0 ∧ d' = 0 := by
  obtain ⟨none, same⟩ := Option.ite_none_right_eq_some.mp counted
  exact ⟨none, (Option.some.inj same).symm⟩

theorem counted_stop (counted : (stop : Instr α).depthAfter arity? d = some d') :
    arity? = none ∧ d = 0 ∧ d' = 0 := by
  obtain ⟨⟨top, none⟩, same⟩ := Option.ite_none_right_eq_some.mp counted
  exact ⟨top, none, (Option.some.inj same).symm⟩

end Instr

def Line.depthAfter (arity? : Option Nat) (d : Nat) : Line → Option Nat
  | label _ => if d = 0 then some 0 else none
  | instr i => i.depthAfter arity? d

theorem Line.counted_label {arity? : Option Nat} {d d' : Nat} {l : Label}
    (counted : (label l).depthAfter arity? d = some d') : d = 0 ∧ d' = 0 := by
  obtain ⟨none, same⟩ := Option.ite_none_right_eq_some.mp counted
  exact ⟨none, (Option.some.inj same).symm⟩

def depthAfter (arity? : Option Nat) (d : Nat) (ls : List Line) : Option Nat :=
  ls.foldlM (Line.depthAfter arity?) d

theorem depthAfter_append (arity? : Option Nat) (d : Nat) (ls ms : List Line) :
    depthAfter arity? d (ls ++ ms) =
      (depthAfter arity? d ls).bind fun d' => depthAfter arity? d' ms :=
  List.foldlM_append

theorem depthAfter_singleton (arity? : Option Nat) (d : Nat) (line : Line) :
    depthAfter arity? d [line] = line.depthAfter arity? d := by
  unfold depthAfter
  rw [List.foldlM_cons]
  cases line.depthAfter arity? d <;> rfl

theorem depthAfter_trans {arity? : Option Nat} {d d' d'' : Nat} {ls ms : List Line}
    (first : depthAfter arity? d ls = some d') (rest : depthAfter arity? d' ms = some d'') :
    depthAfter arity? d (ls ++ ms) = some d'' := by
  rw [depthAfter_append, first]
  exact rest

theorem exists_of_depthAfter {arity? : Option Nat} {d d' : Nat} {ls ms : List Line} {line : Line}
    (counted : depthAfter arity? d (ls ++ line :: ms) = some d') :
    ∃ e e', depthAfter arity? d ls = some e ∧ line.depthAfter arity? e = some e' ∧
      depthAfter arity? e' ms = some d' := by
  rw [depthAfter_append, Option.bind_eq_some_iff] at counted
  obtain ⟨e, first, rest⟩ := counted
  unfold depthAfter at rest
  rw [List.foldlM_cons, Option.bind_eq_bind, Option.bind_eq_some_iff] at rest
  obtain ⟨e', here, later⟩ := rest
  exact ⟨e, e', first, here, later⟩

structure Standing (around : Surroundings) (scope : Scope) (arity? : Option Nat) : Prop where
  covers : around.Covers scope
  argument : ∀ name i, scope.resolve name = .ok (.argument i) → ∃ n, arity? = some n ∧ i < n
  inFunction : around.inFunction = true → arity? = some scope.paramCount

theorem Standing.enterBlock {around : Surroundings} {scope : Scope} {arity? : Option Nat}
    (standing : Standing around scope arity?) : Standing around scope.enterBlock arity? :=
  ⟨standing.covers, standing.argument, standing.inFunction⟩

section

variable {around : Surroundings} {scope : Scope} {arity? : Option Nat}

theorem Standing.depthAfter_instr (standing : Standing around scope arity?) {name : String}
    {binding : Binding} (bound : scope.resolve name = .ok binding) (d : Nat) :
    (binding.instr d).depthAfter arity? d = some (d + 1) := by
  cases binding with
  | function entry => rfl
  | native index name => rfl
  | argument index =>
    obtain ⟨n, here, inside⟩ := standing.argument name index bound
    subst here
    have range : d + 1 ≤ d + index + 1 ∧ d + index + 1 ≤ d + n := by omega
    exact if_pos range

mutual

theorem Expr.depthAfter_code (standing : Standing around scope arity?) :
    ∀ (e : Expr) (d : Nat), e.violations around = [] →
      depthAfter arity? d (e.code scope d) = some (d + 1)
  | .int digits _, d, _ => by
    rw [Expr.code, depthAfter_singleton]
    rfl
  | .ident name, d, kept => by
    obtain ⟨binding, bound⟩ := exists_binding_of_kept standing.covers kept
    rw [Expr.code, bound, depthAfter_singleton]
    exact standing.depthAfter_instr bound d
  | .add left _ right, d, kept => by
    rw [Expr.violations, List.append_eq_nil_iff] at kept
    have sum : depthAfter arity? (d + 1 + 1) [.instr .add] = some (d + 1) := by
      have enough : 2 ≤ d + 1 + 1 := by omega
      rw [depthAfter_singleton, Line.depthAfter, Instr.depthAfter, if_pos enough]
      rfl
    exact depthAfter_trans (depthAfter_trans (Expr.depthAfter_code standing left d kept.1)
      (Expr.depthAfter_code standing right (d + 1) kept.2)) sum
  | .call callee _ args, d, kept => by
    rw [Expr.violations, List.append_eq_nil_iff, List.append_eq_nil_iff] at kept
    have enough : args.length + 1 ≤ d + args.length + 1 := by omega
    have left : d + args.length + 1 - args.length = d + 1 := by omega
    have call : depthAfter arity? (d + args.length + 1) [.instr (.call args.length)] =
        some (d + 1) := by
      rw [depthAfter_singleton, Line.depthAfter, Instr.depthAfter, if_pos enough, left]
    exact depthAfter_trans (depthAfter_trans (Expr.depthAfter_codeArgs standing args d kept.1.2)
      (Expr.depthAfter_code standing callee (d + args.length) kept.1.1)) call

theorem Expr.depthAfter_codeArgs (standing : Standing around scope arity?) :
    ∀ (es : List Expr) (d : Nat), Expr.violationsOfAll around es = [] →
      depthAfter arity? d (Expr.codeArgs scope d es) = some (d + es.length)
  | [], d, _ => rfl
  | e :: es, d, kept => by
    rw [Expr.violationsOfAll, List.append_eq_nil_iff] at kept
    rw [Expr.codeArgs]
    exact depthAfter_trans (Expr.depthAfter_codeArgs standing es d kept.2)
      (Expr.depthAfter_code standing e (d + es.length) kept.1)

end

end

mutual

/-- A statement leaves the stack as it found it. -/
theorem Stmt.depthAfter_code {around : Surroundings} {scope : Scope} {arity? : Option Nat}
    (standing : Standing around scope arity?) :
    ∀ (s : Stmt) (labels : Nat), s.violations around = [] →
      depthAfter arity? 0 (s.code scope labels) = some 0
  | .block _ body, labels, kept =>
    Stmt.depthAfter_codeAll standing.enterBlock body labels kept
  | .loop _ condition body, labels, kept => by
    rw [Stmt.violations, List.append_eq_nil_iff] at kept
    have entry : depthAfter arity? 0 [.label labels] = some 0 := rfl
    have test : depthAfter arity? (0 + 1) [.instr (.jumpFalse (labels + 1))] = some 0 := rfl
    have back : depthAfter arity? 0 [.instr (.jump labels), .label (labels + 1)] = some 0 := rfl
    exact depthAfter_trans (depthAfter_trans (depthAfter_trans (depthAfter_trans entry
      (Expr.depthAfter_code standing condition 0 kept.1)) test)
      (Stmt.depthAfter_code standing body (labels + 2) kept.2)) back
  | .ret _ value, labels, kept => by
    rw [Stmt.violations, List.append_eq_nil_iff] at kept
    have inside : around.inFunction = true := by
      by_cases inside : around.inFunction = true
      · exact inside
      · rw [if_neg inside] at kept
        cases kept.1
    have leave : depthAfter arity? (0 + 1) [.instr (.ret 0 scope.paramCount)] = some 0 := by
      rw [depthAfter_singleton]
      exact if_pos ⟨standing.inFunction inside, rfl, rfl⟩
    exact depthAfter_trans (Expr.depthAfter_code standing value 0 kept.2) leave
  | .eval e, labels, kept => by
    have drop : depthAfter arity? (0 + 1) [.instr .pop] = some 0 := rfl
    exact depthAfter_trans (Expr.depthAfter_code standing e 0 kept) drop

theorem Stmt.depthAfter_codeAll {around : Surroundings} {scope : Scope} {arity? : Option Nat}
    (standing : Standing around scope arity?) :
    ∀ (ss : List Stmt) (labels : Nat), Stmt.violationsOfAll around ss = [] →
      depthAfter arity? 0 (Stmt.codeAll scope labels ss) = some 0
  | [], _, _ => rfl
  | s :: ss, labels, kept => by
    rw [Stmt.violationsOfAll, List.append_eq_nil_iff] at kept
    rw [Stmt.codeAll]
    exact depthAfter_trans (Stmt.depthAfter_code standing s labels kept.1)
      (Stmt.depthAfter_codeAll standing ss _ kept.2)

end

end Tally
