import Tally.Program.Meaning
import Tally.Proofs.Effects

namespace Tally

/-- The second evaluation does what the first one does wherever that is finished. -/
def Approximates {α : Type} (x y : Evaluation α) : Prop :=
  ∀ m, (∃ left, x m = .error .unfinished left) ∨ x m = y m

namespace Approximates

variable {α β : Type} {x y : Evaluation α}

theorem refl (x : Evaluation α) : Approximates x x := fun _ => Or.inr rfl

theorem unfinished (y : Evaluation α) : Approximates (throw .unfinished) y :=
  fun m => Or.inl ⟨m, rfl⟩

theorem bind {f g : α → Evaluation β} (first : Approximates x y)
    (rest : ∀ a, Approximates (f a) (g a)) : Approximates (x >>= f) (y >>= g) := by
  intro m
  rcases first m with ⟨left, unfinished⟩ | same
  · exact Or.inl ⟨left, bind_of_error unfinished⟩
  · cases result : x m with
    | ok a m' =>
      rw [bind_of_ok result, bind_of_ok (same.symm.trans result)]
      exact rest a m'
    | error e m' =>
      rw [bind_of_error result, bind_of_error (same.symm.trans result)]
      exact Or.inr rfl

theorem map (f : α → β) (first : Approximates x y) : Approximates (f <$> x) (f <$> y) := by
  rw [map_eq_pure_bind, map_eq_pure_bind]
  exact first.bind fun a => refl (pure (f a))

end Approximates

section

variable {call call' : Datum → List Datum → Evaluation Datum} {n n' bound bound' : Nat}

mutual

theorem Expr.approximates (calls : ∀ f values, Approximates (call f values) (call' f values))
    (env : Environment) : ∀ e : Expr, Approximates (e.evaluate call env) (e.evaluate call' env)
  | .int _ _ => by
    rw [Expr.evaluate, Expr.evaluate]
    exact .refl _
  | .ident _ => by
    rw [Expr.evaluate, Expr.evaluate]
    exact .refl _
  | .add left _ right => by
    rw [Expr.evaluate, Expr.evaluate]
    refine (left.approximates calls env).bind fun a => ?_
    exact (right.approximates calls env).bind fun b => .refl (a.add b)
  | .call callee _ args => by
    rw [Expr.evaluate, Expr.evaluate]
    refine (Expr.approximatesAll calls env args).bind fun values => ?_
    exact (callee.approximates calls env).bind fun f => calls f values

theorem Expr.approximatesAll (calls : ∀ f values, Approximates (call f values) (call' f values))
    (env : Environment) :
    ∀ es : List Expr, Approximates (Expr.evaluateAll call env es) (Expr.evaluateAll call' env es)
  | [] => by
    rw [Expr.evaluateAll, Expr.evaluateAll]
    exact .refl _
  | e :: es => by
    rw [Expr.evaluateAll, Expr.evaluateAll]
    refine (Expr.approximatesAll calls env es).bind fun values => ?_
    exact (e.approximates calls env).bind fun v => .refl (pure (v :: values))

end

theorem rounds_approximates {condition condition' : Evaluation Datum}
    {body body' : Evaluation (Option Datum)} (first : Approximates condition condition')
    (second : Approximates body body') (less : n ≤ n') :
    Approximates (rounds condition body n) (rounds condition' body' n') := by
  induction n generalizing n' with
  | zero =>
    rw [rounds]
    exact .unfinished _
  | succ n ih =>
    cases n' with
    | zero => cases less
    | succ n' =>
      rw [rounds, rounds]
      refine first.bind fun v => ?_
      by_cases truth : v.truthy = true
      · rw [if_pos truth, if_pos truth]
        refine second.bind fun result => ?_
        cases result with
        | some v => exact .refl _
        | none => exact ih (Nat.le_of_succ_le_succ less)
      · rw [if_neg truth, if_neg truth]
        exact .refl _

mutual

theorem Stmt.approximates (calls : ∀ f values, Approximates (call f values) (call' f values))
    (less : bound ≤ bound') (env : Environment) :
    ∀ s : Stmt, Approximates (s.evaluate call bound env) (s.evaluate call' bound' env)
  | .block _ body => by
    rw [Stmt.evaluate, Stmt.evaluate]
    exact Stmt.approximatesAll calls less env body
  | .loop _ condition body => by
    rw [Stmt.evaluate, Stmt.evaluate]
    exact rounds_approximates (condition.approximates calls env) (body.approximates calls less env) less
  | .ret _ value => by
    rw [Stmt.evaluate, Stmt.evaluate]
    exact (value.approximates calls env).map some
  | .eval e => by
    rw [Stmt.evaluate, Stmt.evaluate]
    exact (e.approximates calls env).bind fun _ => .refl (pure none)

theorem Stmt.approximatesAll (calls : ∀ f values, Approximates (call f values) (call' f values))
    (less : bound ≤ bound') (env : Environment) :
    ∀ ss : List Stmt,
      Approximates (Stmt.evaluateAll call bound env ss) (Stmt.evaluateAll call' bound' env ss)
  | [] => by
    rw [Stmt.evaluateAll, Stmt.evaluateAll]
    exact .refl _
  | s :: ss => by
    rw [Stmt.evaluateAll, Stmt.evaluateAll]
    refine (s.approximates calls less env).bind fun result => ?_
    cases result with
    | some v => exact .refl _
    | none => exact Stmt.approximatesAll calls less env ss

end

theorem Datum.apply_approximates (declared? : String → Option Datum) (less : bound ≤ bound')
    (f : Datum) (values : List Datum) :
    Approximates (apply declared? bound f values) (apply declared? bound' f values) := by
  induction bound generalizing bound' f values with
  | zero =>
    cases f with
    | int z =>
      rw [apply, apply]
      exact .refl _
    | native q =>
      rw [apply, apply]
      exact .refl _
    | function d =>
      rw [apply]
      exact .unfinished _
  | succ bound ih =>
    cases bound' with
    | zero => cases less
    | succ bound' =>
      have fewer := Nat.le_of_succ_le_succ less
      cases f with
      | int z =>
        rw [apply, apply]
        exact .refl _
      | native q =>
        rw [apply, apply]
        exact .refl _
      | function d =>
        rw [apply, apply]
        by_cases arity : d.header.params.length = values.length
        · rw [if_pos arity, if_pos arity]
          exact (d.block.approximates (ih fewer) fewer _).bind fun result => .refl _
        · rw [if_neg arity, if_neg arity]
          exact .refl _

namespace Program

theorem approximates (p : Program) (less : bound ≤ bound') :
    Approximates (p.evaluate bound) (p.evaluate bound') := by
  have body := Stmt.approximatesAll (Datum.apply_approximates p.declared? less) less
    ⟨p.declared?, []⟩ p.statements
  exact body.bind fun result => .refl _

variable {p : Program} {inputs w w' : List Int} {o o' : Finish}

theorem outcome?_mono (less : bound ≤ bound') (outcome : p.outcome? bound inputs = some (o, w)) :
    p.outcome? bound' inputs = some (o, w) := by
  rcases p.approximates less (.ofInputs inputs) with ⟨left, unfinished⟩ | same
  · unfold outcome? at outcome
    rw [unfinished] at outcome
    cases outcome
  · unfold outcome? at outcome ⊢
    rw [← same]
    exact outcome

theorem outcome?_unique (first : p.outcome? bound inputs = some (o, w))
    (second : p.outcome? bound' inputs = some (o', w')) : o = o' ∧ w = w' := by
  have both := (outcome?_mono (Nat.le_max_left bound bound') first).symm.trans
    (outcome?_mono (Nat.le_max_right bound bound') second)
  cases both
  exact ⟨rfl, rfl⟩

end Program

end

end Tally
