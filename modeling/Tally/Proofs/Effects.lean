namespace Tally

variable {ε σ α β : Type} {x : EStateM ε σ α} {f : α → EStateM ε σ β} {s s' : σ}

theorem bind_of_ok {a : α} (h : x s = .ok a s') : (x >>= f) s = f a s' := by
  change EStateM.bind x f s = f a s'
  unfold EStateM.bind
  rw [h]

theorem bind_of_error {e : ε} (h : x s = .error e s') : (x >>= f) s = .error e s' := by
  change EStateM.bind x f s = .error e s'
  unfold EStateM.bind
  rw [h]

theorem map_of_ok {g : α → β} {a : α} (h : x s = .ok a s') : (g <$> x) s = .ok (g a) s' := by
  change EStateM.map g x s = .ok (g a) s'
  unfold EStateM.map
  rw [h]

theorem map_of_error {g : α → β} {e : ε} (h : x s = .error e s') : (g <$> x) s = .error e s' := by
  change EStateM.map g x s = .error e s'
  unfold EStateM.map
  rw [h]

theorem bind_eq_ok {s'' : σ} {b : β} (done : (x >>= f) s = .ok b s'') :
    ∃ a s', x s = .ok a s' ∧ f a s' = .ok b s'' := by
  cases first : x s with
  | ok a s' => exact ⟨a, s', rfl, (bind_of_ok first).symm.trans done⟩
  | error e s' => cases (bind_of_error first).symm.trans done

theorem bind_eq_error {s'' : σ} {e : ε} (failed : (x >>= f) s = .error e s'') :
    x s = .error e s'' ∨ ∃ a s', x s = .ok a s' ∧ f a s' = .error e s'' := by
  cases first : x s with
  | ok a s' => exact Or.inr ⟨a, s', rfl, (bind_of_ok first).symm.trans failed⟩
  | error e' s' =>
    cases (bind_of_error first).symm.trans failed
    exact Or.inl rfl

theorem forM_cons (f : α → EStateM ε σ PUnit) (a : α) (as : List α) :
    (a :: as).forM f = f a >>= fun _ => as.forM f := rfl

section Partial

variable {x : StateT σ (Except ε) α} {f : α → StateT σ (Except ε) β}

theorem run_bind_of_ok {a : α} (h : x s = .ok (a, s')) : (x >>= f) s = f a s' := by
  change StateT.bind x f s = f a s'
  unfold StateT.bind
  rw [h]
  rfl

end Partial

theorem exists_of_evaluation {x : Except ε α} {holds : α → Prop} [DecidablePred holds]
    (found : x.toOption.any (fun a => decide (holds a)) = true) : ∃ a, x = .ok a ∧ holds a := by
  cases x with
  | error e => cases found
  | ok a => exact ⟨a, rfl, of_decide_eq_true found⟩

end Tally
