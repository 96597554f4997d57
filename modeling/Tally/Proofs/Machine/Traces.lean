import Tally.Proofs.Machine.Runs

namespace Tally

def record (seen : List Event) (e : Event) : List Event := seen ++ [e]

theorem foldl_record (seen es : List Event) : es.foldl record seen = seen ++ es := by
  induction es generalizing seen with
  | nil => exact (List.append_nil seen).symm
  | cons e es ih => rw [List.foldl_cons, ih, record, List.append_assoc, List.singleton_append]

namespace Machine

variable {σ τ : Type} {setup : Setup σ} {m m' m₁ : Machine σ} {es tail : List Event} {why : Halt}

/-- The machine makes these steps, listed as they are seen. -/
inductive Traces (setup : Setup σ) : List Event → Machine σ → Machine σ → Prop where
  | refl (m : Machine σ) : Traces setup [] m m
  | head {es : List Event} {op : Opcode} {m m' m'' : Machine σ}
      (fetched : setup.code.fetch m.pc = .ok op) (first : next setup m = .next m')
      (rest : Traces setup es m' m'') : Traces setup (m.event op :: es) m m''

/-- What a run ends with that makes no further step: the last machine, what is still seen, and the
result. -/
inductive Closes (setup : Setup σ) : Machine σ → List Event → Halt → Machine σ → Prop where
  | exhausted {m : Machine σ} {op : Opcode} (fetched : setup.code.fetch m.pc = .ok op) :
      Closes setup m [] .exhausted m
  | unfetched {m : Machine σ} {f : Fault} (fetched : setup.code.fetch m.pc = .error f) :
      Closes setup m [] (.fault f m.pc) m
  | halted {m m' : Machine σ} {op : Opcode} {why : Halt}
      (fetched : setup.code.fetch m.pc = .ok op) (last : next setup m = .halt why m') :
      Closes setup m [m.event op] why m'

theorem Traces.reaches (path : Traces setup es m m') : Reaches setup es.length m m' := by
  induction path with
  | refl m => exact .refl m
  | head _ first _ ih => exact .head first ih

theorem Traces.keeps {keeps : Machine σ → Prop}
    (step : ∀ m m', keeps m → next setup m = .next m' → keeps m') (path : Traces setup es m m')
    (first : keeps m) : keeps m' := by
  induction path with
  | refl m => exact first
  | head _ made _ ih => exact ih (step _ _ first made)

theorem traces_of_run {observe : τ → Event → τ} {limit : Nat} {seen seen' : τ}
    (ran : run setup observe limit seen m = (why, seen', m')) :
    ∃ es m₁ tail, Traces setup es m m₁ ∧ Closes setup m₁ tail why m' ∧
      seen' = (es ++ tail).foldl observe seen := by
  induction limit generalizing seen m with
  | zero =>
    cases fetched : setup.code.fetch m.pc with
    | error f =>
      cases ran.symm.trans (run_of_fetch_error observe fetched 0 seen)
      exact ⟨[], _, [], .refl _, .unfetched fetched, rfl⟩
    | ok op =>
      cases ran.symm.trans (run_zero_of_fetch observe fetched seen)
      exact ⟨[], _, [], .refl _, .exhausted fetched, rfl⟩
  | succ limit ih =>
    cases fetched : setup.code.fetch m.pc with
    | error f =>
      cases ran.symm.trans (run_of_fetch_error observe fetched (limit + 1) seen)
      exact ⟨[], _, [], .refl _, .unfetched fetched, rfl⟩
    | ok op =>
      cases stepped : next setup m with
      | halt why₁ m₁ =>
        cases ran.symm.trans (run_of_fetch_halt observe fetched stepped limit seen)
        exact ⟨[], m, [m.event op], .refl m, .halted fetched stepped, rfl⟩
      | next m₁ =>
        rw [run_of_fetch observe fetched stepped] at ran
        obtain ⟨es, m₂, tail, path, closes, same⟩ := ih ran
        exact ⟨m.event op :: es, m₂, tail, .head fetched stepped path, closes, same⟩

end Machine

end Tally
