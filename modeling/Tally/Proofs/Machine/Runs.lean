import Tally.Proofs.Machine.Steps

namespace Tally

theorem Trap.halt_ne_exhausted (t : Trap) (length pc : Nat) : t.halt length pc ≠ .exhausted := by
  cases t with
  | fault f own => cases own <;> nofun
  | outOfRange message | foreign message => nofun
  | astray target =>
    unfold Trap.halt
    dsimp only
    by_cases past : (length : Number) ≤ target
    · rw [if_pos past]
      nofun
    · rw [if_neg past]
      nofun

namespace Machine

variable {σ τ : Type} {setup : Setup σ}

inductive Reaches (setup : Setup σ) : Nat → Machine σ → Machine σ → Prop where
  | refl (m : Machine σ) : Reaches setup 0 m m
  | head {n : Nat} {m m' m'' : Machine σ} (first : next setup m = .next m')
      (rest : Reaches setup n m' m'') : Reaches setup (n + 1) m m''

theorem Reaches.trans {n k : Nat} {m m' m'' : Machine σ} (first : Reaches setup n m m')
    (rest : Reaches setup k m' m'') : Reaches setup (n + k) m m'' := by
  induction first with
  | refl m =>
    rw [Nat.zero_add]
    exact rest
  | head step _ ih =>
    rw [Nat.add_right_comm]
    exact .head step (ih rest)

theorem Reaches.single {m m' : Machine σ} (step : next setup m = .next m') :
    Reaches setup 1 m m' := .head step (.refl m')

theorem Reaches.tail {n : Nat} {m m' m'' : Machine σ} (first : Reaches setup n m m')
    (last : next setup m' = .next m'') : Reaches setup (n + 1) m m'' := first.trans (.single last)

theorem fetch_of_next {m m' : Machine σ} (step : next setup m = .next m') :
    ∃ op, setup.code.fetch m.pc = .ok op ∧ m.step setup op = .next m' := by
  cases fetched : setup.code.fetch m.pc with
  | error f => cases step.symm.trans (next_of_fetch_error fetched)
  | ok op => exact ⟨op, rfl, (next_of_fetch fetched).symm.trans step⟩

theorem next_ne_exhausted {m m' : Machine σ} {why : Halt}
    (halted : next setup m = .halt why m') : why ≠ .exhausted := by
  cases fetched : setup.code.fetch m.pc with
  | error f =>
    cases halted.symm.trans (next_of_fetch_error fetched)
    nofun
  | ok op =>
    have stepped := (next_of_fetch fetched).symm.trans halted
    unfold step at stepped
    by_cases stops : op = .stop
    · rw [if_pos stops] at stepped
      cases stepped
      nofun
    · rw [if_neg stops] at stepped
      cases executed : setup.execute m.pc op m with
      | ok _ m₁ =>
        simp only [executed] at stepped
        cases stepped
      | error t m₁ =>
        simp only [executed] at stepped
        cases stepped
        exact t.halt_ne_exhausted _ _

section

variable (observe : τ → Event → τ)

theorem run_of_fetch_error {m : Machine σ} {f : Fault} (fetched : setup.code.fetch m.pc = .error f)
    (limit : Nat) (seen : τ) : run setup observe limit seen m = (.fault f m.pc, seen, m) := by
  rw [run, fetched]

theorem run_zero_of_fetch {m : Machine σ} {op : Opcode} (fetched : setup.code.fetch m.pc = .ok op)
    (seen : τ) : run setup observe 0 seen m = (.exhausted, seen, m) := by
  rw [run, fetched]

theorem run_of_fetch {m m' : Machine σ} {op : Opcode} (fetched : setup.code.fetch m.pc = .ok op)
    (stepped : next setup m = .next m') (limit : Nat) (seen : τ) :
    run setup observe (limit + 1) seen m = run setup observe limit (observe seen (m.event op)) m' := by
  have made : m.step setup op = .next m' := (next_of_fetch fetched).symm.trans stepped
  rw [run, fetched]
  simp only [made]

theorem run_of_next {m m' : Machine σ} (stepped : next setup m = .next m') (limit : Nat) (seen : τ) :
    ∃ seen', run setup observe (limit + 1) seen m = run setup observe limit seen' m' := by
  obtain ⟨op, fetched, _⟩ := fetch_of_next stepped
  exact ⟨_, run_of_fetch observe fetched stepped limit seen⟩

theorem run_zero_of_next {m m' : Machine σ} (step : next setup m = .next m') (seen : τ) :
    run setup observe 0 seen m = (.exhausted, seen, m) := by
  obtain ⟨op, fetched, _⟩ := fetch_of_next step
  exact run_zero_of_fetch observe fetched seen

theorem run_of_fetch_halt {m m' : Machine σ} {op : Opcode} {why : Halt}
    (fetched : setup.code.fetch m.pc = .ok op) (halted : next setup m = .halt why m') (limit : Nat)
    (seen : τ) :
    run setup observe (limit + 1) seen m = (why, observe seen (m.event op), m') := by
  have made : m.step setup op = .halt why m' := (next_of_fetch fetched).symm.trans halted
  rw [run, fetched]
  simp only [made]

theorem run_of_halt {m m' : Machine σ} {why : Halt} (halted : next setup m = .halt why m')
    (limit : Nat) (seen : τ) :
    ∃ seen', run setup observe (limit + 1) seen m = (why, seen', m') := by
  cases fetched : setup.code.fetch m.pc with
  | error f =>
    cases halted.symm.trans (next_of_fetch_error fetched)
    exact ⟨seen, run_of_fetch_error observe fetched _ seen⟩
  | ok op => exact ⟨_, run_of_fetch_halt observe fetched halted limit seen⟩

theorem run_of_reaches {n : Nat} {m m' : Machine σ} (path : Reaches setup n m m') (limit : Nat)
    (seen : τ) : ∃ seen', run setup observe (limit + n) seen m = run setup observe limit seen' m' := by
  induction path generalizing seen with
  | refl m => exact ⟨seen, rfl⟩
  | head step _ ih =>
    obtain ⟨seen₁, first⟩ := run_of_next observe step _ seen
    obtain ⟨seen₂, rest⟩ := ih seen₁
    exact ⟨seen₂, first.trans rest⟩

theorem run_add (limit more : Nat) (seen : τ) (m : Machine σ) :
    run setup observe (limit + more) seen m =
      if (run setup observe limit seen m).1 = .exhausted then
        run setup observe more (run setup observe limit seen m).2.1
          (run setup observe limit seen m).2.2
      else run setup observe limit seen m := by
  induction limit generalizing seen m with
  | zero =>
    rw [Nat.zero_add]
    cases fetched : setup.code.fetch m.pc with
    | error f =>
      rw [run_of_fetch_error observe fetched, run_of_fetch_error observe fetched, if_neg nofun]
    | ok op => rw [run_zero_of_fetch observe fetched, if_pos rfl]
  | succ limit ih =>
    rw [Nat.add_right_comm]
    cases fetched : setup.code.fetch m.pc with
    | error f =>
      rw [run_of_fetch_error observe fetched, run_of_fetch_error observe fetched, if_neg nofun]
    | ok op =>
      cases stepped : next setup m with
      | halt why m' =>
        rw [run_of_fetch_halt observe fetched stepped, run_of_fetch_halt observe fetched stepped,
          if_neg (next_ne_exhausted stepped)]
      | next m' =>
        rw [run_of_fetch observe fetched stepped, run_of_fetch observe fetched stepped]
        exact ih _ m'

theorem run_exhausted {n limit : Nat} {m m' : Machine σ} (path : Reaches setup n m m')
    (long : limit < n) (seen : τ) :
    ∃ seen' m'', run setup observe limit seen m = (.exhausted, seen', m'') := by
  induction path generalizing limit seen with
  | refl m => exact absurd long (Nat.not_lt_zero _)
  | @head k m m₁ m₂ step rest ih =>
    cases limit with
    | zero => exact ⟨seen, m, run_zero_of_next observe step seen⟩
    | succ limit =>
      obtain ⟨seen₁, first⟩ := run_of_next observe step limit seen
      obtain ⟨seen₂, m'', last⟩ := ih (Nat.lt_of_succ_lt_succ long) seen₁
      exact ⟨seen₂, m'', first.trans last⟩

theorem run_cases {keeps : τ → Machine σ → Prop} {ends : Halt → Machine σ → Prop}
    (one : ∀ seen m, keeps seen m → (∃ why m', next setup m = .halt why m' ∧ ends why m') ∨
      ∃ op m', setup.code.fetch m.pc = .ok op ∧ next setup m = .next m' ∧
        keeps (observe seen (m.event op)) m')
    (limit : Nat) (seen : τ) {m : Machine σ} (first : keeps seen m) :
    ∃ why seen' m', run setup observe limit seen m = (why, seen', m') ∧
      ((why = .exhausted ∧ keeps seen' m') ∨ ends why m') := by
  induction limit generalizing seen m with
  | zero =>
    rw [run]
    cases fetched : setup.code.fetch m.pc with
    | ok op => exact ⟨.exhausted, seen, m, rfl, Or.inl ⟨rfl, first⟩⟩
    | error f =>
      have halted := next_of_fetch_error fetched
      rcases one seen m first with ⟨why, m', halted', ended⟩ | ⟨op, m', fetched', _, _⟩
      · cases halted.symm.trans halted'
        exact ⟨_, seen, m, rfl, Or.inr ended⟩
      · cases fetched.symm.trans fetched'
  | succ limit ih =>
    rcases one seen m first with ⟨why, m', halted, ended⟩ | ⟨op, m', fetched, stepped, kept⟩
    · obtain ⟨seen', last⟩ := run_of_halt observe halted limit seen
      exact ⟨why, seen', m', last, Or.inr ended⟩
    · obtain ⟨why, seen', m'', ran, result⟩ := ih _ kept
      exact ⟨why, seen', m'', (run_of_fetch observe fetched stepped limit seen).trans ran, result⟩

theorem kept_of_run {keeps : Machine σ → Prop}
    (step : ∀ m m', keeps m → next setup m = .next m' → keeps m') {limit : Nat} {seen seen' : τ}
    {m m' : Machine σ} (first : keeps m)
    (ran : run setup observe limit seen m = (.exhausted, seen', m')) : keeps m' := by
  have one : ∀ (seen : τ) (m : Machine σ), keeps m →
      (∃ why m', next setup m = .halt why m' ∧ why ≠ .exhausted) ∨
        ∃ op m', setup.code.fetch m.pc = .ok op ∧ next setup m = .next m' ∧ keeps m' := by
    intro seen m kept
    cases stepped : next setup m with
    | halt why m' => exact Or.inl ⟨why, m', rfl, next_ne_exhausted stepped⟩
    | next m' =>
      obtain ⟨op, fetched, _⟩ := fetch_of_next stepped
      exact Or.inr ⟨op, m', fetched, rfl, step m m' kept stepped⟩
  obtain ⟨why, seen'', m'', ran', result⟩ := run_cases observe one limit seen first
  cases ran.symm.trans ran'
  rcases result with ⟨_, kept⟩ | other
  · exact kept
  · exact absurd rfl other

def Ends (setup : Setup σ) (m : Machine σ) (why : Halt) (m' : Machine σ) : Prop :=
  ∃ n m₁, Reaches setup n m m₁ ∧ next setup m₁ = .halt why m'

theorem Reaches.ends {n : Nat} {m m₁ m' : Machine σ} {why : Halt} (path : Reaches setup n m m₁)
    (ends : Ends setup m₁ why m') : Ends setup m why m' := by
  obtain ⟨k, m₂, rest, last⟩ := ends
  exact ⟨n + k, m₂, path.trans rest, last⟩

theorem Ends.exists_steps {m m' : Machine σ} {why : Halt} (ends : Ends setup m why m') :
    ∃ steps, ∀ {τ : Type} (observe : τ → Event → τ) (limit : Nat), steps ≤ limit → ∀ seen,
      ∃ seen', run setup observe limit seen m = (why, seen', m') := by
  obtain ⟨n, m₁, path, last⟩ := ends
  refine ⟨n + 1, fun observe limit long seen => ?_⟩
  obtain ⟨seen₁, first⟩ := run_of_reaches observe path (limit - (n + 1) + 1) seen
  obtain ⟨seen₂, rest⟩ := run_of_halt observe last (limit - (n + 1)) seen₁
  have whole : limit - (n + 1) + 1 + n = limit := by omega
  rw [whole] at first
  exact ⟨seen₂, first.trans rest⟩

theorem Ends.exists_run {m m' : Machine σ} {why : Halt} (ends : Ends setup m why m') (seen : τ) :
    ∃ limit seen', run setup observe limit seen m = (why, seen', m') := by
  obtain ⟨steps, runs⟩ := ends.exists_steps
  exact ⟨steps, runs observe steps (Nat.le_refl steps) seen⟩

theorem Ends.of_run {limit : Nat} {m m₁ m' : Machine σ} {why why₁ : Halt} {seen seen' : τ}
    (ends : Ends setup m why m') (ran : run setup observe limit seen m = (why₁, seen', m₁))
    (final : why₁ ≠ .exhausted) : why₁ = why ∧ m₁ = m' := by
  obtain ⟨n, m₂, path, last⟩ := ends
  induction path generalizing limit seen with
  | refl m =>
    cases limit with
    | zero =>
      -- Without a step left only a fetch that fails ends a run.
      rw [run] at ran
      cases fetched : setup.code.fetch m.pc with
      | error f =>
        rw [fetched] at ran
        cases ran
        cases last.symm.trans (next_of_fetch_error fetched)
        exact ⟨rfl, rfl⟩
      | ok op =>
        rw [fetched] at ran
        cases ran
        exact absurd rfl final
    | succ limit =>
      obtain ⟨seen₁, once⟩ := run_of_halt observe last limit seen
      cases ran.symm.trans once
      exact ⟨rfl, rfl⟩
  | head step rest ih =>
    cases limit with
    | zero =>
      cases ran.symm.trans (run_zero_of_next observe step seen)
      exact absurd rfl final
    | succ limit =>
      obtain ⟨seen₁, once⟩ := run_of_next observe step limit seen
      exact ih (once.symm.trans ran) last

end

end Machine

end Tally
