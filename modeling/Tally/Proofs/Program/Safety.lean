import Tally.Proofs.Machine.Calls
import Tally.Proofs.Machine.Marks
import Tally.Proofs.Program.Planned

namespace Tally

open Machine (on)

/-- A machine about to execute an instruction that respects the marks of its stack. -/
structure Machine.Disciplined {σ : Type} (c : Code) (marks : List Bool) (m : Machine σ) : Prop where
  length : marks.length = m.stack.height
  respects : ∃ i, c.HasInstr m.pc i ∧ i.Respects marks

theorem Code.HasInstr.mark {c : Code} {pc : Nat} {i : Instr Nat} (here : c.HasInstr pc i)
    (marks : List Bool) (vs : List Value) (host : Memory) :
    c.mark marks ((on pc vs host).event i.opcode) = i.mark vs.head? marks := by
  have operands : c.operandsAt (((on pc vs host).event i.opcode).pc + 1)
      ((on pc vs host).event i.opcode).op = .ok i := here.operands
  unfold Code.mark
  rw [operands]
  rfl

namespace Plan

variable {k : Plan} {capacity : Nat}

/-- A machine that stands among activations, with marks on the places to return to. -/
def Keeps (k : Plan) (capacity : Nat) (marks : List Bool) (m : Machine Memory) : Prop :=
  ∃ pc a host, m = on pc a.values host ∧ marks = a.marks ∧ k.Stands capacity pc a

theorem keeps_start (sound : k.Sound) (host : Memory) : k.Keeps capacity [] (.start host) :=
  ⟨0, .top [], host, rfl, rfl, sound.start, fun _ member => absurd member List.not_mem_nil,
    Nat.zero_le _⟩

/-- One step keeps the activations and their marks, or ends the run. -/
theorem Keeps.step (sound : k.Sound) {marks : List Bool} {m : Machine Memory}
    (kept : k.Keeps capacity marks m) :
    (∃ why m', m.next (.inMemory k.code capacity) = .halt why m' ∧ Machine.Finished why m') ∨
      ∃ op m', k.code.fetch m.pc = .ok op ∧ m.next (.inMemory k.code capacity) = .next m' ∧
        k.Keeps capacity (k.code.mark marks (m.event op)) m' := by
  obtain ⟨pc, a, host, rfl, rfl, stands⟩ := kept
  rcases stands.goes sound host with ended | ⟨i, pc', a', host', here, stepped, moves, stands'⟩
  · exact Or.inl ended
  · refine Or.inr ⟨i.opcode, _, here.fetch, stepped, pc', a', host', rfl, ?_, stands'⟩
    rw [here.mark a.marks a.values host]
    exact moves.mark

theorem keeps_of_run (sound : k.Sound) {τ : Type} {observe : τ → Event → τ} {limit : Nat}
    {seen seen' : τ} {host : Memory} {m : Machine Memory}
    (ran : Machine.run (.inMemory k.code capacity) observe limit seen (.start host) =
      (.exhausted, seen', m)) : ∃ marks, k.Keeps capacity marks m := by
  have step : ∀ m m', (∃ marks, k.Keeps capacity marks m) →
      m.next (.inMemory k.code capacity) = .next m' → ∃ marks, k.Keeps capacity marks m' := by
    rintro m m' ⟨marks, kept⟩ stepped
    rcases kept.step sound with ⟨why, m₁, halted, _⟩ | ⟨op, m₁, _, stepped', kept'⟩
    · cases stepped.symm.trans halted
    · cases stepped.symm.trans stepped'
      exact ⟨_, kept'⟩
  exact Machine.kept_of_run observe step ⟨[], keeps_start sound host⟩ ran

theorem Keeps.disciplined {marks : List Bool} {m : Machine Memory}
    (kept : k.Keeps capacity marks m) : m.Disciplined k.code marks := by
  obtain ⟨pc, a, host, rfl, rfl, stands⟩ := kept
  obtain ⟨i, depth', here, counted, _⟩ := stands.site.cases
  rw [← i.depthAfter_map k.addr] at counted
  exact ⟨a.length_marks, i.map k.addr, here, Instr.respects_of_counted counted⟩

end Plan

/-- Runs of the code of a program that was read and keeps the rules. -/
theorem Program.run_disciplined {text filename : String} {p : Program} {c : Code}
    (read : Program.parse text = .ok p) (kept : p.violations = []) (binds : p.BindsBuiltins)
    (compiled : p.compile (Registry.builtins Memory.channel).knows filename = .ok c)
    (inputs : List Int) (capacity limit : Nat) :
    ∃ why marks m, Machine.run (.inMemory c capacity) c.mark limit [] (.start (.ofInputs inputs)) =
        (why, marks, m) ∧
      ((why = .exhausted ∧ m.Disciplined c marks) ∨ Machine.Finished why m) := by
  have fit := literalsFit_of_parse read
  obtain ⟨d, addr, of, linked⟩ := linked_of_compile kept fit compiled
  have sound := plan_sound of kept fit binds linked
  have start : Plan.Keeps _ capacity [] _ := Plan.keeps_start sound (.ofInputs inputs)
  obtain ⟨why, marks, m, ran, result⟩ :=
    Machine.run_cases c.mark (fun _ _ kept => Plan.Keeps.step sound kept) limit [] start
  refine ⟨why, marks, m, ran, ?_⟩
  rcases result with ⟨exhausted, kept⟩ | finished
  · exact Or.inl ⟨exhausted, kept.disciplined⟩
  · exact Or.inr finished

theorem Program.run_disciplined_sample : ∃ p, Program.parse sampleText = .ok p ∧ p.violations = [] ∧
    p.BindsBuiltins ∧ p.compile (Registry.builtins Memory.channel).knows "sample" = .ok sampleCode ∧
      ∃ why marks m, Machine.run (.inMemory sampleCode 100) sampleCode.mark 50 []
          (.start (.ofInputs [])) = (why, marks, m) ∧
        ((why = .exhausted ∧ m.Disciplined sampleCode marks) ∨ Machine.Finished why m) := by
  obtain ⟨p, read, kept, binds, compiled, _⟩ := exists_sample
  have runs := Program.run_disciplined read kept binds compiled [] 100 50
  exact ⟨p, read, kept, binds, compiled, runs⟩

/-- From a call of a function up to its return, the place behind it, the arguments and what is below
them stay; the return puts its result in their place. -/
theorem Program.call_isolated {text filename : String} {p : Program} {c : Code}
    (read : Program.parse text = .ok p) (kept : p.violations = []) (binds : p.BindsBuiltins)
    (compiled : p.compile (Registry.builtins Memory.channel).knows filename = .ok c) {τ : Type}
    (observe : τ → Event → τ) {inputs : List Int} {capacity limit : Nat} {seen seen' : τ}
    {m₀ m₁ : Machine Memory} {entry : Number} {args rest : List Value}
    (ran : Machine.run (.inMemory c capacity) observe limit seen (.start (.ofInputs inputs)) =
      (.exhausted, seen', m₀))
    (call : c.HasInstr m₀.pc (.call args.length))
    (stack : m₀.stack.toList = .address entry :: (args ++ rest))
    (step : m₀.next (.inMemory c capacity) = .next m₁) :
    (∀ level m, Machine.Since (.inMemory c capacity) m₁ level m →
      ∃ temps, m.stack.toList =
        temps ++ .address (m₀.pc + Opcode.call.size : Nat) :: (args ++ rest)) ∧
      ∀ m i, Machine.Since (.inMemory c capacity) m₁ 0 m → c.HasInstr m.pc i → i.IsRet →
        ∃ v m', m.stack.top? = some v ∧ m.next (.inMemory c capacity) = .next m' ∧
          m'.pc = m₀.pc + Opcode.call.size ∧ m'.stack.toList = v :: rest := by
  have fit := literalsFit_of_parse read
  obtain ⟨d, addr, of, linked⟩ := linked_of_compile kept fit compiled
  have sound := plan_sound of kept fit binds linked
  obtain ⟨marks, pc, a, host, rfl, _, stands⟩ := Plan.keeps_of_run sound ran
  obtain ⟨pc', below, host', rfl, same, stands'⟩ := stands.call_of_next sound call stack step
  subst same
  have first : Activations.Above (pc + Opcode.call.size) args below 0 _ := .here []
  constructor
  · intro level m since
    obtain ⟨pc₂, a₂, host₂, rfl, _, above⟩ := stands'.above_of_since sound first since
    exact above.values
  · intro m i since here leaves
    obtain ⟨pc₂, a₂, host₂, rfl, stands₂, above⟩ := stands'.above_of_since sound first since
    obtain ⟨depth, n, rfl⟩ := leaves
    obtain ⟨v, back, values, inner, rfl, _, _, stepped⟩ := stands₂.next_ret host₂ here
    cases above
    exact ⟨v, _, rfl, stepped, rfl, rfl⟩

theorem Program.call_isolated_sample :
    (∀ level m, Machine.Since (.inMemory sampleCode 100)
        (on 26 [.address 24, .native ⟨"print", "print_int", 1⟩, .int 3] (.ofInputs [])) level m →
      ∃ temps, m.stack.toList =
        temps ++ [.address (24 : Nat), .native ⟨"print", "print_int", 1⟩, .int 3]) ∧
      ∀ m i, Machine.Since (.inMemory sampleCode 100)
          (on 26 [.address 24, .native ⟨"print", "print_int", 1⟩, .int 3] (.ofInputs [])) 0 m →
        sampleCode.HasInstr m.pc i → i.IsRet →
          ∃ v m', m.stack.top? = some v ∧ m.next (.inMemory sampleCode 100) = .next m' ∧
            m'.pc = 24 ∧ m'.stack.toList = [v] := by
  obtain ⟨p, read, kept, binds, compiled, _⟩ := exists_sample
  have ran : Machine.run (.inMemory sampleCode 100) (fun _ _ => ()) 3 () (.start (.ofInputs [])) =
      (.exhausted, (), on 19 [.address 26, .native ⟨"print", "print_int", 1⟩, .int 3]
        (.ofInputs [])) := rfl
  have call : sampleCode.HasInstr 19
      (.call [Value.native ⟨"print", "print_int", 1⟩, .int 3].length) := ⟨rfl, rfl⟩
  have stack : (on 19 [.address 26, .native ⟨"print", "print_int", 1⟩, .int 3]
      (Memory.ofInputs [])).stack.toList =
        .address 26 :: ([.native ⟨"print", "print_int", 1⟩, .int 3] ++ []) := rfl
  exact Program.call_isolated read kept binds compiled (fun _ _ => ()) ran call stack rfl

end Tally
