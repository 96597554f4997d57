import Tally.Proofs.Machine.Traces
import Tally.Proofs.Machine.Traps

namespace Tally

variable {α β : Type}

def leftBy (r : EStateM.Result Trap (Machine Memory) α) : Machine Memory :=
  match r with
  | .ok _ m | .error _ m => m

namespace Exec

/-- Work that does the same as other work, or is cut short by a full stack. The other work takes
back nothing of what was written. -/
structure Curtails (narrow wide : Exec Memory α) : Prop where
  grows : ∀ m, m.host.output <+: (leftBy (wide m)).host.output
  agrees : ∀ m, narrow m = wide m ∨ ∃ m', narrow m = .error (.fault .stackOverflow none) m' ∧
    m'.host.output <+: (leftBy (wide m)).host.output

theorem Curtails.bind {narrow wide : Exec Memory α} {f g : α → Exec Memory β}
    (first : Curtails narrow wide) (rest : ∀ a, Curtails (f a) (g a)) :
    Curtails (narrow >>= f) (wide >>= g) := by
  have more : ∀ m, (leftBy (wide m)).host.output <+: (leftBy ((wide >>= g) m)).host.output := by
    intro m
    cases done : wide m with
    | ok a m' =>
      rw [bind_of_ok done]
      exact (rest a).grows m'
    | error t m' =>
      rw [bind_of_error done]
      exact List.prefix_rfl
  refine ⟨fun m => (first.grows m).trans (more m), fun m => ?_⟩
  rcases first.agrees m with same | ⟨m', full, written⟩
  · cases done : wide m with
    | ok a m' =>
      rw [bind_of_ok (same.trans done), bind_of_ok done]
      exact (rest a).agrees m'
    | error t m' =>
      rw [bind_of_error (same.trans done), bind_of_error done]
      exact Or.inl rfl
  · exact Or.inr ⟨m', bind_of_error full, written.trans (more m)⟩

theorem curtails_of_grows {act : Exec Memory α}
    (grows : ∀ m, m.host.output <+: (leftBy (act m)).host.output) : Curtails act act :=
  ⟨grows, fun _ => Or.inl rfl⟩

theorem curtails_of_still {act : Exec Memory α} (still : ∀ m, (leftBy (act m)).host = m.host) :
    Curtails act act := by
  refine curtails_of_grows fun m => ?_
  have same : (leftBy (act m)).host.output = m.host.output := congrArg Memory.output (still m)
  exact same ▸ List.prefix_rfl

theorem curtails_pure (a : α) : Curtails (pure a) (pure a) := curtails_of_still fun _ => rfl

theorem Curtails.map {narrow wide : Exec Memory α} (first : Curtails narrow wide) (f : α → β) :
    Curtails (f <$> narrow) (f <$> wide) := by
  rw [map_eq_pure_bind, map_eq_pure_bind]
  exact first.bind fun a => curtails_pure (f a)

theorem curtails_throw (t : Trap) : Curtails (throw t : Exec Memory α) (throw t) :=
  curtails_of_still fun _ => rfl

theorem curtails_fault (f : Fault) : Curtails (fault f : Exec Memory α) (fault f) :=
  curtails_throw _

theorem curtails_get : Curtails (get : Exec Memory (Machine Memory)) get :=
  curtails_of_still fun _ => rfl

theorem curtails_height : Curtails height height := curtails_of_still fun _ => rfl

theorem curtails_advance (pc : Nat) : Curtails (advance pc) (advance pc) :=
  curtails_of_still fun _ => rfl

theorem curtails_pop : Curtails pop pop := by
  apply curtails_of_still
  rintro ⟨pc, stack, host⟩
  unfold pop
  dsimp only
  cases stack.pop? <;> simp only <;> rfl

theorem curtails_popInt : Curtails popInt popInt := by
  refine curtails_pop.bind fun v => ?_
  cases v with
  | int z => exact curtails_pure z
  | native _ | address _ => exact curtails_fault _

theorem curtails_peek (depth : Nat) : Curtails (peek depth) (peek depth) := by
  refine curtails_get.bind fun m => ?_
  cases m.stack.peek? depth with
  | some v => exact curtails_pure v
  | none => exact curtails_fault _

theorem curtails_requireHeight (n : Nat) : Curtails (requireHeight n) (requireHeight n) := by
  refine curtails_height.bind fun height => ?_
  by_cases low : height < n
  · rw [if_pos low]
    exact curtails_fault _
  · rw [if_neg low]
    exact curtails_pure _

theorem curtails_drop (n : Nat) : Curtails (drop n) (drop n) :=
  (curtails_requireHeight n).bind fun _ => curtails_of_still fun _ => rfl

theorem curtails_jump (target : Number) : Curtails (jump target) (jump target) := by
  unfold jump
  cases target.toNat? with
  | some pc => exact curtails_advance pc
  | none => exact curtails_throw _

theorem curtails_askHost {act : Memory → Except String Int × Memory}
    (grows : ∀ s, s.output <+: (act s).2.output) : Curtails (askHost act) (askHost act) := by
  apply curtails_of_grows
  rintro ⟨pc, stack, host⟩
  have written := grows host
  unfold askHost
  dsimp only
  generalize act host = answer at written
  match answer with
  | (.ok _, _) | (.error _, _) => exact written

theorem host_push (capacity : Nat) (v : Value) (m : Machine Memory) :
    (leftBy (push capacity v m)).host = m.host := by
  obtain ⟨pc, stack, host⟩ := m
  unfold push
  dsimp only
  split <;> rfl

theorem curtails_push {low high : Nat} (le : low ≤ high) (v : Value) :
    Curtails (push low v) (push high v) := by
  have grows := (curtails_of_still (host_push high v)).grows
  refine ⟨grows, ?_⟩
  rintro ⟨pc, stack, host⟩
  by_cases room : stack.height < low
  · refine Or.inl ?_
    unfold push
    dsimp only
    rw [if_pos room, if_pos (Nat.lt_of_lt_of_le room le)]
  · exact Or.inr ⟨_, if_neg room, grows ⟨pc, stack, host⟩⟩

end Exec

namespace Setup

open Exec

variable {code : Code} {low high args : Nat} (le : low ≤ high)
include le

theorem curtails_printInt : Curtails ((printInt Memory.channel).exec low)
    ((printInt Memory.channel).exec high) :=
  curtails_popInt.bind fun z =>
    (curtails_askHost fun s => s.output_prefix_write z.toInt).bind fun _ =>
      (curtails_push le _).bind fun _ => curtails_pure _

theorem curtails_readInt : Curtails ((readInt Memory.channel).exec low)
    ((readInt Memory.channel).exec high) :=
  (curtails_askHost fun s => s.output_read ▸ List.prefix_rfl).bind fun _ =>
    (curtails_push le _).bind fun _ => curtails_pure _

theorem curtails_atWork (n : Native) :
    Curtails ((inMemory code low).atWork n) ((inMemory code high).atWork n) := by
  by_cases print : n.primitive = "print_int"
  · rw [atWork_of_asked (Machine.asked_print print), atWork_of_asked (Machine.asked_print print)]
    exact curtails_printInt le
  by_cases read : n.primitive = "read_int"
  · rw [atWork_of_asked (Machine.asked_read read), atWork_of_asked (Machine.asked_read read)]
    exact curtails_readInt le
  · unfold atWork
    rw [Machine.asked_other print read, Machine.asked_other print read]
    exact curtails_throw _

theorem curtails_callNative (n : Native) :
    Curtails ((inMemory code low).callNative n args) ((inMemory code high).callNative n args) := by
  rw [callNative_eq_atWork, callNative_eq_atWork]
  by_cases arity : n.arity = args
  · rw [if_neg (not_not_intro arity), if_neg (not_not_intro arity)]
    refine (curtails_requireHeight args).bind fun _ => curtails_height.bind fun before =>
      (curtails_atWork le n).bind fun _ => curtails_height.bind fun after => ?_
    by_cases balanced : after = before - args + 1
    · rw [if_neg (not_not_intro balanced)]
      exact curtails_pure _
    · rw [if_pos balanced]
      exact curtails_fault _
  · rw [if_pos arity, if_pos arity]
    exact curtails_fault _

theorem curtails_callFunction (a : Number) : Curtails ((inMemory code low).callFunction a args)
    ((inMemory code high).callFunction a args) := by
  unfold callFunction
  have same : (inMemory code low).code = (inMemory code high).code := rfl
  rw [same]
  cases (inMemory code high).code.functionAt? a with
  | none => exact curtails_fault _
  | some f =>
    by_cases arity : f.arity = args
    · simp only [if_neg (not_not_intro arity)]
      exact (curtails_requireHeight args).bind fun _ => curtails_get.bind fun m =>
        (curtails_push le _).bind fun _ => curtails_jump a
    · simp only [if_pos arity]
      exact curtails_fault _

theorem curtails_call : Curtails ((inMemory code low).call args) ((inMemory code high).call args) := by
  refine curtails_pop.bind fun v => ?_
  cases v with
  | native n => exact curtails_callNative le n
  | address a => exact curtails_callFunction le a
  | int z => exact curtails_fault _

theorem curtails_ret (depth : Nat) :
    Curtails ((inMemory code low).ret depth args) ((inMemory code high).ret depth args) := by
  refine curtails_pop.bind fun result => (curtails_drop depth).bind fun _ =>
    curtails_pop.bind fun back => ?_
  cases back with
  | address a =>
    exact (curtails_drop args).bind fun _ => (curtails_push le result).bind fun _ => curtails_jump a
  | native _ | int _ => exact curtails_fault _

theorem curtails_add : Curtails (inMemory code low).add (inMemory code high).add := by
  refine curtails_pop.bind fun right => curtails_pop.bind fun left => ?_
  cases left with
  | int a =>
    cases right with
    | int b => exact curtails_push le _
    | native _ | address _ => exact curtails_fault _
  | native _ | address _ => exact curtails_fault _

omit le in
theorem curtails_readOn {read : Reader → Except OutsideCode (α × Reader)} :
    Curtails ((inMemory code low).readOn read) ((inMemory code high).readOn read) := by
  apply curtails_of_still
  rintro ⟨pc, stack, host⟩
  unfold readOn
  dsimp only
  cases read ⟨(inMemory code low).code, pc⟩ <;> rfl

omit le in
theorem curtails_decode (op : Opcode) :
    Curtails ((inMemory code low).decode op) ((inMemory code high).decode op) := by
  cases op with
  | pop | add | stop => exact curtails_pure _
  | pushFunc | pushNative | peek | call | jumpFalse | jump | pushInt =>
    exact curtails_readOn.map _
  | ret =>
    exact curtails_readOn.bind fun depth => curtails_readOn.bind fun args => curtails_pure _

theorem curtails_perform (i : Instr Nat) :
    Curtails ((inMemory code low).perform i) ((inMemory code high).perform i) := by
  cases i with
  | pushFunc target => exact curtails_push le _
  | pushNative index =>
    have bound : ∀ capacity, (inMemory code capacity).code.natives[index]? = code.natives[index]? :=
      fun _ => rfl
    unfold perform
    dsimp only
    rw [bound low, bound high]
    cases code.natives[index]? with
    | some n => exact curtails_push le _
    | none => exact curtails_fault _
  | pushInt z => exact curtails_push le _
  | peek depth => exact (curtails_peek depth).bind fun v => curtails_push le v
  | pop => exact curtails_pop.bind fun _ => curtails_pure _
  | add => exact curtails_add le
  | call args => exact curtails_call le
  | ret depth args => exact curtails_ret le depth
  | jumpFalse target =>
    refine curtails_pop.bind fun v => ?_
    cases v.truthy with
    | true => exact curtails_pure _
    | false => exact curtails_advance target
  | jump target => exact curtails_advance target
  | stop => exact curtails_pure _

theorem curtails_execute (pc : Nat) (op : Opcode) :
    Curtails ((inMemory code low).execute pc op) ((inMemory code high).execute pc op) :=
  (curtails_advance _).bind fun _ => (curtails_decode op).bind fun i => curtails_perform le i

end Setup

namespace Machine

variable {code : Code} {low high capacity limit : Nat} {m m' : Machine Memory} {op : Opcode}

def Step.machine : Step Memory → Machine Memory
  | .next m | .halt _ m => m

structure Step.Curtails (pc : Nat) (written : List Int) (narrow wide : Step Memory) : Prop where
  grows : written <+: wide.machine.host.output
  agrees : narrow = wide ∨ ∃ m', narrow = .halt (.fault .stackOverflow pc) m' ∧
    m'.host.output <+: wide.machine.host.output

theorem Step.Curtails.refl {pc : Nat} {written : List Int} {s : Step Memory}
    (grows : written <+: s.machine.host.output) : Step.Curtails pc written s s :=
  ⟨grows, Or.inl rfl⟩

theorem curtails_ofResult {narrow wide : Exec Memory Unit} (curtails : narrow.Curtails wide)
    (length pc : Nat) (m : Machine Memory) :
    Step.Curtails pc m.host.output (.ofResult length pc (narrow m)) (.ofResult length pc (wide m)) := by
  have same : (Step.ofResult length pc (wide m)).machine = leftBy (wide m) := by
    cases wide m <;> rfl
  constructor
  · rw [same]
    exact curtails.grows m
  · rw [same]
    rcases curtails.agrees m with equal | ⟨m', full, written⟩
    · exact Or.inl (congrArg _ equal)
    · exact Or.inr ⟨m', congrArg _ full, written⟩

/-- A step with less room is the same step, or finds the stack full. -/
theorem next_curtails (le : low ≤ high) (m : Machine Memory) :
    Step.Curtails m.pc m.host.output (next (.inMemory code low) m)
      (next (.inMemory code high) m) := by
  unfold next
  have same : (Setup.inMemory code low).code = (Setup.inMemory code high).code := rfl
  rw [same]
  cases (Setup.inMemory code high).code.fetch m.pc with
  | error f => exact .refl List.prefix_rfl
  | ok op =>
    dsimp only
    rw [step_eq, step_eq]
    by_cases stops : op = .stop
    · rw [if_pos stops, if_pos stops]
      exact .refl List.prefix_rfl
    · rw [if_neg stops, if_neg stops]
      exact curtails_ofResult (Setup.curtails_execute le m.pc op) _ _ m

theorem output_prefix_next (m : Machine Memory) :
    m.host.output <+: (next (.inMemory code capacity) m).machine.host.output :=
  (next_curtails (Nat.le_refl capacity) m).grows

theorem run_grows (seen : List Event) (m : Machine Memory) :
    seen <+: (run (.inMemory code capacity) record limit seen m).2.1 ∧
      m.host.output <+: (run (.inMemory code capacity) record limit seen m).2.2.host.output := by
  generalize ran : run (.inMemory code capacity) record limit seen m = result
  obtain ⟨why, seen', m'⟩ := result
  obtain ⟨es, m₁, tail, path, closes, same⟩ := traces_of_run ran
  rw [foldl_record] at same
  refine ⟨⟨_, same.symm⟩, ?_⟩
  have step : ∀ m₂ m₃ : Machine Memory, m.host.output <+: m₂.host.output →
      next (.inMemory code capacity) m₂ = .next m₃ → m.host.output <+: m₃.host.output := by
    intro m₂ m₃ before stepped
    have grows : m₂.host.output <+: (next (.inMemory code capacity) m₂).machine.host.output :=
      output_prefix_next m₂
    rw [stepped] at grows
    exact before.trans grows
  have written := path.keeps step List.prefix_rfl
  cases closes with
  | exhausted _ | unfetched _ => exact written
  | halted _ last =>
    have grows : m₁.host.output <+: (next (.inMemory code capacity) m₁).machine.host.output :=
      output_prefix_next m₁
    rw [last] at grows
    exact written.trans grows

/-- A run that comes to an end does what another one does, unless it finds the stack full and is
cut short. -/
structure Shortens (narrow wide : Halt × List Event × Machine Memory) : Prop where
  seen : narrow.2.1 <+: wide.2.1
  written : narrow.2.2.host.output <+: wide.2.2.host.output
  roomy : narrow.1 ≠ .exhausted → (∀ pc, narrow.1 ≠ .fault .stackOverflow pc) → narrow = wide

theorem Shortens.of_eq {narrow wide : Halt × List Event × Machine Memory} (same : narrow = wide) :
    Shortens narrow wide := by
  subst same
  exact ⟨List.prefix_rfl, List.prefix_rfl, fun _ _ => rfl⟩

theorem run_shortens (le : low ≤ high) (limit : Nat) (seen : List Event) (m : Machine Memory) :
    Shortens (run (.inMemory code low) record limit seen m)
      (run (.inMemory code high) record limit seen m) := by
  have fetches : ∀ capacity pc, (Setup.inMemory code capacity).code.fetch pc = code.fetch pc :=
    fun _ _ => rfl
  induction limit generalizing seen m with
  | zero =>
    apply Shortens.of_eq
    rw [run, run]
    rfl
  | succ limit ih =>
    cases fetched : code.fetch m.pc with
    | error f =>
      apply Shortens.of_eq
      rw [run_of_fetch_error record ((fetches low _).trans fetched),
        run_of_fetch_error record ((fetches high _).trans fetched)]
    | ok op =>
      have narrow := (fetches low _).trans fetched
      have wide := (fetches high _).trans fetched
      rcases (next_curtails le m).agrees with same | ⟨m', full, written⟩
      · cases stepped : next (.inMemory code high) m with
        | halt why m₁ =>
          apply Shortens.of_eq
          rw [run_of_fetch_halt record narrow (same.trans stepped),
            run_of_fetch_halt record wide stepped]
        | next m₁ =>
          rw [run_of_fetch record narrow (same.trans stepped), run_of_fetch record wide stepped]
          exact ih _ m₁
      · -- The run with more room may go on; it only adds to what there is.
        rw [run_of_fetch_halt record narrow full]
        cases stepped : next (.inMemory code high) m with
        | halt why m₁ =>
          rw [stepped] at written
          rw [run_of_fetch_halt record wide stepped]
          exact ⟨List.prefix_rfl, written, fun _ roomy => absurd rfl (roomy m.pc)⟩
        | next m₁ =>
          rw [stepped] at written
          rw [run_of_fetch record wide stepped]
          obtain ⟨seenOn, writtenOn⟩ := run_grows (record seen (m.event op)) m₁
          exact ⟨seenOn, written.trans writtenOn, fun _ roomy => absurd rfl (roomy m.pc)⟩

theorem run_add_shortens (limit more : Nat) (seen : List Event) (m : Machine Memory) :
    Shortens (run (.inMemory code capacity) record limit seen m)
      (run (.inMemory code capacity) record (limit + more) seen m) := by
  rw [run_add]
  by_cases exhausted : (run (.inMemory code capacity) record limit seen m).1 = .exhausted
  · rw [if_pos exhausted]
    obtain ⟨seenOn, writtenOn⟩ := run_grows (run (.inMemory code capacity) record limit seen m).2.1
      (run (.inMemory code capacity) record limit seen m).2.2
    exact ⟨seenOn, writtenOn, fun ended => absurd exhausted ended⟩
  · rw [if_neg exhausted]
    exact .of_eq rfl

theorem Shortens.trans {first second third : Halt × List Event × Machine Memory}
    (one : Shortens first second) (other : Shortens second third) : Shortens first third := by
  refine ⟨one.seen.trans other.seen, one.written.trans other.written, fun ended roomy => ?_⟩
  have same := one.roomy ended roomy
  rw [same] at ended roomy ⊢
  exact other.roomy ended roomy

/-- Less room on the stack cuts a run short and does nothing else, however long the run with more
room goes on. -/
theorem run_with_less_room (le : low ≤ high) (inputs : List Int) (limit more : Nat) :
    Shortens (run (.inMemory code low) record limit [] (.start (.ofInputs inputs)))
      (run (.inMemory code high) record (limit + more) [] (.start (.ofInputs inputs))) :=
  (run_shortens le limit [] _).trans (run_add_shortens limit more [] _)

def printingCode : Code :=
  ⟨((Instr.pushInt 5).bytes ++ (Instr.pushNative 0).bytes ++ (Instr.call 1).bytes ++
    (Instr.pushInt 6).bytes ++ (Instr.pushInt 7).bytes ++ Instr.stop.bytes).toArray,
    #[⟨"print", "print_int", 1⟩], [], "sample"⟩

theorem run_with_less_room_sample :
    (run (.inMemory printingCode 2) record 9 [] (.start (.ofInputs []))).1 =
        .fault .stackOverflow 28 ∧
      (run (.inMemory printingCode 2) record 9 [] (.start (.ofInputs []))).2.2.host.output <+:
        (run (.inMemory printingCode 3) record 9 [] (.start (.ofInputs []))).2.2.host.output ∧
      run (.inMemory printingCode 3) record 9 [] (.start (.ofInputs [])) =
        run (.inMemory printingCode 4) record 14 [] (.start (.ofInputs [])) := by
  have short := @run_with_less_room printingCode 2 3 (by decide) [] 9 0
  have long := @run_with_less_room printingCode 3 4 (by decide) [] 9 5
  have stopped : (run (.inMemory printingCode 3) record 9 [] (.start (.ofInputs []))).1 = .stopped :=
    rfl
  refine ⟨rfl, short.written, long.roomy (fun exhausted => ?_) fun pc full => ?_⟩
  · cases stopped.symm.trans exhausted
  · cases stopped.symm.trans full

end Machine

end Tally
