import Tally.Proofs.Program.Approximation
import Tally.Proofs.Program.Outcomes
import Tally.Proofs.Program.Planned
import Tally.Proofs.Program.Statements

namespace Tally

open Machine (on Follows)

section

variable {p : Program} {d : Declarations} {addr : Label → Nat} {c : Code} {capacity bound : Nat}

theorem Prototype.follows_perform (binds : p.BindsBuiltins) {q : Prototype} (member : q ∈ p.prototypes)
    {values : List Datum} {ws : List Value} {n pc : Nat} (vs : List Value) (host : Memory)
    (shows : List.Forall₂ (Datum.Shows p addr) values ws) (length : ws.length = n)
    (here : c.HasInstr pc (.call n)) (arity : q.header.params.length = values.length) :
    Follows (.inMemory c capacity) bound (on pc (.native q.native :: (ws ++ vs)) host)
      (q.perform values) (ShowsAt p addr (pc + Opcode.call.size) vs) := by
  unfold Prototype.perform
  rcases binds q member with ⟨primitive, params⟩ | ⟨primitive, params⟩
  · rw [if_pos primitive]
    have native : q.native.arity = (1 : Nat) := congrArg Nat.cast params
    rw [params] at arity
    cases shows with
    | nil => cases arity
    | @cons v w _ _ first rest =>
      cases rest with
      | cons => cases arity
      | nil =>
        subst length
        cases first with
        | int z =>
          exact .pushed (Machine.next_call_print vs host here native primitive)
            (host.output_prefix_write z.toInt) rfl ⟨_, _, .int z, rfl⟩
        | function here' =>
          exact .fault (Machine.next_call_print_other vs host here native primitive nofun) rfl
        | native member' =>
          exact .fault (Machine.next_call_print_other vs host here native primitive nofun) rfl
  · have other : q.primitive ≠ "print_int" := by
      rw [primitive]
      decide
    rw [if_neg other, if_pos primitive]
    have native : q.native.arity = (0 : Nat) := congrArg Nat.cast params
    rw [params] at arity
    cases shows with
    | cons => cases arity
    | nil =>
      subst length
      have same : host.output <+: host.read.2.output := host.output_read.symm ▸ List.prefix_rfl
      exact .pushed (Machine.next_call_read vs host here native primitive) same rfl
        ⟨_, _, .int _, rfl⟩

theorem Prototype.follows_apply (binds : p.BindsBuiltins) {q : Prototype} (member : q ∈ p.prototypes)
    {values : List Datum} {ws : List Value} {n pc : Nat} (vs : List Value) (host : Memory)
    (shows : List.Forall₂ (Datum.Shows p addr) values ws) (length : ws.length = n)
    (here : c.HasInstr pc (.call n)) (bound : Nat) :
    Follows (.inMemory c capacity) bound (on pc (.native q.native :: (ws ++ vs)) host)
      (Datum.apply p.declared? bound (.native q) values)
      (ShowsAt p addr (pc + Opcode.call.size) vs) := by
  have same : values.length = n := shows.length_eq.trans length
  have applied : Datum.apply p.declared? bound (.native q) values =
      if q.header.params.length = values.length then q.perform values
      else throw (.fault (.nativeArity q.header.name.text q.header.params.length values.length)) := by
    cases bound <;> rfl
  rw [applied]
  by_cases arity : q.header.params.length = values.length
  · rw [if_pos arity]
    exact Prototype.follows_perform binds member vs host shows length here arity
  · have other : q.native.arity ≠ n := by
      rw [same] at arity
      exact fun equal => arity (Rat.natCast_inj.mp equal)
    rw [if_neg arity, same]
    exact .fault (Machine.next_call_native_arity (ws ++ vs) host here other) rfl

theorem Definition.follows_apply (of : d.Of p) (kept : p.violations = []) (fit : p.LiteralsFit)
    (linked : (p.assembled d).LinkedTo addr c)
    (calls : CallsFollow p addr c capacity bound (Datum.apply p.declared? bound)) {l : Label}
    {f : Definition} (found : p.definitions[l]? = some f) {values : List Datum} {ws : List Value}
    {n pc : Nat} (vs : List Value) (host : Memory)
    (shows : List.Forall₂ (Datum.Shows p addr) values ws) (length : ws.length = n)
    (here : c.HasInstr pc (.call n)) :
    Follows (.inMemory c capacity) (bound + 1) (on pc (.address (addr l) :: (ws ++ vs)) host)
      (Datum.apply p.declared? (bound + 1) (.function f) values)
      (ShowsAt p addr (pc + Opcode.call.size) vs) := by
  have same : values.length = n := shows.length_eq.trans length
  have entry := linked.functionAt? of kept fit found
  rw [Datum.apply]
  by_cases arity : f.header.params.length = values.length
  · have keeps := Definition.keeps_of_violations
      (p.kept_definition kept (List.mem_of_getElem? found))
    have sound := f.place_sound of linked.natives keeps.nodup shows arity (pc + Opcode.call.size) vs
    obtain ⟨labels, _, holds⟩ := linked.exists_segment of found
    have enough : n ≤ (ws ++ vs).length := by
      rw [List.length_append]
      omega
    have called : (Machine.next (.inMemory c capacity)
        (on pc (.address (addr l) :: (ws ++ vs)) host)).Pushes _ _ _ _ _ _ :=
      Machine.next_call_function (ws ++ vs) host here entry (congrArg Nat.cast (arity.trans same)) enough
    have body := f.block.follows calls host sound keeps.body holds.2
    rw [if_pos arity]
    refine .push called (body.bind ?_)
    intro result m left
    cases result with
    | some v =>
      obtain ⟨back, rest, exit, shown⟩ := left
      cases exit
      exact .pure shown
    | none =>
      rw [keeps.ends] at left
      cases left.1
  · have other : ((f.header.params.length : Nat) : Number) ≠ n := by
      rw [same] at arity
      exact fun equal => arity (Rat.natCast_inj.mp equal)
    have refused : Machine.next (.inMemory c capacity)
        (on pc (.address (addr l) :: (ws ++ vs)) host) = _ :=
      Machine.next_call_function_arity (ws ++ vs) host here entry other
    rw [if_neg arity, same]
    exact .fault refused rfl

/-- The induction is on the depth of calls inside one another. -/
theorem Datum.follows_apply (of : d.Of p) (kept : p.violations = []) (fit : p.LiteralsFit)
    (binds : p.BindsBuiltins) (linked : (p.assembled d).LinkedTo addr c) (bound : Nat) :
    CallsFollow p addr c capacity bound (Datum.apply p.declared? bound) := by
  induction bound with
  | zero =>
    intro f values w ws n pc vs host shown shows length here
    cases shown with
    | int z =>
      rw [Datum.apply]
      exact .fault (Machine.next_call_int (ws ++ vs) host here) rfl
    | native member => exact Prototype.follows_apply binds member vs host shows length here 0
    | function found =>
      rw [Datum.apply]
      exact .unfinished
  | succ bound ih =>
    intro f values w ws n pc vs host shown shows length here
    cases shown with
    | int z =>
      rw [Datum.apply]
      exact .fault (Machine.next_call_int (ws ++ vs) host here) rfl
    | native member => exact Prototype.follows_apply binds member vs host shows length here _
    | function found =>
      exact Definition.follows_apply of kept fit linked ih found vs host shows length here

theorem Program.follows (of : d.Of p) (kept : p.violations = []) (fit : p.LiteralsFit)
    (binds : p.BindsBuiltins) (linked : (p.assembled d).LinkedTo addr c) (bound : Nat)
    (host : Memory) :
    Follows (.inMemory c capacity) bound (.start host) (p.evaluate bound)
      (fun _ m => m.next (.inMemory c capacity) = .halt .stopped m) := by
  have holds : c.Holds addr 0 ((p.topSegment d.scope d.pending.size).lines ++ _) := linked.holds
  have top : c.Holds addr 0 (Stmt.codeAll d.scope d.pending.size p.statements ++ [.instr .stop]) :=
    holds.left
  have calls : CallsFollow p addr c capacity bound _ :=
    Datum.follows_apply of kept fit binds linked bound
  have body := Stmt.followsAll calls p.statements host (p.place_sound of linked.natives)
    (p.kept_statements kept) top.left
  unfold evaluate
  refine body.bind ?_
  intro result m left
  cases result with
  | some v =>
    obtain ⟨back, rest, exit, _⟩ := left
    cases exit
  | none =>
    obtain ⟨_, host', rfl⟩ := left
    exact .pure (Machine.next_stop [] host' top.right.1)

def Program.written (p : Program) (bound : Nat) (inputs : List Int) : List Int :=
  match p.evaluate bound (.ofInputs inputs) with
  | .ok _ m => m.output
  | .error _ m => m.output

theorem Program.written_of_outcome {inputs w : List Int} {o : Finish}
    (outcome : p.outcome? bound inputs = some (o, w)) : p.written bound inputs = w := by
  unfold outcome? at outcome
  unfold written
  cases result : p.evaluate bound (.ofInputs inputs) with
  | ok _ m =>
    rw [result] at outcome
    cases outcome
    rfl
  | error e m =>
    rw [result] at outcome
    cases e <;> cases outcome
    rfl

def Finish.Matches : Finish → Halt → Prop
  | .stopped, why => why = .stopped
  | .fault f, why => ∃ pc, why = .fault f pc

/-- Within a bound a program ends as the machine does, or the machine runs out of room, or neither
of them has come to an end. -/
theorem Program.ends_or_goes_on (of : d.Of p) (kept : p.violations = []) (fit : p.LiteralsFit)
    (binds : p.BindsBuiltins) (linked : (p.assembled d).LinkedTo addr c) (capacity bound : Nat)
    (inputs : List Int) :
    (∃ o why m, p.outcome? bound inputs = some (o, m.host.output) ∧ o.Matches why ∧
      Machine.Ends (.inMemory c capacity) (.start (.ofInputs inputs)) why m) ∨
      Machine.Overflows (.inMemory c capacity) (.start (.ofInputs inputs)) (p.written bound inputs) ∨
        (p.outcome? bound inputs = none ∧ ∃ n m, bound ≤ n ∧
          Machine.Reaches (.inMemory c capacity) n (.start (.ofInputs inputs)) m) := by
  have follows : Follows (.inMemory c capacity) bound _ _ _ :=
    p.follows of kept fit binds linked bound (.ofInputs inputs)
  unfold Follows at follows
  unfold outcome? written
  have start : (Machine.start (Memory.ofInputs inputs)).host = .ofInputs inputs := rfl
  rw [start] at follows
  cases result : p.evaluate bound (.ofInputs inputs) with
  | ok _ left =>
    rw [result] at follows
    obtain ⟨m, rfl, ⟨_, leads⟩, stops⟩ := follows
    rcases leads with ⟨n, _, path⟩ | overflows
    · exact Or.inl ⟨.stopped, .stopped, m, rfl, rfl, n, m, path, stops⟩
    · exact Or.inr (Or.inl overflows)
  | error e left =>
    rw [result] at follows
    obtain ⟨_, breaks⟩ := follows
    cases e with
    | fault f =>
      rcases breaks with ⟨pc, m, ends, rfl⟩ | overflows
      · exact Or.inl ⟨.fault f, .fault f pc, m, rfl, ⟨pc, rfl⟩, ends⟩
      · exact Or.inr (Or.inl overflows)
    | unfinished =>
      rcases breaks with goesOn | overflows
      · exact Or.inr (Or.inr ⟨rfl, goesOn⟩)
      · exact Or.inr (Or.inl overflows)
    | meaningless => cases breaks

/-- Runs of code do what a program means, unless they run out of room. A program means one thing at
most. -/
structure Code.Performs (c : Code) (p : Program) (capacity : Nat) (inputs : List Int) : Prop where
  unique : ∀ {bound bound' : Nat} {o o' : Finish} {w w' : List Int},
    p.outcome? bound inputs = some (o, w) → p.outcome? bound' inputs = some (o', w') →
      o = o' ∧ w = w'
  ends : ∀ {τ : Type} (observe : τ → Event → τ) (seen : τ) {bound : Nat} {o : Finish} {w : List Int},
    p.outcome? bound inputs = some (o, w) → ∃ limit why seen' m,
      Machine.run (.inMemory c capacity) observe limit seen (.start (.ofInputs inputs)) =
        (why, seen', m) ∧
      ((o.Matches why ∧ m.host.output = w) ∨
        ((∃ pc, why = .fault .stackOverflow pc) ∧ m.host.output <+: w))
  means : ∀ {τ : Type} (observe : τ → Event → τ) {seen seen' : τ} {limit : Nat} {why : Halt}
    {m : Machine Memory},
    Machine.run (.inMemory c capacity) observe limit seen (.start (.ofInputs inputs)) =
      (why, seen', m) → why ≠ .exhausted →
    (∃ bound o, p.outcome? bound inputs = some (o, m.host.output) ∧ o.Matches why) ∨
      ((∃ pc, why = .fault .stackOverflow pc) ∧ ∃ bound, m.host.output <+: p.written bound inputs)

theorem Program.performs (of : d.Of p) (kept : p.violations = []) (fit : p.LiteralsFit)
    (binds : p.BindsBuiltins) (linked : (p.assembled d).LinkedTo addr c) (capacity : Nat)
    (inputs : List Int) : c.Performs p capacity inputs := by
  constructor
  · exact outcome?_unique
  · intro τ observe seen bound o w outcome
    rcases p.ends_or_goes_on of kept fit binds linked capacity bound inputs with
      ⟨o', why, m, outcome', matching, ends⟩ | ⟨pc, m, ends, written⟩ | ⟨unfinished, _⟩
    · cases outcome.symm.trans outcome'
      obtain ⟨limit, seen', ran⟩ := ends.exists_run observe seen
      exact ⟨limit, why, seen', m, ran, Or.inl ⟨matching, rfl⟩⟩
    · rw [p.written_of_outcome outcome] at written
      obtain ⟨limit, seen', ran⟩ := ends.exists_run observe seen
      exact ⟨limit, _, seen', m, ran, Or.inr ⟨⟨pc, rfl⟩, written⟩⟩
    · cases outcome.symm.trans unfinished
  · intro τ observe seen seen' limit why m ran final
    -- An evaluation that is bounded by more than the steps of the run ends if the run does.
    rcases p.ends_or_goes_on of kept fit binds linked capacity (limit + 1) inputs with
      ⟨o, why', m', outcome, matching, ends⟩ | ⟨pc, m', ends, written⟩ | ⟨_, n, m', long, path⟩
    · obtain ⟨rfl, rfl⟩ := ends.of_run observe ran final
      exact Or.inl ⟨limit + 1, o, outcome, matching⟩
    · obtain ⟨rfl, rfl⟩ := ends.of_run observe ran final
      exact Or.inr ⟨⟨pc, rfl⟩, limit + 1, written⟩
    · obtain ⟨_, _, exhausted⟩ := Machine.run_exhausted observe path long seen
      cases ran.symm.trans exhausted
      exact absurd rfl final

end

/-- A program that was read and keeps the rules becomes code that does what the program means. There
is no code only if it, or the text, is too long for 32-bit numbers. -/
theorem Program.compile_performs {text : String} {p : Program} (read : Program.parse text = .ok p)
    (kept : p.violations = []) (binds : p.BindsBuiltins) (filename : String) :
    (∃ v : Nat, p.compile (Registry.builtins Memory.channel).knows filename =
        .error (.label (.operand (.count v))) ∧ 2 ^ 32 ≤ v ∧
      (2 ^ 32 ≤ p.codeSize ∨ 2 ^ 32 ≤ text.length)) ∨
      ∃ c, p.compile (Registry.builtins Memory.channel).knows filename = .ok c ∧
        c.length = p.codeSize ∧ ∀ capacity inputs, c.Performs p capacity inputs := by
  have fit := literalsFit_of_parse read
  obtain ⟨d, of, tooLong | ⟨addr, c, compiled, linked⟩⟩ :=
    exists_linking_of_parse read kept (fun q member => binds.knows member) filename
  · exact Or.inl tooLong
  · have length : c.length = p.codeSize := linked.length.trans (p.size_assembled of kept)
    exact Or.inr ⟨c, compiled, length, p.performs of kept fit binds linked⟩

theorem Program.compile_performs_sample : ∃ p, Program.parse sampleText = .ok p ∧ p.violations = [] ∧
    p.BindsBuiltins ∧ p.outcome? 4 [] = some (.stopped, [3, 3]) ∧
      p.compile (Registry.builtins Memory.channel).knows "sample" = .ok sampleCode ∧
        ∀ capacity inputs, sampleCode.Performs p capacity inputs := by
  obtain ⟨p, read, kept, binds, compiled, outcome⟩ := exists_sample
  refine ⟨p, read, kept, binds, outcome, compiled, ?_⟩
  rcases Program.compile_performs read kept binds "sample" with
    ⟨v, failed, _⟩ | ⟨c, same, _, performs⟩
  · cases failed.symm.trans compiled
  · cases compiled.symm.trans same
    exact performs

end Tally
