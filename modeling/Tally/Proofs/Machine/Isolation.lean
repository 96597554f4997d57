import Tally.Proofs.Machine.Steps

namespace Tally

variable {σ α : Type}

structure Machine.Shares (places : Nat) (m m' : Machine σ) : Prop where
  pc : m'.pc = m.pc
  values : m'.stack.toList.reverse.take places = m.stack.toList.reverse.take places

namespace Machine.Shares

variable {m m' m'' : Machine σ} {j k : Nat}

theorem refl (m : Machine σ) : Shares k m m := ⟨rfl, rfl⟩

theorem symm (shared : Shares k m m') : Shares k m' m := ⟨shared.pc.symm, shared.values.symm⟩

theorem trans (first : Shares k m m') (rest : Shares k m' m'') : Shares k m m'' :=
  ⟨rest.pc.trans first.pc, rest.values.trans first.values⟩

theorem mono (shared : Shares k m m') (le : j ≤ k) : Shares j m m' := by
  have values := congrArg (List.take j) shared.values
  rw [List.take_take, List.take_take, Nat.min_eq_left le] at values
  exact ⟨shared.pc, values⟩

theorem push (pc : Nat) (stack : Stack) (v : Value) (host host' : σ) :
    Shares stack.height ⟨pc, stack, host⟩ ⟨pc, stack.push v, host'⟩ := by
  refine ⟨rfl, ?_⟩
  rw [Stack.toList_push, List.reverse_cons, stack.height_eq]
  exact List.take_append_of_le_length (Nat.le_of_eq List.length_reverse.symm)

theorem exists_top (shared : Shares k m m') :
    ∃ top, m'.stack.toList = top ++ m.stack.toList.drop (m.stack.height - k) := by
  have values := shared.values
  rw [List.take_reverse, List.take_reverse, List.reverse_inj, ← m.stack.height_eq,
    ← m'.stack.height_eq] at values
  refine ⟨m'.stack.toList.take (m'.stack.height - k), ?_⟩
  rw [← values, List.take_append_drop]

end Machine.Shares

namespace Exec

open Machine (Shares)

/-- Work that leaves the values alone that it does not take off the stack. -/
def Frames (act : Exec σ α) : Prop :=
  ∀ m a m', act m = .ok a m' → Shares (min m.stack.height m'.stack.height) m m'

theorem push_eq_ok {capacity : Nat} {v : Value} {m m' : Machine σ}
    (done : push capacity v m = .ok () m') : m' = ⟨m.pc, m.stack.push v, m.host⟩ := by
  obtain ⟨pc, stack, host⟩ := m
  rw [push] at done
  split at done <;> cases done
  rfl

theorem pop_eq_ok {m m' : Machine σ} {v : Value} (done : pop m = .ok v m') :
    ∃ rest, m = Machine.on m.pc (v :: rest) m.host ∧ m' = Machine.on m.pc rest m.host := by
  match values : m.stack.toList with
  | [] =>
    rw [Machine.eq_on rfl values] at done
    cases done
  | w :: rest =>
    have whole := Machine.eq_on rfl values
    rw [whole, pop_on] at done
    cases done
    exact ⟨rest, whole, rfl⟩

theorem frames_push (capacity : Nat) (v : Value) : Frames (push capacity v : Exec σ Unit) := by
  intro m _ m' done
  cases push_eq_ok done
  exact (Shares.push m.pc m.stack v m.host m.host).mono (Nat.min_le_left ..)

theorem frames_pop : Frames (pop : Exec σ Value) := by
  intro m v m' done
  obtain ⟨rest, whole, rfl⟩ := pop_eq_ok done
  rw [whole]
  exact (Shares.push m.pc (.ofList rest) v m.host m.host).symm.mono (Nat.min_le_right ..)

theorem frames_bind_pure {β : Type} {act : Exec σ α} {f : α → Exec σ β} (frames : Frames act)
    (still : ∀ a m b m', f a m = .ok b m' → m' = m) : Frames (act >>= f) := by
  intro m b m'' done
  obtain ⟨a, m', first, last⟩ := bind_eq_ok done
  cases still a m' b m'' last
  exact frames m a m'' first

theorem frames_popInt : Frames (popInt : Exec σ Int64) := by
  apply frames_bind_pure frames_pop
  intro v m z m' done
  cases v <;> cases done
  rfl

theorem frames_of_still {act : Exec σ α}
    (still : ∀ m a m', act m = .ok a m' → m'.pc = m.pc ∧ m'.stack = m.stack) : Frames act := by
  intro m a m' done
  obtain ⟨pc, stack⟩ := still m a m' done
  exact ⟨pc, by rw [stack]⟩

theorem frames_peek (depth : Nat) : Frames (peek depth : Exec σ Value) := by
  apply frames_of_still
  intro m a m' done
  obtain ⟨seen, m₁, got, last⟩ := bind_eq_ok done
  cases got
  cases there : m.stack.peek? depth with
  | none =>
    rw [there] at last
    cases last
  | some v =>
    rw [there] at last
    cases last
    exact ⟨rfl, rfl⟩

theorem frames_height : Frames (height : Exec σ Nat) := by
  apply frames_of_still
  intro m a m' done
  cases done
  exact ⟨rfl, rfl⟩

theorem frames_askHost (act : σ → Except String Int × σ) : Frames (askHost act) := by
  apply frames_of_still
  rintro ⟨pc, stack, host⟩ a m' done
  unfold askHost at done
  dsimp only at done
  split at done <;> cases done
  exact ⟨rfl, rfl⟩

theorem requireHeight_eq_ok {n : Nat} {m m' : Machine σ} (done : requireHeight n m = .ok () m') :
    n ≤ m.stack.height ∧ m' = m := by
  change (if m.stack.height < n then fault .stackUnderflow else pure () : Exec σ Unit) m = _ at done
  by_cases low : m.stack.height < n
  · rw [if_pos low] at done
    cases done
  · rw [if_neg low] at done
    cases done
    exact ⟨Nat.not_lt.mp low, rfl⟩

def lowest (act : Exec σ α) (after : α → Machine σ → Nat) (m : Machine σ) : Nat :=
  match act m with
  | .ok a m' => min m.stack.height (after a m')
  | .error _ m' => min m.stack.height m'.stack.height

theorem lowest_le (act : Exec σ α) (after : α → Machine σ → Nat) (m : Machine σ) :
    act.lowest after m ≤ m.stack.height := by
  unfold lowest
  split <;> exact Nat.min_le_left ..

end Exec

namespace Routine

open Machine (Shares on)

def floor (capacity : Nat) : Routine σ → Machine σ → Nat
  | done | raise _ => fun m => m.stack.height
  | push v next => (Exec.push capacity v).lowest fun _ => next.floor capacity
  | pop next => Exec.pop.lowest fun v => (next v).floor capacity
  | popInt next => Exec.popInt.lowest fun z => (next z).floor capacity
  | peek depth next => (Exec.peek depth).lowest fun v => (next v).floor capacity
  | height next => Exec.height.lowest fun n => (next n).floor capacity
  | host act next => (Exec.askHost act).lowest fun z => (next z).floor capacity

theorem floor_le (capacity : Nat) (routine : Routine σ) (m : Machine σ) :
    routine.floor capacity m ≤ m.stack.height := by
  cases routine with
  | done | raise => exact Nat.le_refl _
  | push | pop | popInt | peek | height | host => exact Exec.lowest_le ..

variable {capacity : Nat}

theorem shares_bind {act : Exec σ α} {rest : α → Routine σ} (frames : act.Frames)
    (ih : ∀ a m m', (rest a).exec capacity m = .ok () m' →
      Shares ((rest a).floor capacity m) m m')
    {m m'' : Machine σ} (done : (act >>= fun a => (rest a).exec capacity) m = .ok () m'') :
    Shares (act.lowest (fun a => (rest a).floor capacity) m) m m'' := by
  obtain ⟨a, m', first, last⟩ := bind_eq_ok done
  have low := (rest a).floor_le capacity m'
  have here : act.lowest (fun a => (rest a).floor capacity) m =
      min m.stack.height ((rest a).floor capacity m') := by
    unfold Exec.lowest
    rw [first]
  rw [here]
  -- The work itself went no lower than its two ends, of which the rest starts at the second.
  exact ((frames m a m' first).mono (by omega)).trans
    ((ih a m' m'' last).mono (Nat.min_le_right ..))

theorem shares_floor (routine : Routine σ) {m m' : Machine σ}
    (done : routine.exec capacity m = .ok () m') :
    Shares (routine.floor capacity m) m m' := by
  induction routine generalizing m m' with
  | done =>
    cases done
    exact .refl m
  | raise t => cases done
  | push v next ih => exact shares_bind (Exec.frames_push capacity v) (fun _ _ _ => ih) done
  | pop next ih => exact shares_bind Exec.frames_pop (fun v _ _ => ih v) done
  | popInt next ih => exact shares_bind Exec.frames_popInt (fun z _ _ => ih z) done
  | peek depth next ih => exact shares_bind (Exec.frames_peek depth) (fun v _ _ => ih v) done
  | height next ih => exact shares_bind Exec.frames_height (fun n _ _ => ih n) done
  | host act next ih => exact shares_bind (Exec.frames_askHost act) (fun z _ _ => ih z) done

end Routine

namespace Setup

open Machine (on)

variable {setup : Setup σ} {n : Native} {args : Nat}

theorem callNative_eq_ok {m m' : Machine σ} (done : setup.callNative n args m = .ok () m') :
    n.arity = args ∧ args ≤ m.stack.height ∧ m'.stack.height = m.stack.height - args + 1 ∧
      ∃ routine, setup.registry n.primitive = .ok (some routine) ∧
        routine.exec setup.capacity m = .ok () m' := by
  rw [callNative_eq_atWork] at done
  by_cases arity : n.arity = args
  · rw [if_neg (not_not_intro arity)] at done
    obtain ⟨_, m₁, required, counting⟩ := bind_eq_ok done
    obtain ⟨enough, rfl⟩ := Exec.requireHeight_eq_ok required
    obtain ⟨before, _, counted, working⟩ := bind_eq_ok counting
    cases counted
    obtain ⟨_, m₂, worked, recounting⟩ := bind_eq_ok working
    obtain ⟨after, _, recounted, comparing⟩ := bind_eq_ok recounting
    cases recounted
    by_cases left : m₂.stack.height = m₁.stack.height - args + 1
    · rw [if_neg (not_not_intro left)] at comparing
      cases comparing
      rcases setup.atWork_cases n with ⟨routine, asked, same⟩ | ⟨message, same⟩
      · rw [same] at worked
        exact ⟨arity, enough, left, routine, asked, worked⟩
      · rw [same] at worked
        cases worked
    · rw [if_pos left] at comparing
      cases comparing
  · rw [if_pos arity] at done
    cases done

theorem pc_of_callNative {m m' : Machine σ} (done : setup.callNative n args m = .ok () m') :
    m'.pc = m.pc := by
  obtain ⟨_, _, _, routine, _, executed⟩ := callNative_eq_ok done
  exact (routine.shares_floor executed).pc

end Setup

namespace Machine

theorem callNative_of_next {setup : Setup σ} {pc args : Nat} {n : Native} {vs : List Value}
    {host : σ} {m' : Machine σ} (here : setup.code.HasInstr pc (.call args))
    (done : next setup (on pc (.native n :: vs) host) = .next m') :
    setup.callNative n args (on (pc + Opcode.call.size) vs host) = .ok () m' := by
  rw [next_eq (.native n :: vs) host here nofun] at done
  change Step.ofResult _ _ (setup.callNative n args (on (pc + Opcode.call.size) vs host)) = _ at done
  cases result : setup.callNative n args (on (pc + Opcode.call.size) vs host) with
  | ok _ m₁ =>
    rw [result] at done
    cases done
    rfl
  | error t m₁ =>
    rw [result] at done
    cases done

/-- A call of a native leaves one value more than there is beneath its arguments. The values that the
native did not take off the stack are as they were; if it took off no more than its arguments, they
were replaced by one value. -/
theorem next_call_native_leaves {setup : Setup σ} {pc args : Nat} {n : Native} {vs : List Value}
    {host : σ} {m' : Machine σ} (here : setup.code.HasInstr pc (.call args))
    (done : next setup (on pc (.native n :: vs) host) = .next m') :
    n.arity = args ∧ args ≤ vs.length ∧ m'.pc = pc + Opcode.call.size ∧
    m'.stack.height = vs.length - args + 1 ∧
    ∃ routine, setup.registry n.primitive = .ok (some routine) ∧
      let floor := routine.floor setup.capacity (on (pc + Opcode.call.size) vs host)
      (∃ top, m'.stack.toList = top ++ vs.drop (vs.length - floor)) ∧
      (vs.length - args ≤ floor → ∃ v, m'.stack.toList = v :: vs.drop args) := by
  have called := callNative_of_next here done
  obtain ⟨arity, enough, left, routine, asked, executed⟩ := Setup.callNative_eq_ok called
  change m'.stack.height = vs.length - args + 1 at left
  change args ≤ vs.length at enough
  have shared := routine.shares_floor executed
  refine ⟨arity, enough, shared.pc, left, routine, asked, shared.exists_top, ?_⟩
  intro above
  obtain ⟨top, split⟩ := (shared.mono above).exists_top
  change m'.stack.toList = top ++ vs.drop (vs.length - (vs.length - args)) at split
  rw [Nat.sub_sub_self enough] at split
  have one : top.length = 1 := by
    have length := congrArg List.length split
    rw [← m'.stack.height_eq, left, List.length_append, List.length_drop] at length
    omega
  obtain ⟨v, rfl⟩ := List.length_eq_one_iff.mp one
  exact ⟨v, split⟩

def callingCode (args : Nat) : Code := ⟨(Instr.call args).bytes.toArray, #[], [], "sample"⟩

theorem callingCode_hasInstr {args : Nat} (small : args < LittleEndian.modulus 4) :
    (callingCode args).HasInstr 0 (.call args) := by
  have fits : (Instr.call args).Fits := by
    intro o member
    cases List.mem_singleton.mp member
    exact small
  have bytes : (callingCode args).bytes.toList = [] ++ ((Instr.call args).bytes ++ []) :=
    (List.append_nil _).symm
  exact Code.hasInstr_of_bytes fits bytes

def printNative : Native := ⟨"print", "print_int", 1⟩

theorem next_call_native_leaves_sample :
    ∃ m', next (.inMemory (callingCode 1) 8)
        (on 0 [.native printNative, .int 5, .int 2] (.ofInputs [])) = .next m' ∧
      ∃ v, m'.stack.toList = [v, .int 2] := by
  have here : (callingCode 1).HasInstr 0 (.call 1) := callingCode_hasInstr (by decide)
  have done : next (.inMemory (callingCode 1) 8)
      (on 0 [.native printNative, .int 5, .int 2] (.ofInputs [])) =
        .next (on 5 [.int 5, .int 2] ⟨[], [5]⟩) := rfl
  obtain ⟨_, _, _, _, routine, asked, _, only⟩ := next_call_native_leaves here done
  cases (asked_print rfl).symm.trans asked
  exact ⟨_, done, only (by decide)⟩

/-- It replaces a value that is not its argument. -/
def usurper : Routine Memory := .pop fun _ => .push (.int 7) (.push (.int 8) .done)

theorem usurper_unnoticed :
    ¬ ∀ (setup : Setup Memory) (pc args : Nat) (n : Native) (vs : List Value) (host : Memory)
        (m' : Machine Memory),
      setup.code.HasInstr pc (.call args) → n.arity = args → args ≤ vs.length →
      next setup (on pc (.native n :: vs) host) = .next m' →
      ∃ v, m'.stack.toList = v :: vs.drop args := by
  intro isolated
  have here : (callingCode 0).HasInstr 0 (.call 0) := callingCode_hasInstr (by decide)
  obtain ⟨v, same⟩ := isolated ⟨callingCode 0, fun _ => .ok (some usurper), 8⟩ 0 0 ⟨"bad", "bad", 0⟩
    [.int 1] (.ofInputs []) (on 5 [.int 8, .int 7] (.ofInputs [])) here rfl (Nat.zero_le _) rfl
  cases same

end Machine

end Tally
