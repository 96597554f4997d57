import Tally.Proofs.Code.Operands
import Tally.Proofs.Machine.CallChecks
import Tally.Proofs.Machine.Isolation

namespace Tally

variable {σ α β : Type}

/-- The instructions that lead elsewhere, with this value on top: jumps, returns, and calls of
functions. -/
def Instr.Diverts (top : Option Value) : Instr Nat → Prop
  | jump _ | ret .. => True
  | jumpFalse _ => ∃ v, top = some v ∧ v.truthy = false
  | call _ => ∃ entry, top = some (.address entry)
  | _ => False

namespace Exec

open Machine (on)

def Stays (act : Exec σ α) : Prop := ∀ m a m', act m = .ok a m' → m'.pc = m.pc

theorem Frames.stays {act : Exec σ α} (frames : act.Frames) : act.Stays :=
  fun m a m' done => (frames m a m' done).pc

theorem Stays.bind {act : Exec σ α} {f : α → Exec σ β} (first : act.Stays)
    (rest : ∀ a, (f a).Stays) : (act >>= f).Stays := by
  intro m b m'' done
  obtain ⟨a, m', here, last⟩ := bind_eq_ok done
  exact (rest a m' b m'' last).trans (first m a m' here)

theorem stays_fault (f : Fault) : (fault f : Exec σ α).Stays := by
  intro m a m' done
  cases done

theorem stack_of_jump {target : Number} {m m' : Machine σ} (done : jump target m = .ok () m') :
    m'.stack = m.stack := by
  unfold jump at done
  cases natural : target.toNat? with
  | some pc =>
    simp only [natural] at done
    cases done
    rfl
  | none =>
    simp only [natural] at done
    cases done

end Exec

namespace Setup

open Exec

variable {setup : Setup σ}

theorem stays_push (v : Value) : (setup.push v).Stays := (frames_push setup.capacity v).stays

theorem stays_add : setup.add.Stays := by
  refine frames_pop.stays.bind fun right => frames_pop.stays.bind fun left => ?_
  cases left with
  | int a =>
    cases right with
    | int b => exact stays_push _
    | native _ | address _ => exact stays_fault _
  | native _ | address _ => exact stays_fault _

theorem pc_of_perform {i : Instr Nat} {m m' : Machine σ} (onward : ¬ i.Diverts m.stack.top?)
    (done : setup.perform i m = .ok () m') : m'.pc = m.pc := by
  cases i with
  | pushFunc _ | pushInt _ => exact stays_push _ m () m' done
  | pushNative index =>
    unfold perform at done
    cases found : setup.code.natives[index]? with
    | none =>
      simp only [found] at done
      cases done
    | some n =>
      simp only [found] at done
      exact stays_push _ m () m' done
  | peek depth =>
    have stays : (peek depth >>= setup.push).Stays := (frames_peek depth).stays.bind stays_push
    exact stays m () m' done
  | pop =>
    obtain ⟨v, m₁, popped, rest⟩ := bind_eq_ok done
    cases rest
    exact frames_pop.stays m v m' popped
  | add => exact stays_add m () m' done
  | call args =>
    obtain ⟨v, m₁, popped, rest⟩ := bind_eq_ok done
    cases v with
    | native n => exact (pc_of_callNative rest).trans (frames_pop.stays m _ m₁ popped)
    | address entry =>
      obtain ⟨below, whole, _⟩ := pop_eq_ok popped
      rw [whole] at onward
      exact absurd ⟨entry, rfl⟩ onward
    | int z => cases rest
  | ret _ _ | jump _ => exact absurd trivial onward
  | jumpFalse target =>
    obtain ⟨v, m₁, popped, rest⟩ := bind_eq_ok done
    cases truth : v.truthy with
    | true =>
      rw [truth] at rest
      cases rest
      exact frames_pop.stays m v m' popped
    | false =>
      obtain ⟨below, whole, _⟩ := pop_eq_ok popped
      rw [whole] at onward
      exact absurd ⟨v, rfl, truth⟩ onward
  | stop =>
    cases done
    rfl

theorem stack_of_callFunction {entry : Number} {args : Nat} {m m' : Machine σ}
    (done : setup.callFunction entry args m = .ok () m') :
    m'.stack = m.stack.push (.address (m.pc : Number)) := by
  unfold callFunction at done
  cases found : setup.code.functionAt? entry with
  | none =>
    simp only [found] at done
    cases done
  | some f =>
    simp only [found] at done
    by_cases same : f.arity = args
    · rw [if_neg (not_not_intro same)] at done
      obtain ⟨_, m₁, required, work⟩ := bind_eq_ok done
      obtain ⟨_, rfl⟩ := requireHeight_eq_ok required
      obtain ⟨_, m₂, got, work⟩ := bind_eq_ok work
      cases got
      obtain ⟨_, m₃, pushed, jumped⟩ := bind_eq_ok work
      rw [stack_of_jump jumped]
      exact push_eq_ok pushed ▸ rfl
    · rw [if_pos same] at done
      cases done

end Setup

namespace Machine

variable {setup : Setup σ} {m m' : Machine σ} {i : Instr Nat} {op : Opcode}

/-- An instruction is executed with the operands that stand behind it. -/
structure Executes (setup : Setup σ) (m : Machine σ) (i : Instr Nat) : Prop where
  gets : setup.decode i.opcode ⟨m.pc + 1, m.stack, m.host⟩ =
    .ok i ⟨m.pc + i.size, m.stack, m.host⟩
  byKind : setup.code.readOperands (m.pc + 1) i.opcode.operandKinds = .ok i.operands
  listed : ∀ before, setup.code.instrsFrom before m.pc =
    setup.code.instrsFrom ((m.pc, i) :: before) (m.pc + i.size)
  only : ∀ listing j, setup.code.instrs = .ok listing → (m.pc, j) ∈ listing → j = i
  performs : next setup m =
    if i = .stop then .halt .stopped m
    else .ofResult setup.code.length m.pc (setup.perform i ⟨m.pc + i.size, m.stack, m.host⟩)
  onward : ∀ m', next setup m = .next m' → ¬ i.Diverts m.stack.top? → m'.pc = m.pc + i.size
  resumes : ∀ m' args entry, i = .call args → m.stack.top? = some (.address entry) →
    next setup m = .next m' →
      m'.stack = (m.stack.drop 1).push (.address (m.pc + i.size : Nat))

/-- An instruction whose operands reach out of the code is not executed: the machine has read, but
its stack and its surroundings are as they were. -/
structure CutOff (setup : Setup σ) (m : Machine σ) (op : Opcode) (e : OutsideCode) (place : Nat) :
    Prop where
  misses : setup.decode op ⟨m.pc + 1, m.stack, m.host⟩ =
    .error (.outOfRange e.message) ⟨place, m.stack, m.host⟩
  unlisted : ∀ before, setup.code.instrsFrom before m.pc = .error (.outside e)
  halts : next setup m =
    .halt (.fault (.truncated m.pc e.message) m.pc) ⟨place, m.stack, m.host⟩

theorem next_of_hasInstr (here : setup.code.HasInstr m.pc i) :
    next setup m =
      if i = .stop then .halt .stopped m
      else .ofResult setup.code.length m.pc (setup.perform i ⟨m.pc + i.size, m.stack, m.host⟩) := by
  have whole : m = on m.pc m.stack.toList m.host := eq_on rfl rfl
  by_cases stops : i = .stop
  · subst stops
    rw [if_pos rfl, whole]
    exact next_stop _ _ here
  · rw [if_neg stops]
    have stepped := next_eq m.stack.toList m.host here stops
    rw [← whole] at stepped
    have moved : (⟨m.pc + i.size, m.stack, m.host⟩ : Machine σ) =
        on (m.pc + i.size) m.stack.toList m.host := eq_on rfl rfl
    rw [stepped, moved]

theorem perform_of_next (here : setup.code.HasInstr m.pc i) (stepped : next setup m = .next m') :
    setup.perform i ⟨m.pc + i.size, m.stack, m.host⟩ = .ok () m' := by
  rw [next_of_hasInstr here] at stepped
  by_cases stops : i = .stop
  · rw [if_pos stops] at stepped
    cases stepped
  · rw [if_neg stops] at stepped
    cases done : setup.perform i ⟨m.pc + i.size, m.stack, m.host⟩ with
    | ok _ m₁ =>
      rw [done] at stepped
      cases stepped
      rfl
    | error t m₁ =>
      rw [done] at stepped
      cases stepped

theorem halt_cases {why : Halt} (here : setup.code.HasInstr m.pc i)
    (halted : next setup m = .halt why m') :
    (i = .stop ∧ why = .stopped) ∨
      ∃ t, setup.perform i ⟨m.pc + i.size, m.stack, m.host⟩ = .error t m' ∧
        why = t.halt setup.code.length m.pc := by
  rw [next_of_hasInstr here] at halted
  by_cases stops : i = .stop
  · rw [if_pos stops] at halted
    cases halted
    exact Or.inl ⟨stops, rfl⟩
  · rw [if_neg stops] at halted
    cases done : setup.perform i ⟨m.pc + i.size, m.stack, m.host⟩ with
    | ok _ m₁ =>
      rw [done] at halted
      cases halted
    | error t m₁ =>
      rw [done] at halted
      cases halted
      exact Or.inr ⟨t, rfl, rfl⟩

theorem executes_of_hasInstr (here : setup.code.HasInstr m.pc i) : Executes setup m i where
  gets := Setup.decode_of_ok m.stack m.host here.operands
  byKind := Code.readOperands_of_operandsAt here.operands
  listed := Code.instrsFrom_of_hasInstr here
  only _ _ listed member := (Code.hasInstr_of_mem_instrs listed member).unique here
  performs := next_of_hasInstr here
  onward m' stepped onward :=
    Setup.pc_of_perform (m := ⟨m.pc + i.size, m.stack, m.host⟩) onward (perform_of_next here stepped)
  resumes := by
    rintro m' args entry rfl top stepped
    obtain ⟨v, m₁, popped, called⟩ := bind_eq_ok (perform_of_next here stepped)
    obtain ⟨below, whole, rfl⟩ := Exec.pop_eq_ok popped
    have stack : m.stack.toList = v :: below := congrArg (·.stack.toList) whole
    have same : v = .address entry := by
      rw [Stack.top?, stack] at top
      exact Option.some.inj top
    subst same
    rw [Setup.stack_of_callFunction called]
    ext1
    rw [Stack.toList_push, Stack.toList_push, Stack.toList_drop, stack]
    rfl

theorem cutOff_of_error {e : OutsideCode} (fetched : setup.code.fetch m.pc = .ok op)
    (missing : setup.code.operandsAt (m.pc + 1) op = .error e) :
    ∃ place, CutOff setup m op e place := by
  obtain ⟨place, misses⟩ := Setup.decode_of_error m.stack m.host missing
  refine ⟨place, misses, Code.instrsFrom_of_error fetched missing, ?_⟩
  have goes : op ≠ .stop := by
    rintro rfl
    cases missing
  have executed : setup.execute m.pc op m =
      .error (.outOfRange e.message) ⟨place, m.stack, m.host⟩ := by
    have moved : Exec.advance (m.pc + 1) m = .ok () ⟨m.pc + 1, m.stack, m.host⟩ := rfl
    unfold Setup.execute
    rw [bind_of_ok moved, bind_of_error misses]
  rw [next_of_fetch fetched, step, if_neg goes]
  simp only [executed]
  rfl

theorem hasInstr_or_cutOff (fetched : setup.code.fetch m.pc = .ok op) :
    (m.pc + op.size ≤ setup.code.length ∧ ∃ i, i.opcode = op ∧ setup.code.HasInstr m.pc i) ∨
      (¬ m.pc + op.size ≤ setup.code.length ∧ ∃ e place, CutOff setup m op e place) := by
  have inside : (∃ i, setup.code.operandsAt (m.pc + 1) op = .ok i) ↔
      m.pc + op.size ≤ setup.code.length :=
    Code.operandsAt_isOk_iff (Code.lt_length_of_fetch fetched)
  cases read : setup.code.operandsAt (m.pc + 1) op with
  | ok i => exact Or.inl ⟨inside.mp ⟨i, read⟩, i, Code.hasInstr_of_fetch fetched read⟩
  | error e =>
    have cut : ¬ m.pc + op.size ≤ setup.code.length := by
      rw [← inside, read]
      nofun
    exact Or.inr ⟨cut, e, cutOff_of_error fetched read⟩

/-- The machine gets the operands of an instruction exactly if it lies inside the code, and then
they are those of the listing. -/
theorem executes_or_cutOff (fetched : setup.code.fetch m.pc = .ok op) :
    (m.pc + op.size ≤ setup.code.length → ∃ i, i.opcode = op ∧ Executes setup m i) ∧
      (¬ m.pc + op.size ≤ setup.code.length → ∃ e place, CutOff setup m op e place) := by
  rcases hasInstr_or_cutOff fetched with ⟨fits, i, same, here⟩ | ⟨cut, missing⟩
  · exact ⟨fun _ => ⟨i, same, executes_of_hasInstr here⟩, fun cut => absurd fits cut⟩
  · exact ⟨fun fits => absurd fits cut, fun _ => missing⟩

def bareCode (bytes : List UInt8) : Code := ⟨bytes.toArray, #[], [], "sample"⟩

theorem executes_or_cutOff_samples :
    (∃ i, i.opcode = .call ∧ Executes (.inMemory (callingCode 1) 8)
      (on 0 [.native printNative, .int 5, .int 2] (.ofInputs [])) i) ∧
    ∃ e place, CutOff (.inMemory (bareCode ((Instr.ret 0 0).bytes.take 5)) 8)
      (on 0 [.int 5, .address 0] (.ofInputs [])) .ret e place := by
  have called : (Setup.inMemory (callingCode 1) 8).code.fetch
      (on 0 [.native printNative, .int 5, .int 2] (Memory.ofInputs [])).pc = .ok .call := rfl
  have returned : (Setup.inMemory (bareCode ((Instr.ret 0 0).bytes.take 5)) 8).code.fetch
      (on 0 [.int 5, .address 0] (Memory.ofInputs [])).pc = .ok .ret := rfl
  exact ⟨(executes_or_cutOff called).1 (by decide), (executes_or_cutOff returned).2 (by decide)⟩

end Machine

end Tally
