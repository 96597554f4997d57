import Tally.Proofs.Machine.Discipline

namespace Tally

open Machine (on next)

def Instr.Enters (i : Instr Nat) (top : Option Value) : Prop :=
  ∃ args entry, i = .call args ∧ top = some (.address entry)

def Instr.IsRet (i : Instr Nat) : Prop := ∃ depth args, i = .ret depth args

/-- The machines that are reached from one, with the level of calls. -/
inductive Machine.Since {σ : Type} (setup : Setup σ) (m : Machine σ) : Nat → Machine σ → Prop
  | start : Since setup m 0 m
  | enter {level : Nat} {m₁ m₂ : Machine σ} {i : Instr Nat} (since : Since setup m level m₁)
      (here : setup.code.HasInstr m₁.pc i) (enters : i.Enters m₁.stack.top?)
      (step : m₁.next setup = .next m₂) : Since setup m (level + 1) m₂
  | leave {level : Nat} {m₁ m₂ : Machine σ} {i : Instr Nat} (since : Since setup m (level + 1) m₁)
      (here : setup.code.HasInstr m₁.pc i) (leaves : i.IsRet)
      (step : m₁.next setup = .next m₂) : Since setup m level m₂
  | stay {level : Nat} {m₁ m₂ : Machine σ} {i : Instr Nat} (since : Since setup m level m₁)
      (here : setup.code.HasInstr m₁.pc i) (enters : ¬ i.Enters m₁.stack.top?)
      (leaves : ¬ i.IsRet) (step : m₁.next setup = .next m₂) : Since setup m level m₂

/-- So many activations stand above one that was called. -/
inductive Activations.Above (back : Nat) (args : List Value) (below : Activations) :
    Nat → Activations → Prop
  | here (temps : List Value) : Above back args below 0 (called temps back args below)
  | more {level : Nat} {a : Activations} (temps : List Value) (back' : Nat) (args' : List Value)
      (inner : Above back args below level a) :
      Above back args below (level + 1) (called temps back' args' a)

namespace Activations

variable {back : Nat} {args : List Value} {below a : Activations} {level : Nat}

theorem Above.replace (above : Above back args below level a) (temps : List Value) :
    Above back args below level (a.replace temps) := by
  cases above with
  | here _ => exact .here temps
  | more _ back' args' inner => exact .more temps back' args' inner

theorem Above.values (above : Above back args below level a) :
    ∃ temps, a.values = temps ++ .address back :: (args ++ below.values) := by
  induction above with
  | here temps => exact ⟨temps, rfl⟩
  | more temps back' args' _ ih =>
    obtain ⟨more, same⟩ := ih
    refine ⟨temps ++ .address back' :: (args' ++ more), ?_⟩
    rw [Activations.values, same]
    simp

theorem head?_values (some_ : 1 ≤ a.temps.length) : a.values.head? = a.temps.head? := by
  obtain ⟨v, temps, split, values⟩ := a.exists_cons some_
  rw [split, values]
  rfl

variable {pc pc' : Nat} {i : Instr Nat} {a' : Activations}

theorem Moves.enter (moves : a.Moves pc i pc' a') (above : Above back args below level a)
    (enters : i.Enters a.values.head?) : Above back args below (level + 1) a' := by
  obtain ⟨n, entry, rfl, top⟩ := enters
  cases moves with
  | call called split => exact .more _ _ _ (above.replace _)
  | ret returned => cases returned
  | within counted stays enters =>
    have enough := (Instr.counted_call counted).1
    rw [head?_values (by omega)] at top
    exact absurd rfl (enters n rfl _ top)

theorem Moves.leave (moves : a.Moves pc i pc' a') (above : Above back args below (level + 1) a)
    (leaves : i.IsRet) : Above back args below level a' := by
  obtain ⟨depth, n, rfl⟩ := leaves
  cases moves with
  | call called split => cases called
  | within counted stays enters => exact absurd rfl (stays depth n)
  | ret returned =>
    cases above with
    | more _ _ _ inner => exact inner.replace _

theorem Moves.stay (moves : a.Moves pc i pc' a') (above : Above back args below level a)
    (enters : ¬ i.Enters a.values.head?) (leaves : ¬ i.IsRet) :
    Above back args below level a' := by
  cases moves with
  | within counted stays enters => exact above.replace _
  | ret returned => exact absurd ⟨_, _, returned⟩ leaves
  | call called split =>
    apply absurd _ enters
    refine ⟨_, pc', called, ?_⟩
    rw [a.values_eq, split]
    rfl

end Activations

namespace Plan

variable {k : Plan} {capacity : Nat}

theorem Stands.moves_of_next (sound : k.Sound) {pc : Nat} {a : Activations}
    (stands : k.Stands capacity pc a) {host : Memory} {m : Machine Memory} {i : Instr Nat}
    (here : k.code.HasInstr pc i)
    (step : next (.inMemory k.code capacity) (on pc a.values host) = .next m) :
    ∃ pc' a' host', m = on pc' a'.values host' ∧ a.Moves pc i pc' a' ∧ k.Stands capacity pc' a' := by
  rcases stands.goes sound host with ⟨why, m', halted, _⟩ | ⟨j, pc', a', host', there, stepped, moves, rest⟩
  · cases step.symm.trans halted
  · cases there.unique here
    cases step.symm.trans stepped
    exact ⟨pc', a', host', rfl, moves, rest⟩

/-- Since a call, the machine stands among activations above the one that was called. -/
theorem Stands.above_of_since (sound : k.Sound) {pc back : Nat} {args : List Value}
    {start below : Activations} {host : Memory} (stands : k.Stands capacity pc start)
    (first : Activations.Above back args below 0 start) {level : Nat} {m : Machine Memory}
    (since : Machine.Since (.inMemory k.code capacity) (on pc start.values host) level m) :
    ∃ pc' a host', m = on pc' a.values host' ∧ k.Stands capacity pc' a ∧
      Activations.Above back args below level a := by
  induction since with
  | start => exact ⟨pc, start, host, rfl, stands, first⟩
  | enter _ here enters step ih =>
    obtain ⟨pc₁, a, host₁, rfl, stands₁, above⟩ := ih
    obtain ⟨pc₂, a', host₂, same, moves, stands₂⟩ := stands₁.moves_of_next sound here step
    exact ⟨pc₂, a', host₂, same, stands₂, moves.enter above enters⟩
  | leave _ here leaves step ih =>
    obtain ⟨pc₁, a, host₁, rfl, stands₁, above⟩ := ih
    obtain ⟨pc₂, a', host₂, same, moves, stands₂⟩ := stands₁.moves_of_next sound here step
    exact ⟨pc₂, a', host₂, same, stands₂, moves.leave above leaves⟩
  | stay _ here enters leaves step ih =>
    obtain ⟨pc₁, a, host₁, rfl, stands₁, above⟩ := ih
    obtain ⟨pc₂, a', host₂, same, moves, stands₂⟩ := stands₁.moves_of_next sound here step
    exact ⟨pc₂, a', host₂, same, stands₂, moves.stay above enters leaves⟩

theorem Stands.call_of_next (sound : k.Sound) {pc : Nat} {a : Activations}
    (stands : k.Stands capacity pc a) {host : Memory} {m : Machine Memory} {entry : Number}
    {args rest : List Value} (here : k.code.HasInstr pc (.call args.length))
    (stack : a.values = .address entry :: (args ++ rest))
    (step : next (.inMemory k.code capacity) (on pc a.values host) = .next m) :
    ∃ pc' below host', m = on pc' (Activations.called [] (pc + Opcode.call.size) args below).values
        host' ∧ below.values = rest ∧
      k.Stands capacity pc' (.called [] (pc + Opcode.call.size) args below) := by
  obtain ⟨pc', a', host', rfl, moves, stands'⟩ := stands.moves_of_next sound here step
  cases moves with
  | ret returned => cases returned
  | within counted stays enters =>
    have enough := (Instr.counted_call counted).1
    have top : a.temps.head? = some (.address entry) := by
      rw [← Activations.head?_values (by omega), stack]
      rfl
    exact absurd rfl (enters _ rfl _ top)
  | call called split =>
    rename_i temps values
    rw [a.values_eq, split, List.cons_append, List.cons.injEq, List.append_assoc] at stack
    obtain ⟨same, others⟩ := List.append_inj stack.2 (Instr.call.inj called).symm
    subst same
    exact ⟨pc', a.replace temps, host', rfl, (a.values_replace temps).trans others, stands'⟩

end Plan

end Tally
