import Tally.Proofs.Machine.Traps

namespace Tally

variable {σ : Type}

/-- What the machine has against calling a value with so many arguments. -/
def Code.callFault? (c : Code) (args : Nat) : Value → Option Fault
  | .int _ => some (.notCallable .int)
  | .native n => if n.arity = args then none else some (.nativeArity n.name n.arity args)
  | .address a =>
    match c.functionAt? a with
    | none => some (.notAnEntry a)
    | some f => if f.arity = args then none else some (.functionArity f.name f.arity args)

namespace Code

variable {c : Code} {args : Nat}

theorem callFault?_native {n : Native} (same : n.arity = args) :
    c.callFault? args (.native n) = none := if_pos same

theorem callFault?_address {a : Number} {f : EntryPoint} (found : c.functionAt? a = some f)
    (same : f.arity = args) : c.callFault? args (.address a) = none := by
  simp only [callFault?, found]
  exact if_pos same

theorem function_of_callFault? {a : Number} (passed : c.callFault? args (.address a) = none) :
    ∃ f, c.functionAt? a = some f ∧ f.arity = args := by
  unfold callFault? at passed
  cases found : c.functionAt? a with
  | none =>
    simp only [found] at passed
    cases passed
  | some f =>
    simp only [found] at passed
    by_cases same : f.arity = args
    · exact ⟨f, rfl, same⟩
    · rw [if_neg same] at passed
      cases passed

end Code

def Setup.enter (setup : Setup σ) (args : Nat) : Value → Exec σ Unit
  | .int _ => pure ()
  | .native n => do
    Exec.requireHeight args
    let before ← Exec.height
    match setup.registry n.primitive with
    | .ok (some routine) => routine.exec setup.capacity
    | _ => throw (.foreign s!"no primitive '{n.primitive}'")
    let after ← Exec.height
    if after ≠ before - args + 1 then Exec.fault (.unbalancedNative n.name args)
  | .address a => do
    Exec.requireHeight args
    setup.push (.address ((← get).pc : Number))
    Exec.jump a

/-- The checks of a call come first and are all that a call has against a value. -/
theorem Setup.call_eq (setup : Setup σ) (args : Nat) :
    setup.call args = (do
      let v ← Exec.pop
      match setup.code.callFault? args v with
      | some f => Exec.fault f
      | none => setup.enter args v) := by
  unfold call
  congr 1
  funext v
  cases v with
  | int z => rfl
  | native n =>
    unfold Code.callFault? callNative
    by_cases same : n.arity = args
    · simp only [if_pos same, if_neg (not_not_intro same)]
      rfl
    · simp only [if_neg same, if_pos same]
      rfl
  | address a =>
    unfold Code.callFault? callFunction
    dsimp only
    cases found : setup.code.functionAt? a with
    | none => rfl
    | some f =>
      by_cases same : f.arity = args
      · simp only [if_pos same, if_neg (not_not_intro same)]
        rfl
      · simp only [if_neg same, if_pos same]
        rfl

namespace Machine

variable {setup : Setup σ} {pc args : Nat} {v : Value} {vs : List Value} {host : σ} {f : Fault}

theorem next_call_of_fault (here : setup.code.HasInstr pc (.call args))
    (checked : setup.code.callFault? args v = some f) :
    next setup (on pc (v :: vs) host) = .halt (.fault f pc) (on (pc + Opcode.call.size) vs host) := by
  rw [next_eq (v :: vs) host here nofun]
  unfold Setup.perform
  dsimp only
  rw [setup.call_eq, bind_of_ok (Exec.pop_on _ vs host v), checked]
  rfl

theorem next_call_of_checked (here : setup.code.HasInstr pc (.call args))
    (checked : setup.code.callFault? args v = none) :
    next setup (on pc (v :: vs) host) =
      .ofResult setup.code.length pc (setup.enter args v (on (pc + Opcode.call.size) vs host)) := by
  rw [next_eq (v :: vs) host here nofun]
  unfold Setup.perform
  dsimp only
  rw [setup.call_eq, bind_of_ok (Exec.pop_on _ vs host v), checked]
  rfl

theorem callFault?_of_next {m : Machine σ} (here : setup.code.HasInstr pc (.call args))
    (stepped : next setup (on pc (v :: vs) host) = .next m) :
    setup.code.callFault? args v = none := by
  cases checked : setup.code.callFault? args v with
  | none => rfl
  | some f => cases stepped.symm.trans (next_call_of_fault here checked)

end Machine

def Fault.OfCall : Fault → Prop
  | notCallable _ | functionArity .. | nativeArity .. | notAnEntry _ => True
  | _ => False

def Trap.OfCall : Trap → Prop
  | fault f _ => f.OfCall
  | _ => False

theorem Trap.not_ofCall_of_halt {t : Trap} {length pc : Nat} {f : Fault} {own : Number}
    (other : ¬ t.OfCall) (halted : t.halt length pc = .fault f own) : ¬ f.OfCall := by
  cases t with
  | fault f' own' => cases own' <;> cases halted <;> exact other
  | outOfRange message =>
    cases halted
    exact id
  | astray target =>
    unfold halt at halted
    dsimp only at halted
    split at halted <;> cases halted
    exact id
  | foreign message => cases halted

namespace Exec

variable {α : Type}

def Quiet (act : Exec σ α) : Prop := ∀ m t m', act m = .error t m' → ¬ t.OfCall

theorem quiet_of_keeps {act : Exec σ α} {post : α → Prop}
    (keeps : act.Keeps (fun _ => True) (fun t => ¬ t.OfCall) post) : Quiet act :=
  fun _ _ _ failed => keeps.of_error_anywhere failed

end Exec

open Exec

namespace Setup

variable (setup : Setup σ)

theorem quiet_perform {i : Instr Nat} (other : ∀ args, i ≠ .call args) :
    Quiet (setup.perform i) := by
  have different : i.opcode ≠ .call := by
    intro same
    cases i <;> cases same
    exact other _ rfl
  have allows : setup.Allows (fun _ => True) (fun t => ¬ t.OfCall) i := {
    int := fun _ => trivial
    address := fun _ => trivial
    native := fun _ _ => trivial
    fault := by
      intro f raised ofCall
      cases f with
      | notCallable _ | functionArity _ _ _ | nativeArity _ _ _ | notAnEntry _ =>
        exact different (of_decide_eq_true raised)
      | _ => exact ofCall
    astray := fun _ _ _ => id }
  exact quiet_of_keeps (keeps_perform allows fun args same _ _ => absurd same (other args))

theorem quiet_enter {args : Nat} {v : Value} (other : ∀ n, v ≠ .native n) :
    Quiet (setup.enter args v) := by
  cases v with
  | int z =>
    have kept : (pure () : Exec σ Unit).Keeps (fun _ => True) (fun t => ¬ t.OfCall) fun _ => True :=
      keeps_pure trivial
    exact quiet_of_keeps kept
  | native n => exact absurd rfl (other n)
  | address a =>
    exact quiet_of_keeps ((keeps_requireHeight id).bind fun _ _ => keeps_get.bind fun m _ =>
      (keeps_push trivial id).bind fun _ _ => keeps_jump fun _ => id)

end Setup

namespace Machine

variable {setup : Setup σ} {pc args : Nat} {v : Value} {vs : List Value} {host : σ} {f : Fault}
  {own : Number} {m : Machine σ}

theorem quiet_ofResult {act : Exec σ Unit} (quiet : Quiet act) {length place : Nat} {m₀ : Machine σ}
    (halted : Step.ofResult length place (act m₀) = .halt (.fault f own) m) : ¬ f.OfCall := by
  cases done : act m₀ with
  | ok _ m₁ =>
    rw [done] at halted
    cases halted
  | error t m₁ =>
    rw [done] at halted
    exact Trap.not_ofCall_of_halt (quiet m₀ t m₁ done) (Step.halt.inj halted).1

theorem exists_call_of_halt {i : Instr Nat} (here : setup.code.HasInstr pc i)
    (halted : next setup (on pc vs host) = .halt (.fault f own) m) (ofCall : f.OfCall) :
    ∃ args, i = .call args := by
  by_cases call : ∃ args, i = .call args
  · exact call
  · exfalso
    by_cases stops : i = .stop
    · subst stops
      cases halted.symm.trans (next_stop vs host here)
    · rw [next_eq vs host here stops] at halted
      have other : ∀ args, i ≠ .call args := fun args same => call ⟨args, same⟩
      exact quiet_ofResult (setup.quiet_perform other) halted ofCall

/-- A fault of a call comes from its checks, or from the native that is called. -/
theorem callFault?_of_halt (here : setup.code.HasInstr pc (.call args))
    (halted : next setup (on pc (v :: vs) host) = .halt (.fault f own) m) (ofCall : f.OfCall) :
    setup.code.callFault? args v = some f ∨
      (setup.code.callFault? args v = none ∧ ∃ n, v = .native n) := by
  cases checked : setup.code.callFault? args v with
  | some f' =>
    cases halted.symm.trans (next_call_of_fault here checked)
    exact Or.inl rfl
  | none =>
    refine Or.inr ⟨rfl, ?_⟩
    by_cases native : ∃ n, v = .native n
    · exact native
    · exfalso
      have other : ∀ n, v ≠ .native n := fun n same => native ⟨n, same⟩
      rw [next_call_of_checked here checked] at halted
      exact quiet_ofResult (setup.quiet_enter other) halted ofCall

end Machine

end Tally
