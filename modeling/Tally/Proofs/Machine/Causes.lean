import Tally.Proofs.Machine.Operands
import Tally.Proofs.Machine.Traces

namespace Tally

variable {σ τ : Type}

/-- What the machine reports as a truncated instruction. -/
def Trap.Truncates : Trap → Prop
  | outOfRange _ => True
  | fault (.truncated ..) _ => True
  | _ => False

theorem Trap.eq_of_halt_truncated {t : Trap} {length pc place : Nat} {reason : String} {own : Number}
    (halted : t.halt length pc = .fault (.truncated place reason) own) :
    (t = .outOfRange reason ∧ place = pc ∧ own = pc) ∨
      ∃ asked, t = .fault (.truncated place reason) asked := by
  cases t with
  | fault f asked =>
    cases asked with
    | none =>
      cases halted
      exact Or.inr ⟨none, rfl⟩
    | some place' =>
      cases halted
      exact Or.inr ⟨_, rfl⟩
  | outOfRange message =>
    cases halted
    exact Or.inl ⟨rfl, rfl, rfl⟩
  | astray target =>
    unfold halt at halted
    dsimp only at halted
    split at halted <;> cases halted
  | foreign message => cases halted

namespace Setup

open Exec

variable {setup : Setup σ} {i : Instr Nat} {n : Native} {args : Nat} {t : Trap} {m m' : Machine σ}

theorem allows_whole (setup : Setup σ) (i : Instr Nat) :
    setup.Allows (fun _ => True) (fun t => ¬ t.Truncates) i where
  int _ := trivial
  address _ := trivial
  native _ _ := trivial
  fault f raised := by
    cases f with
    | truncated _ _ => cases raised
    | _ => exact id
  astray _ _ _ := id

theorem exec_of_atWork (failed : setup.atWork n m = .error t m') (truncates : t.Truncates) :
    ∃ routine, setup.registry n.primitive = .ok (some routine) ∧
      routine.exec setup.capacity m = .error t m' := by
  rcases setup.atWork_cases n with ⟨routine, asked, same⟩ | ⟨message, same⟩
  · rw [same] at failed
    exact ⟨routine, asked, failed⟩
  · rw [same] at failed
    cases failed
    exact truncates.elim

theorem exec_of_callNative (failed : setup.callNative n args m = .error t m')
    (truncates : t.Truncates) :
    n.arity = args ∧ args ≤ m.stack.height ∧ ∃ routine,
      setup.registry n.primitive = .ok (some routine) ∧
        routine.exec setup.capacity m = .error t m' := by
  rw [callNative_eq_atWork] at failed
  by_cases arity : n.arity = args
  · rw [if_neg (not_not_intro arity)] at failed
    rcases bind_eq_error failed with low | ⟨_, m₁, required, counting⟩
    · have kept : (requireHeight args : Exec σ Unit).Keeps (fun _ => True)
          (fun t => ¬ t.Truncates) fun _ => True := keeps_requireHeight id
      exact absurd truncates (kept.of_error_anywhere low)
    obtain ⟨enough, rfl⟩ := requireHeight_eq_ok required
    rcases bind_eq_error counting with impossible | ⟨before, m₂, counted, working⟩
    · cases impossible
    cases counted
    rcases bind_eq_error working with broken | ⟨_, m₃, _, recounting⟩
    · exact ⟨arity, enough, exec_of_atWork broken truncates⟩
    rcases bind_eq_error recounting with impossible | ⟨after, m₄, _, comparing⟩
    · cases impossible
    by_cases balanced : after = m₁.stack.height - args + 1
    · rw [if_neg (not_not_intro balanced)] at comparing
      cases comparing
    · rw [if_pos balanced] at comparing
      cases comparing
      exact truncates.elim
  · rw [if_pos arity] at failed
    cases failed
    exact truncates.elim

end Setup

namespace Machine

open Exec

variable {setup : Setup σ} {m m₁ m₂ m' : Machine σ} {i : Instr Nat} {routine : Routine σ} {t : Trap}

/-- A native is called with the arguments that it is declared with; its routine finds the second
machine. -/
inductive Invokes (setup : Setup σ) : Machine σ → Routine σ → Machine σ → Prop where
  | intro {pc args : Nat} {n : Native} {vs : List Value} {host : σ} {routine : Routine σ}
      (here : setup.code.HasInstr pc (.call args)) (arity : n.arity = args)
      (enough : args ≤ vs.length) (asked : setup.registry n.primitive = .ok (some routine)) :
      Invokes setup (on pc (.native n :: vs) host) routine (on (pc + Opcode.call.size) vs host)

theorem Invokes.next_eq (invokes : Invokes setup m routine m₁)
    (broken : routine.exec setup.capacity m₁ = .error t m₂) :
    next setup m = .halt (t.halt setup.code.length m.pc) m₂ := by
  cases invokes with
  | intro here arity enough asked => exact next_call_native_error here arity asked enough broken

theorem invokes_of_perform (here : setup.code.HasInstr m.pc i)
    (failed : setup.perform i ⟨m.pc + i.size, m.stack, m.host⟩ = .error t m')
    (truncates : t.Truncates) :
    ∃ routine m₁, Invokes setup m routine m₁ ∧ routine.exec setup.capacity m₁ = .error t m' := by
  have allows := setup.allows_whole i
  by_cases call : ∃ args, i = .call args
  · obtain ⟨args, rfl⟩ := call
    rcases bind_eq_error failed with low | ⟨v, m₁, popped, called⟩
    · have kept : (pop : Exec σ Value).Keeps (fun _ => True) (fun t => ¬ t.Truncates) fun _ => True :=
        keeps_pop id
      exact absurd truncates (kept.of_error_anywhere low)
    obtain ⟨vs, whole, rfl⟩ := pop_eq_ok popped
    have values : m.stack.toList = v :: vs := congrArg (·.stack.toList) whole
    rw [eq_on rfl values]
    -- What is called decides: the machine's own part of a call raises other faults.
    cases v with
    | native n =>
      obtain ⟨arity, enough, routine, asked, broken⟩ := Setup.exec_of_callNative called truncates
      rw [eq_on rfl values] at here
      exact ⟨routine, _, .intro here arity enough asked, broken⟩
    | address a =>
      have kept := Setup.keeps_callFunction allows (a := a) trivial
      exact absurd truncates (kept.of_error_anywhere called)
    | int z =>
      cases called
      exact truncates.elim
  · have kept := Setup.keeps_perform allows fun args same _ _ => absurd ⟨args, same⟩ call
    exact absurd truncates (kept.of_error_anywhere failed)

/-- Why a machine reports a truncated instruction: the instruction is cut off, a native raised an
error for a number out of its range, or a native reported it itself. -/
inductive TruncatedBy (setup : Setup σ) (m : Machine σ) : Nat → String → Number → Prop where
  | cutOff {op : Opcode} {reason : String} (fetched : setup.code.fetch m.pc = .ok op)
      (cut : setup.code.length < m.pc + op.size) : TruncatedBy setup m m.pc reason m.pc
  | outOfRange {routine : Routine σ} {m₁ m₂ : Machine σ} {reason : String}
      (invokes : Invokes setup m routine m₁)
      (broken : routine.exec setup.capacity m₁ = .error (.outOfRange reason) m₂) :
      TruncatedBy setup m m.pc reason m.pc
  | reported {routine : Routine σ} {m₁ m₂ : Machine σ} {place : Nat} {reason : String}
      {own : Number} {asked : Option Number} (invokes : Invokes setup m routine m₁)
      (broken : routine.exec setup.capacity m₁ = .error (.fault (.truncated place reason) asked) m₂) :
      TruncatedBy setup m place reason own

theorem truncatedBy_of_halt {op : Opcode} {place : Nat} {reason : String} {own : Number}
    (fetched : setup.code.fetch m.pc = .ok op)
    (halted : next setup m = .halt (.fault (.truncated place reason) own) m') :
    TruncatedBy setup m place reason own := by
  rcases hasInstr_or_cutOff fetched with ⟨_, i, _, here⟩ | ⟨outside, e, _, cut⟩
  · rcases halt_cases here halted with ⟨_, other⟩ | ⟨t, broken, same⟩
    · cases other
    rcases Trap.eq_of_halt_truncated same.symm with ⟨rfl, rfl, rfl⟩ | ⟨asked, rfl⟩
    · obtain ⟨routine, m₁, invokes, raised⟩ := invokes_of_perform here broken trivial
      exact .outOfRange invokes raised
    · obtain ⟨routine, m₁, invokes, raised⟩ := invokes_of_perform here broken trivial
      exact .reported invokes raised
  · cases halted.symm.trans cut.halts
    exact .cutOff fetched (Nat.lt_of_not_ge outside)

/-- A run that ends with a truncated instruction has a cause for it, and an error that a native
raises, not for a number out of its range and not in the machine's name, ends the run as it is. -/
theorem failures_have_causes (setup : Setup σ) (observe : τ → Event → τ) (seen : τ) (host : σ) :
    (∀ limit seen' place reason own m', run setup observe limit seen (.start host) =
        (.fault (.truncated place reason) own, seen', m') →
      ∃ es m, Traces setup es (.start host) m ∧ TruncatedBy setup m place reason own) ∧
    ∀ es m routine m₁ message m₂, Traces setup es (.start host) m → Invokes setup m routine m₁ →
      routine.exec setup.capacity m₁ = .error (.foreign message) m₂ →
      ∀ limit, es.length < limit →
        ∃ seen', run setup observe limit seen (.start host) = (.foreign message, seen', m₂) := by
  constructor
  · intro limit seen' place reason own m' ran
    obtain ⟨es, m, tail, path, closes, _⟩ := traces_of_run ran
    generalize same : Halt.fault (.truncated place reason) own = why at closes
    cases closes with
    | exhausted _ => cases same
    | unfetched fetched =>
      cases same
      rcases Code.fetch_eq_error fetched with ⟨_, same⟩ | ⟨_, _, _, same⟩ <;> cases same
    | halted fetched last =>
      subst same
      exact ⟨es, m, path, truncatedBy_of_halt fetched last⟩
  · intro es m routine m₁ message m₂ path invokes broken limit long
    obtain ⟨seen₁, first⟩ := run_of_reaches observe path.reaches (limit - es.length) seen
    obtain ⟨seen₂, last⟩ := run_of_halt observe (invokes.next_eq broken) (limit - es.length - 1) seen₁
    rw [Nat.sub_add_cancel (Nat.sub_pos_of_lt long)] at last
    rw [Nat.sub_add_cancel (Nat.le_of_lt long)] at first
    exact ⟨seen₂, first.trans last⟩

def raising (t : Trap) : Setup Unit where
  code := ⟨((Instr.pushNative 0).bytes ++ (Instr.call 0).bytes).toArray,
    #[⟨"boom", "boom", 0⟩], [], "sample"⟩
  registry := fun _ => .ok (some (.raise t))
  capacity := 8

theorem failures_have_causes_samples :
    (∃ es m, Traces ⟨bareCode ((Instr.ret 0 0).bytes.take 5), .empty, 8⟩ es (.start ()) m ∧
      TruncatedBy ⟨bareCode ((Instr.ret 0 0).bytes.take 5), .empty, 8⟩ m 0
        (OutsideCode.message ⟨4, 5, 5⟩) 0) ∧
    ∃ seen, run (raising (.foreign "jammed")) record 2 [] (.start ()) =
      (.foreign "jammed", seen, on 10 [] ()) := by
  have ran : run ⟨bareCode ((Instr.ret 0 0).bytes.take 5), .empty, 8⟩ record 1 [] (.start ()) =
      (.fault (.truncated 0 (OutsideCode.message ⟨4, 5, 5⟩)) 0, [⟨0, .ret, 0, none⟩],
        on 5 [] ()) := rfl
  have first : next (raising (.foreign "jammed")) (.start ()) =
      .next (on 5 [.native ⟨"boom", "boom", 0⟩] ()) := rfl
  have path : Traces (raising (.foreign "jammed")) [⟨0, .pushNative, 0, none⟩] (.start ())
      (on 5 [.native ⟨"boom", "boom", 0⟩] ()) := .head rfl first (.refl _)
  have here : (raising (.foreign "jammed")).code.HasInstr 5 (.call 0) := ⟨rfl, rfl⟩
  have invokes : Invokes (raising (.foreign "jammed")) (on 5 [.native ⟨"boom", "boom", 0⟩] ())
      (.raise (.foreign "jammed")) (on 10 [] ()) := .intro here rfl (Nat.zero_le _) rfl
  exact ⟨(failures_have_causes _ record [] ()).1 _ _ _ _ _ _ ran,
    (failures_have_causes _ record [] ()).2 _ _ _ _ _ _ path invokes rfl 2 (by decide)⟩

/-- An error that a native raises for a number out of its range is reported as a truncated
instruction, though the call lies inside the code. -/
theorem truncated_without_cut :
    ¬ ∀ (setup : Setup Unit) (limit place : Nat) (reason : String) (own : Number)
        (trace : List Event) (m : Machine Unit),
      run setup record limit [] (.start ()) = (.fault (.truncated place reason) own, trace, m) →
      ∃ op, setup.code.fetch place = .ok op ∧ setup.code.length < place + op.size := by
  intro cut
  have ran : run (raising (.outOfRange "out of tape")) record 2 [] (.start ()) =
      (.fault (.truncated 5 "out of tape") 5,
        [⟨0, .pushNative, 0, none⟩, ⟨5, .call, 1, some (.native ⟨"boom", "boom", 0⟩)⟩],
        on 10 [] ()) := rfl
  obtain ⟨op, fetched, outside⟩ := cut _ _ _ _ _ _ _ ran
  have called : (raising (.outOfRange "out of tape")).code.fetch 5 = .ok .call := rfl
  cases called.symm.trans fetched
  exact absurd outside (by decide)

end Machine

end Tally
