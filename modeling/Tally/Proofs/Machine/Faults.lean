import Tally.Proofs.Machine.Operands
import Tally.Proofs.Machine.Traces

namespace Tally

def Native.OverMemory (n : Native) : Prop := n.primitive = "print_int" ∨ n.primitive = "read_int"

/-- What code over memory computes with: it has no addresses but natural numbers. -/
def Value.Homely : Value → Prop
  | native n => n.OverMemory
  | address a => ∃ n : Nat, a = n
  | int _ => True

def Trap.Placeless (t : Trap) : Prop := ∃ f, t = .fault f none

namespace Setup

open Exec

variable {code : Code} {capacity : Nat} {n : Native}

theorem homely_printInt : ((printInt Memory.channel).exec capacity).Keeps Value.Homely
    Trap.Placeless fun _ => True := by
  refine (keeps_popInt ⟨_, rfl⟩ fun _ => ⟨_, rfl⟩).bind fun z _ => ?_
  refine (keeps_askHost fun _ _ failed => ?_).bind fun _ _ => ?_
  · cases failed
  · exact (keeps_push trivial ⟨_, rfl⟩).bind fun _ _ => keeps_pure trivial

theorem homely_readInt : ((readInt Memory.channel).exec capacity).Keeps Value.Homely
    Trap.Placeless fun _ => True := by
  refine (keeps_askHost fun _ _ failed => ?_).bind fun _ _ => ?_
  · cases failed
  · exact (keeps_push trivial ⟨_, rfl⟩).bind fun _ _ => keeps_pure trivial

theorem homely_atWork (bound : n.OverMemory) :
    ((Setup.inMemory code capacity).atWork n).Keeps Value.Homely Trap.Placeless fun _ => True := by
  rcases bound with print | read
  · rw [atWork_of_asked (Machine.asked_print print)]
    exact homely_printInt
  · rw [atWork_of_asked (Machine.asked_read read)]
    exact homely_readInt

theorem homely_perform (bound : ∀ n ∈ code.natives, n.OverMemory) (i : Instr Nat) :
    ((Setup.inMemory code capacity).perform i).Keeps Value.Homely Trap.Placeless fun _ => True := by
  have allows : (Setup.inMemory code capacity).Allows Value.Homely Trap.Placeless i := {
    int := fun _ => trivial
    address := fun n => ⟨n, rfl⟩
    native := bound
    fault := fun f _ => ⟨f, rfl⟩
    astray := by
      rintro a ⟨n, rfl⟩ missing
      rw [Number.toNat?_natCast] at missing
      cases missing }
  exact keeps_perform allows fun _ _ _ => homely_atWork

end Setup

namespace Machine

variable {code : Code} {capacity limit : Nat} {inputs : List Int} {why : Halt}
  {m m' : Machine Memory} {trace : List Event}

theorem homely_of_next (bound : ∀ n ∈ code.natives, n.OverMemory) (homely : m.Holds Value.Homely)
    (stepped : next (.inMemory code capacity) m = .next m') : m'.Holds Value.Homely := by
  obtain ⟨op, fetched, _⟩ := fetch_of_next stepped
  rcases hasInstr_or_cutOff fetched with ⟨_, i, _, here⟩ | ⟨_, e, place, cut⟩
  · have done := perform_of_next here stepped
    exact ((Setup.homely_perform bound i).of_ok (m := ⟨m.pc + i.size, m.stack, m.host⟩)
      homely done).1
  · cases stepped.symm.trans cut.halts

theorem fault_of_halt {op : Opcode} (bound : ∀ n ∈ code.natives, n.OverMemory)
    (homely : m.Holds Value.Homely)
    (fetched : (Setup.inMemory code capacity).code.fetch m.pc = .ok op)
    (halted : next (.inMemory code capacity) m = .halt why m') (goes : why ≠ .stopped) :
    ∃ f, why = .fault f m.pc := by
  rcases hasInstr_or_cutOff fetched with ⟨_, i, _, here⟩ | ⟨_, e, place, cut⟩
  · rcases halt_cases here halted with ⟨_, stopped⟩ | ⟨t, broken, rfl⟩
    · exact absurd stopped goes
    · obtain ⟨f, rfl⟩ := (Setup.homely_perform bound i).of_error
        (m := ⟨m.pc + i.size, m.stack, m.host⟩) homely broken
      exact ⟨f, rfl⟩
  · cases halted.symm.trans cut.halts
    exact ⟨_, rfl⟩

/-- A run from a machine that fails in place: an instruction that was seen last is broken off, or
there is none to be read where the machine stands. -/
inductive Fails (setup : Setup Memory) (first : Machine Memory) :
    Halt → List Event → Machine Memory → Prop where
  | broken {es : List Event} {op : Opcode} {f : Fault} {m m' : Machine Memory}
      (path : Traces setup es first m) (fetched : setup.code.fetch m.pc = .ok op)
      (last : next setup m = .halt (.fault f m.pc) m') :
      Fails setup first (.fault f m.pc) (es ++ [m.event op]) m'
  | outside {es : List Event} {m : Machine Memory} (path : Traces setup es first m)
      (past : setup.code.length ≤ m.pc) : Fails setup first (.fault (.outsideCode m.pc) m.pc) es m
  | unknown {es : List Event} {m : Machine Memory} {byte : Nat} (path : Traces setup es first m)
      (read : setup.code.readByte m.pc = .ok byte) (strange : Opcode.ofCode? byte = none) :
      Fails setup first (.fault (.unknownOpcode byte) m.pc) es m

/-- A run over memory that does not stop by itself ends in a fault, at the instruction that is seen
last or, if there is none to be read, where it would stand. -/
theorem fails_of_run (bound : ∀ n ∈ code.natives, n.OverMemory)
    (ran : run (.inMemory code capacity) record limit [] (.start (.ofInputs inputs)) =
      (why, trace, m)) (goes : why ≠ .stopped) (ended : why ≠ .exhausted) :
    Fails (.inMemory code capacity) (.start (.ofInputs inputs)) why trace m := by
  obtain ⟨es, m₁, tail, path, closes, same⟩ := traces_of_run ran
  rw [foldl_record, List.nil_append] at same
  subst same
  -- Addresses stay natural numbers all along, so that no jump goes astray.
  have homely : m₁.Holds Value.Homely :=
    path.keeps (fun _ _ => homely_of_next bound) (List.forall_mem_nil _)
  cases closes with
  | exhausted _ => exact absurd rfl ended
  | unfetched fetched =>
    rw [List.append_nil]
    rcases Code.fetch_eq_error fetched with ⟨past, rfl⟩ | ⟨byte, read, strange, rfl⟩
    · exact .outside path past
    · exact .unknown path read strange
  | halted fetched last =>
    obtain ⟨f, rfl⟩ := fault_of_halt bound homely fetched last goes
    exact .broken path fetched last

theorem fails_of_run_samples :
    Fails (.inMemory (bareCode ((Instr.pushInt 5).bytes ++ (Instr.ret 0 0).bytes.take 5)) 8)
        (.start (.ofInputs [])) (.fault (.truncated 9 (OutsideCode.message ⟨4, 14, 14⟩)) 9)
        [⟨0, .pushInt, 0, none⟩, ⟨9, .ret, 1, some (.int 5)⟩] (on 14 [.int 5] (.ofInputs [])) ∧
      Fails (.inMemory (bareCode (Instr.jump 100).bytes) 8) (.start (.ofInputs []))
        (.fault (.outsideCode 100) 100) [⟨0, .jump, 0, none⟩] (on 100 [] (.ofInputs [])) := by
  have cut : run (.inMemory (bareCode ((Instr.pushInt 5).bytes ++ (Instr.ret 0 0).bytes.take 5)) 8)
      record 5 [] (.start (.ofInputs [])) =
        (.fault (.truncated 9 (OutsideCode.message ⟨4, 14, 14⟩)) 9,
          [⟨0, .pushInt, 0, none⟩, ⟨9, .ret, 1, some (.int 5)⟩],
          on 14 [.int 5] (.ofInputs [])) := rfl
  have left : run (.inMemory (bareCode (Instr.jump 100).bytes) 8) record 5 []
      (.start (.ofInputs [])) =
        (.fault (.outsideCode 100) 100, [⟨0, .jump, 0, none⟩], on 100 [] (.ofInputs [])) := rfl
  exact ⟨fails_of_run nofun cut nofun nofun, fails_of_run nofun left nofun nofun⟩

end Machine

end Tally
