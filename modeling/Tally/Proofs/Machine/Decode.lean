import Tally.Machine
import Tally.Proofs.Effects

namespace Tally

namespace Code

variable {c : Code} {pc : Nat}

theorem fetch_of_error {e : OutsideCode} (missing : c.readByte pc = .error e) :
    c.fetch pc = .error (.outsideCode pc) := by
  have outside : Reader.nextByte ⟨c, pc⟩ = .error e := Reader.next_of_error missing 1
  unfold fetch
  simp only [outside]

theorem fetch_of_byte {byte : Nat} (found : c.readByte pc = .ok byte) :
    c.fetch pc = (Opcode.ofCode? byte).elim (.error (.unknownOpcode byte)) .ok := by
  have inside : Reader.nextByte ⟨c, pc⟩ = .ok (byte, ⟨c, pc + 1⟩) := Reader.next_of_ok found 1
  unfold fetch
  simp only [inside]
  cases Opcode.ofCode? byte with
  | none => rfl
  | some op => rfl

end Code

namespace Setup

variable {σ α : Type} {setup : Setup σ} {pc size : Nat}
  {read : Code → Nat → Except OutsideCode α} {e : OutsideCode} {op : Opcode} (stack : Stack) (host : σ)

theorem readOn_of_ok {a : α} (found : read setup.code pc = .ok a) :
    setup.readOn (Reader.next · size read) ⟨pc, stack, host⟩ = .ok a ⟨pc + size, stack, host⟩ := by
  unfold readOn
  simp only [Reader.next_of_ok found]

theorem readOn_of_error (missing : read setup.code pc = .error e) :
    setup.readOn (Reader.next · size read) ⟨pc, stack, host⟩ =
      .error (.outOfRange e.message) ⟨pc, stack, host⟩ := by
  unfold readOn
  simp only [Reader.next_of_error missing]

theorem map_readOn_of_ok {f : α → Instr Nat} {i : Instr Nat}
    (found : f <$> read setup.code pc = .ok i) :
    (f <$> setup.readOn (Reader.next · size read)) ⟨pc, stack, host⟩ =
      .ok i ⟨pc + size, stack, host⟩ := by
  cases here : read setup.code pc with
  | ok a =>
    rw [here] at found
    cases found
    exact map_of_ok (readOn_of_ok stack host here)
  | error e =>
    rw [here] at found
    cases found

theorem map_readOn_of_error {f : α → Instr Nat} (missing : f <$> read setup.code pc = .error e) :
    (f <$> setup.readOn (Reader.next · size read)) ⟨pc, stack, host⟩ =
      .error (.outOfRange e.message) ⟨pc, stack, host⟩ := by
  cases here : read setup.code pc with
  | ok a =>
    rw [here] at missing
    cases missing
  | error e' =>
    rw [here] at missing
    cases missing
    exact map_of_error (readOn_of_error stack host here)

theorem decode_of_ok {i : Instr Nat} (found : setup.code.operandsAt (pc + 1) op = .ok i) :
    setup.decode op ⟨pc + 1, stack, host⟩ = .ok i ⟨pc + op.size, stack, host⟩ := by
  cases op with
  | pop | add | stop =>
    cases found
    rfl
  | pushFunc | pushNative | peek | call | jumpFalse | jump | pushInt =>
    exact map_readOn_of_ok stack host found
  | ret =>
    cases first : setup.code.readCount (pc + 1) with
    | error e =>
      simp only [Code.operandsAt, first] at found
      cases found
    | ok depth =>
      cases second : setup.code.readCount (pc + 1 + 4) with
      | error e =>
        simp only [Code.operandsAt, first, second] at found
        cases found
      | ok args =>
        simp only [Code.operandsAt, first, second] at found
        cases found
        exact (bind_of_ok (readOn_of_ok stack host first)).trans
          (bind_of_ok (readOn_of_ok stack host second))

theorem decode_of_error (missing : setup.code.operandsAt (pc + 1) op = .error e) :
    ∃ place, setup.decode op ⟨pc + 1, stack, host⟩ =
      .error (.outOfRange e.message) ⟨place, stack, host⟩ := by
  cases op with
  | pop | add | stop => cases missing
  | pushFunc | pushNative | peek | call | jumpFalse | jump | pushInt =>
    exact ⟨pc + 1, map_readOn_of_error stack host missing⟩
  | ret =>
    cases first : setup.code.readCount (pc + 1) with
    | error e' =>
      simp only [Code.operandsAt, first] at missing
      cases missing
      exact ⟨pc + 1, bind_of_error (readOn_of_error stack host first)⟩
    | ok depth =>
      cases second : setup.code.readCount (pc + 1 + 4) with
      | error e' =>
        simp only [Code.operandsAt, first, second] at missing
        cases missing
        -- The first count was read, so the machine stands behind it.
        exact ⟨pc + 1 + 4, (bind_of_ok (readOn_of_ok stack host first)).trans
          (bind_of_error (readOn_of_error stack host second))⟩
      | ok args =>
        simp only [Code.operandsAt, first, second] at missing
        cases missing

end Setup

end Tally
