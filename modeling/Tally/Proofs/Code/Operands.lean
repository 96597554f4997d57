import Tally.Proofs.Code.Cuts
import Tally.Proofs.Code.Encoding
import Tally.Proofs.Machine.Decode

namespace Tally

theorem map_isOk_iff {ε α β : Type} (f : α → β) (x : Except ε α) :
    (∃ b, f <$> x = .ok b) ↔ ∃ a, x = .ok a := by
  cases x <;> simp [Functor.map, Except.map]

namespace Code

def readOperand (c : Code) (offset : Nat) : OperandKind → Except OutsideCode (Operand Nat)
  | .address => .address <$> c.readCount offset
  | .count => .count <$> c.readCount offset
  | .number => .number <$> c.readNumber offset

def readOperands (c : Code) : Nat → List OperandKind → Except OutsideCode (List (Operand Nat))
  | _, [] => .ok []
  | offset, kind :: kinds => do
    let o ← c.readOperand offset kind
    let os ← c.readOperands (offset + kind.size) kinds
    return o :: os

variable {c : Code} {offset pc : Nat} {op : Opcode}

theorem slice_isOk_iff {size : Nat} :
    (∃ bs, c.slice offset size = .ok bs) ↔ offset + size ≤ c.length := by
  unfold slice
  by_cases inside : offset + size ≤ c.length
  · simp [inside]
  · simp [inside]

theorem readByte_isOk_iff : (∃ byte, c.readByte offset = .ok byte) ↔ offset < c.length :=
  (map_isOk_iff _ _).trans slice_isOk_iff

theorem readOperand_isOk_iff (kind : OperandKind) :
    (∃ o, c.readOperand offset kind = .ok o) ↔ offset + kind.size ≤ c.length := by
  cases kind with
  | address | count | number =>
    exact (map_isOk_iff _ _).trans ((map_isOk_iff _ _).trans slice_isOk_iff)

theorem readOperands_isOk_iff (kinds : List OperandKind) (inside : offset ≤ c.length) :
    (∃ os, c.readOperands offset kinds = .ok os) ↔
      offset + kinds.foldr (fun k n => k.size + n) 0 ≤ c.length := by
  induction kinds generalizing offset with
  | nil => exact ⟨fun _ => inside, fun _ => ⟨[], rfl⟩⟩
  | cons kind kinds ih =>
    rw [List.foldr_cons]
    cases first : c.readOperand offset kind with
    | error e =>
      have cut : ¬ offset + kind.size ≤ c.length := by
        rw [← readOperand_isOk_iff, first]
        nofun
      constructor
      · rintro ⟨os, read⟩
        rw [readOperands, first] at read
        cases read
      · intro whole
        omega
    | ok o =>
      have fits := (readOperand_isOk_iff kind).mp ⟨o, first⟩
      rw [← Nat.add_assoc, ← ih fits, readOperands, first]
      cases c.readOperands (offset + kind.size) kinds with
      | error e => simp [bind, Except.bind]
      | ok os => simp [bind, Except.bind, pure, Except.pure]

theorem operands_operandsAt (c : Code) (offset : Nat) (op : Opcode) :
    Instr.operands <$> c.operandsAt offset op = c.readOperands offset op.operandKinds := by
  cases op with
  | pop | add | stop => rfl
  | pushFunc | pushNative | peek | call | jumpFalse | jump =>
    unfold operandsAt Opcode.operandKinds readOperands readOperands readOperand
    cases c.readCount offset <;> rfl
  | pushInt =>
    unfold operandsAt Opcode.operandKinds readOperands readOperands readOperand
    cases c.readNumber offset <;> rfl
  | ret =>
    unfold operandsAt Opcode.operandKinds readOperands readOperands readOperands readOperand
    have second : offset + OperandKind.count.size = offset + 4 := rfl
    rw [second]
    cases c.readCount offset with
    | error e => rfl
    | ok depth => cases c.readCount (offset + 4) <;> rfl

theorem readOperands_of_operandsAt {i : Instr Nat} (read : c.operandsAt offset op = .ok i) :
    c.readOperands offset op.operandKinds = .ok i.operands := by
  rw [← operands_operandsAt, read]
  rfl

theorem operandsAt_isOk_iff (inside : pc < c.length) :
    (∃ i, c.operandsAt (pc + 1) op = .ok i) ↔ pc + op.size ≤ c.length := by
  have read := readOperands_isOk_iff op.operandKinds (Nat.succ_le_of_lt inside)
  rw [Nat.succ_eq_add_one, ← operands_operandsAt, Nat.add_assoc] at read
  exact (map_isOk_iff _ _).symm.trans read

theorem readByte_of_fetch (fetched : c.fetch pc = .ok op) : c.readByte pc = .ok op.code := by
  cases read : c.readByte pc with
  | error e =>
    rw [fetch_of_error read] at fetched
    cases fetched
  | ok byte =>
    rw [fetch_of_byte read] at fetched
    cases known : Opcode.ofCode? byte with
    | none =>
      rw [known] at fetched
      cases fetched
    | some op' =>
      rw [known] at fetched
      cases fetched
      rw [Opcode.code_of_ofCode? known]

theorem lt_length_of_fetch (fetched : c.fetch pc = .ok op) : pc < c.length :=
  readByte_isOk_iff.mp ⟨_, readByte_of_fetch fetched⟩

theorem fetch_eq_error {f : Fault} (fetched : c.fetch pc = .error f) :
    (c.length ≤ pc ∧ f = .outsideCode pc) ∨
      ∃ byte, c.readByte pc = .ok byte ∧ Opcode.ofCode? byte = none ∧ f = .unknownOpcode byte := by
  cases read : c.readByte pc with
  | error e =>
    rw [fetch_of_error read] at fetched
    cases fetched
    have outside : ¬ pc < c.length := by
      rw [← readByte_isOk_iff, read]
      nofun
    exact Or.inl ⟨Nat.not_lt.mp outside, rfl⟩
  | ok byte =>
    rw [fetch_of_byte read] at fetched
    cases known : Opcode.ofCode? byte with
    | none =>
      rw [known] at fetched
      cases fetched
      exact Or.inr ⟨byte, rfl, known, rfl⟩
    | some op =>
      rw [known] at fetched
      cases fetched

theorem hasInstr_of_fetch {i : Instr Nat} (fetched : c.fetch pc = .ok op)
    (read : c.operandsAt (pc + 1) op = .ok i) : i.opcode = op ∧ c.HasInstr pc i := by
  obtain ⟨rfl, _, _⟩ := of_operandsAt read
  exact ⟨rfl, readByte_of_fetch fetched, read⟩

theorem instrsFrom_of_hasInstr {i : Instr Nat} (here : c.HasInstr pc i) (before : Listing) :
    c.instrsFrom before pc = c.instrsFrom ((pc, i) :: before) (pc + i.size) := by
  rw [instrsFrom, if_pos here.lt_length, here.opcode]
  simp only [Opcode.ofCode?_code, here.operands]
  rfl

theorem instrsFrom_of_error {e : OutsideCode} (fetched : c.fetch pc = .ok op)
    (missing : c.operandsAt (pc + 1) op = .error e) (before : Listing) :
    c.instrsFrom before pc = .error (.outside e) := by
  rw [instrsFrom, if_pos (lt_length_of_fetch fetched), readByte_of_fetch fetched]
  simp only [Opcode.ofCode?_code, missing]

theorem hasInstr_of_mem_instrs {listing : Listing} (listed : c.instrs = .ok listing)
    {i : Instr Nat} (member : (pc, i) ∈ listing) : c.HasInstr pc i := by
  obtain ⟨fits, bytes⟩ := of_instrs listed
  have all : ∀ j ∈ listing.map Prod.snd, j.Fits := by
    intro j member
    obtain ⟨entry, inside, rfl⟩ := List.mem_map.mp member
    exact fits entry inside
  have holds : c.Holds id 0 ((listing.map Prod.snd).map Line.instr) := holds_of_bytes _ [] all bytes
  have length : c.length = sizeOfLines ((listing.map Prod.snd).map Line.instr) := by
    rw [sizeOfLines_instrs, ← bytes]
    exact Array.length_toList.symm
  rw [Except.ok.inj (listed.symm.trans (instrs_of_holds holds length))] at member
  obtain ⟨before, j, after, split, same⟩ := mem_located.mp member
  cases same
  exact InstrAt.hasInstr holds ⟨before, after, split, Nat.zero_add _⟩

end Code

end Tally
