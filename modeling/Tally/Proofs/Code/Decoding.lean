import Tally.Code.Listing
import Tally.Code.Builder

namespace Tally

def Operand.bytes : Operand Nat → List UInt8
  | .address n => LittleEndian.encode 4 n
  | .count n => LittleEndian.encode 4 n
  | .number z => LittleEndian.encodeInt 8 z

def Operand.Fits : Operand Nat → Prop
  | .address n => n < LittleEndian.modulus 4
  | .count n => n < LittleEndian.modulus 4
  | .number z => z.bmod (LittleEndian.modulus 8) = z

def Instr.bytes (i : Instr Nat) : List UInt8 :=
  LittleEndian.encode 1 i.opcode.code ++ i.operands.flatMap Operand.bytes

def Instr.Fits (i : Instr Nat) : Prop := ∀ o ∈ i.operands, o.Fits

structure Code.HasInstr (c : Code) (offset : Nat) (i : Instr Nat) : Prop where
  opcode : c.readByte offset = .ok i.opcode.code
  operands : c.operandsAt (offset + 1) i.opcode = .ok i

theorem Code.HasInstr.unique {c : Code} {offset : Nat} {i j : Instr Nat}
    (one : c.HasInstr offset i) (other : c.HasInstr offset j) : i = j := by
  have codes : i.opcode.code = j.opcode.code := Except.ok.inj (one.opcode.symm.trans other.opcode)
  have opcodes : i.opcode = j.opcode := by
    have found := i.opcode.ofCode?_code
    rw [codes, j.opcode.ofCode?_code] at found
    exact (Option.some.inj found).symm
  have operands := one.operands
  rw [opcodes] at operands
  exact Except.ok.inj (operands.symm.trans other.operands)

theorem Instr.length_bytes (i : Instr Nat) : i.bytes.length = i.size := by
  cases i <;> simp [Instr.bytes, Instr.operands, Operand.bytes, LittleEndian.encodeInt, Instr.size,
    Instr.opcode, Opcode.size, Opcode.operandKinds, OperandKind.size]

theorem Instr.size_pos {α : Type} (i : Instr α) : 0 < i.size := by
  unfold Instr.size Opcode.size
  omega

theorem Opcode.code_lt (op : Opcode) : op.code < 11 := by
  cases op <;> decide

theorem LittleEndian.decodeInt_encodeInt {z : Int} (fits : z.bmod (LittleEndian.modulus 8) = z) :
    decodeInt (encodeInt 8 z) = z := by
  have positive : 0 ≤ z % modulus 8 := Int.emod_nonneg z (by decide)
  have whole : ((z % modulus 8).toNat : Int) = z % modulus 8 := Int.toNat_of_nonneg positive
  have bytes : decodeInt (encodeInt 8 z) =
      Int.bmod ((z % modulus 8).toNat % modulus 8 : Nat) (modulus 8) := by
    rw [decodeInt, encodeInt, decode_encode, length_encode]
  rw [bytes, Int.natCast_emod, whole]
  exact (Int.emod_bmod (z % modulus 8) (modulus 8)).trans ((Int.emod_bmod z (modulus 8)).trans fits)

namespace Code

theorem slice_of_bytes {c : Code} {before middle after : List UInt8}
    (bytes : c.bytes.toList = before ++ (middle ++ after)) :
    c.slice before.length middle.length = .ok middle := by
  have size : c.length = before.length + (middle.length + after.length) := by
    rw [Code.length, ← Array.length_toList, bytes, List.length_append, List.length_append]
  have inside : before.length + middle.length ≤ c.length := by omega
  unfold slice
  rw [if_pos inside, Array.toList_extract, bytes]
  simp

variable {c : Code} {before after : List UInt8}

theorem readByte_of_bytes {n : Nat} (small : n < LittleEndian.modulus 1)
    (bytes : c.bytes.toList = before ++ (LittleEndian.encode 1 n ++ after)) :
    c.readByte before.length = .ok n := by
  have read := slice_of_bytes bytes
  rw [LittleEndian.length_encode] at read
  unfold readByte
  rw [read]
  change Except.ok (LittleEndian.decode (LittleEndian.encode 1 n)) = .ok n
  rw [LittleEndian.decode_encode, Nat.mod_eq_of_lt small]

theorem readCount_of_bytes {n : Nat} (small : n < LittleEndian.modulus 4)
    (bytes : c.bytes.toList = before ++ (LittleEndian.encode 4 n ++ after)) :
    c.readCount before.length = .ok n := by
  have read := slice_of_bytes bytes
  rw [LittleEndian.length_encode] at read
  unfold readCount
  rw [read]
  change Except.ok (LittleEndian.decode (LittleEndian.encode 4 n)) = .ok n
  rw [LittleEndian.decode_encode, Nat.mod_eq_of_lt small]

theorem readNumber_of_bytes {z : Int} (small : z.bmod (LittleEndian.modulus 8) = z)
    (bytes : c.bytes.toList = before ++ (LittleEndian.encodeInt 8 z ++ after)) :
    c.readNumber before.length = .ok z := by
  have read := slice_of_bytes bytes
  rw [LittleEndian.encodeInt, LittleEndian.length_encode] at read
  unfold readNumber
  rw [read]
  change Except.ok (LittleEndian.decodeInt (LittleEndian.encodeInt 8 z)) = .ok z
  rw [LittleEndian.decodeInt_encodeInt small]

theorem operandsAt_of_bytes {i : Instr Nat} (fits : i.Fits)
    (bytes : c.bytes.toList = before ++ (i.operands.flatMap Operand.bytes ++ after)) :
    c.operandsAt before.length i.opcode = .ok i := by
  cases i with
  | pop | add | stop => rfl
  | pushFunc n | pushNative n | peek n | call n | jumpFalse n | jump n =>
    have small : n < LittleEndian.modulus 4 := by simpa [Instr.Fits, Instr.operands, Operand.Fits] using fits
    have read : c.readCount before.length = .ok n :=
      readCount_of_bytes small (by simpa [Instr.operands, Operand.bytes] using bytes)
    simp only [operandsAt, Instr.opcode, read]
    rfl
  | pushInt z =>
    have small : z.bmod (LittleEndian.modulus 8) = z := fits (.number z) (by simp [Instr.operands])
    have read : c.readNumber before.length = .ok z :=
      readNumber_of_bytes small (by simpa [Instr.operands, Operand.bytes] using bytes)
    simp only [operandsAt, Instr.opcode, read]
    rfl
  | ret depth args =>
    have smallDepth : depth < LittleEndian.modulus 4 := fits (.count depth) (by simp [Instr.operands])
    have smallArgs : args < LittleEndian.modulus 4 := fits (.count args) (by simp [Instr.operands])
    simp only [Instr.operands, List.flatMap_cons, List.flatMap_nil, Operand.bytes, List.append_nil,
      List.append_assoc] at bytes
    have first := readCount_of_bytes smallDepth bytes
    rw [← List.append_assoc] at bytes
    have second := readCount_of_bytes smallArgs bytes
    rw [List.length_append, LittleEndian.length_encode] at second
    simp only [operandsAt, Instr.opcode, first, second]
    rfl

theorem hasInstr_of_bytes {i : Instr Nat} (fits : i.Fits)
    (bytes : c.bytes.toList = before ++ (i.bytes ++ after)) : c.HasInstr before.length i := by
  unfold Instr.bytes at bytes
  rw [List.append_assoc] at bytes
  constructor
  · exact readByte_of_bytes (Nat.lt_trans i.opcode.code_lt (by decide)) bytes
  · rw [← List.append_assoc] at bytes
    have read := operandsAt_of_bytes fits bytes
    rwa [List.length_append, LittleEndian.length_encode] at read

end Code

end Tally
