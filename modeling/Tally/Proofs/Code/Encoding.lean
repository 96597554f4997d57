import Tally.Proofs.Code.Listed
import Mathlib.Algebra.Group.Int.Defs
import Mathlib.Algebra.Group.Nat.Defs

namespace Tally

def Operand.kind {α : Type} : Operand α → OperandKind
  | address _ => .address
  | count _ => .count
  | number _ => .number

/-- Addresses and counts are unsigned numbers of 32 bits, the others signed ones of 64 bits. -/
def Operand.InRange : Operand Nat → Prop
  | address n => n < 2 ^ 32
  | count n => n < 2 ^ 32
  | number z => -2 ^ 63 ≤ z ∧ z < 2 ^ 63

theorem Operand.inRange_iff {o : Operand Nat} : o.InRange ↔ o.Fits := by
  cases o with
  | address n | count n => exact Iff.rfl
  | number z =>
    have modulus : LittleEndian.modulus 8 = 18446744073709551616 := rfl
    unfold InRange Fits
    rw [modulus]
    constructor
    · intro range
      apply Int.bmod_eq_of_le <;> omega
    · intro same
      have lower := Int.le_bmod (x := z) (m := 18446744073709551616) (by decide)
      have upper := Int.bmod_lt (x := z) (m := 18446744073709551616) (by decide)
      omega

/-- An operation code and the operands written behind it, whether or not they belong together. -/
structure InstrParts where
  opcode : Opcode
  operands : List (Operand Nat)
deriving DecidableEq

namespace InstrParts

/-- The operands are those that the operation code asks for, and each is in its range. -/
structure Proper (w : InstrParts) : Prop where
  kinds : w.operands.map Operand.kind = w.opcode.operandKinds
  inRange : ∀ o ∈ w.operands, o.InRange

def placed (offset : Nat) : List InstrParts → List (Nat × InstrParts)
  | [] => []
  | w :: ws => (offset, w) :: placed (offset + w.opcode.size) ws

end InstrParts

def Instr.parts (i : Instr Nat) : InstrParts := ⟨i.opcode, i.operands⟩

def Listing.parts (listing : Listing) : List (Nat × InstrParts) :=
  listing.map fun (offset, i) => (offset, i.parts)

/-- Bytes of one instruction: an operation code and as many bytes as its operands have. -/
def IsWholeInstr (bs : List UInt8) : Prop :=
  ∃ (op : Opcode) (rest : List UInt8), bs = UInt8.ofNat op.code :: rest ∧ bs.length = op.size

namespace Builder

def emitOperand (b : Builder) : Operand Nat → Except OperandFault Builder
  | .address n => Prod.snd <$> b.emitCount n
  | .count n => Prod.snd <$> b.emitCount n
  | .number z => Prod.snd <$> b.emitNumber z

def emitParts (b : Builder) (w : InstrParts) : Except OperandFault Builder :=
  w.operands.foldlM emitOperand (b.emitOp w.opcode.code).2

def emitAll (b : Builder) (ws : List InstrParts) : Except OperandFault Builder :=
  ws.foldlM emitParts b

theorem append_append (bytes : Array UInt8) (bs cs : List UInt8) :
    bytes ++ bs ++ cs = bytes ++ (bs ++ cs) := by
  apply Array.toList_inj.mp
  simp

theorem emitOperand_eq (b : Builder) {o : Operand Nat} (fits : o.Fits) :
    b.emitOperand o = .ok ⟨b.bytes ++ o.bytes⟩ := by
  cases o with
  | address n | count n =>
    change Prod.snd <$> b.emit <$> countBytes n = _
    rw [Linking.countBytes_of_lt fits]
    rfl
  | number z =>
    have bytes : numberBytes z = .ok (LittleEndian.encodeInt 8 z) := if_pos fits
    change Prod.snd <$> b.emit <$> numberBytes z = _
    rw [bytes]
    rfl

theorem emitOperands_eq (os : List (Operand Nat)) (b : Builder) (fits : ∀ o ∈ os, o.Fits) :
    os.foldlM emitOperand b = .ok ⟨b.bytes ++ os.flatMap Operand.bytes⟩ := by
  induction os generalizing b with
  | nil => simp [pure, Except.pure]
  | cons o os ih =>
    have rest := ih ⟨b.bytes ++ o.bytes⟩ fun o' member => fits o' (List.mem_cons_of_mem _ member)
    rw [List.foldlM_cons, b.emitOperand_eq (fits o List.mem_cons_self), List.flatMap_cons,
      ← append_append]
    exact rest

theorem emitParts_eq (b : Builder) {i : Instr Nat} (fits : i.Fits) :
    b.emitParts i.parts = .ok ⟨b.bytes ++ i.bytes⟩ := by
  rw [Instr.bytes, ← append_append]
  exact emitOperands_eq i.operands _ fits

theorem emitAll_eq (is : List (Instr Nat)) (b : Builder) (fits : ∀ i ∈ is, i.Fits) :
    b.emitAll (is.map Instr.parts) = .ok ⟨b.bytes ++ is.flatMap Instr.bytes⟩ := by
  unfold emitAll
  induction is generalizing b with
  | nil => simp [pure, Except.pure]
  | cons i is ih =>
    have rest := ih ⟨b.bytes ++ i.bytes⟩ fun i' member => fits i' (List.mem_cons_of_mem _ member)
    rw [List.map_cons, List.foldlM_cons, b.emitParts_eq (fits i List.mem_cons_self),
      List.flatMap_cons, ← append_append]
    exact rest

end Builder

namespace Instr

theorem map_id (i : Instr Nat) : i.map id = i := by
  cases i <;> rfl

end Instr

theorem InstrParts.Proper.exists_instr {w : InstrParts} (proper : w.Proper) :
    ∃ i : Instr Nat, i.parts = w ∧ i.Fits := by
  obtain ⟨op, os⟩ := w
  obtain ⟨kinds, inRange⟩ := proper
  dsimp only at kinds inRange
  have found : ∃ i : Instr Nat, i.parts = ⟨op, os⟩ := by
    match op, os with
    | .pop, [] => exact ⟨.pop, rfl⟩
    | .add, [] => exact ⟨.add, rfl⟩
    | .stop, [] => exact ⟨.stop, rfl⟩
    | .pushFunc, [.address n] => exact ⟨.pushFunc n, rfl⟩
    | .jumpFalse, [.address n] => exact ⟨.jumpFalse n, rfl⟩
    | .jump, [.address n] => exact ⟨.jump n, rfl⟩
    | .pushNative, [.count n] => exact ⟨.pushNative n, rfl⟩
    | .peek, [.count n] => exact ⟨.peek n, rfl⟩
    | .call, [.count n] => exact ⟨.call n, rfl⟩
    | .ret, [.count n, .count m] => exact ⟨.ret n m, rfl⟩
    | .pushInt, [.number z] => exact ⟨.pushInt z, rfl⟩
  obtain ⟨i, same⟩ := found
  refine ⟨i, same, ?_⟩
  have operands : i.operands = os := congrArg InstrParts.operands same
  intro o member
  rw [operands] at member
  exact Operand.inRange_iff.mp (inRange o member)

theorem exists_of_map_eq_ok {ε α β : Type} {f : α → β} {x : Except ε α} {b : β}
    (mapped : f <$> x = .ok b) : ∃ a, x = .ok a ∧ f a = b := by
  cases x with
  | error e => cases mapped
  | ok a => exact ⟨a, rfl, Except.ok.inj mapped⟩

namespace LittleEndian

variable {bs : List UInt8}

theorem bmod_decodeInt (length : bs.length = 8) :
    (decodeInt bs).bmod (modulus 8) = decodeInt bs := by
  rw [decodeInt, length, Int.bmod_bmod]

theorem encodeInt_decodeInt (length : bs.length = 8) : encodeInt 8 (decodeInt bs) = bs := by
  have small := decode_lt bs
  rw [length] at small
  have whole : ((decode bs : Int) % modulus 8).toNat = decode bs := by
    rw [← Int.natCast_emod, Int.toNat_natCast, Nat.mod_eq_of_lt small]
  rw [encodeInt, decodeInt, length, Int.bmod_emod, whole, ← length, encode_decode]

end LittleEndian

def Code.HasBytes (c : Code) (offset : Nat) (bs : List UInt8) : Prop :=
  c.bytes.toList.drop offset = bs ++ c.bytes.toList.drop (offset + bs.length)

namespace Code

variable {c : Code} {offset : Nat}

theorem hasBytes_nil (c : Code) (offset : Nat) : c.HasBytes offset [] := rfl

theorem HasBytes.append {as bs : List UInt8} (first : c.HasBytes offset as)
    (rest : c.HasBytes (offset + as.length) bs) : c.HasBytes offset (as ++ bs) := by
  unfold HasBytes at first rest ⊢
  rw [first, rest, List.length_append, List.append_assoc, Nat.add_assoc]

theorem HasBytes.inside {bs : List UInt8} (here : c.HasBytes offset bs) (le : offset ≤ c.length) :
    offset + bs.length ≤ c.length := by
  have total : c.bytes.toList.length = c.length := Array.length_toList
  have lengths := congrArg List.length here
  rw [List.length_append, List.length_drop, List.length_drop, total] at lengths
  omega

theorem hasBytes_of_read {α : Type} {decode : List UInt8 → α} {size : Nat} {a : α}
    (read : decode <$> c.slice offset size = .ok a) :
    ∃ bs, bs.length = size ∧ decode bs = a ∧ c.HasBytes offset bs := by
  obtain ⟨bs, found, same⟩ := exists_of_map_eq_ok read
  unfold slice at found
  split at found
  · rename_i inside
    have bytes : bs = (c.bytes.toList.drop offset).take size := by
      rw [← Except.ok.inj found, Array.toList_extract, List.extract_eq_take_drop,
        Nat.add_sub_cancel_left]
    have length : bs.length = size := by
      have total : c.bytes.toList.length = c.length := Array.length_toList
      rw [bytes, List.length_take, List.length_drop, total]
      omega
    refine ⟨bs, length, same, ?_⟩
    unfold HasBytes
    rw [length, bytes, ← List.drop_drop, List.take_append_drop]
  · cases found

theorem hasBytes_of_readByte {n : Nat} (read : c.readByte offset = .ok n) :
    c.HasBytes offset (LittleEndian.encode 1 n) := by
  obtain ⟨bs, length, rfl, here⟩ := hasBytes_of_read read
  rwa [← length, LittleEndian.encode_decode]

theorem hasBytes_of_readCount {n : Nat} (read : c.readCount offset = .ok n) :
    n < LittleEndian.modulus 4 ∧ c.HasBytes offset (LittleEndian.encode 4 n) := by
  obtain ⟨bs, length, rfl, here⟩ := hasBytes_of_read read
  rw [← length]
  exact ⟨LittleEndian.decode_lt bs, by rwa [LittleEndian.encode_decode]⟩

theorem hasBytes_of_readNumber {z : Int} (read : c.readNumber offset = .ok z) :
    z.bmod (LittleEndian.modulus 8) = z ∧ c.HasBytes offset (LittleEndian.encodeInt 8 z) := by
  obtain ⟨bs, length, rfl, here⟩ := hasBytes_of_read read
  exact ⟨LittleEndian.bmod_decodeInt length, by rwa [LittleEndian.encodeInt_decodeInt length]⟩

theorem of_operandsAt {op : Opcode} {i : Instr Nat} (read : c.operandsAt offset op = .ok i) :
    i.opcode = op ∧ i.Fits ∧ c.HasBytes offset (i.operands.flatMap Operand.bytes) := by
  cases op with
  | pop | add | stop =>
    cases read
    exact ⟨rfl, by simp [Instr.Fits, Instr.operands], c.hasBytes_nil offset⟩
  | pushFunc | pushNative | peek | call | jumpFalse | jump =>
    obtain ⟨n, count, rfl⟩ := exists_of_map_eq_ok read
    obtain ⟨small, here⟩ := hasBytes_of_readCount count
    refine ⟨rfl, by simpa [Instr.Fits, Instr.operands, Operand.Fits] using small, ?_⟩
    simpa [Instr.operands, Operand.bytes] using here
  | pushInt =>
    obtain ⟨z, number, rfl⟩ := exists_of_map_eq_ok read
    obtain ⟨small, here⟩ := hasBytes_of_readNumber number
    refine ⟨rfl, by simpa [Instr.Fits, Instr.operands, Operand.Fits] using small, ?_⟩
    simpa [Instr.operands, Operand.bytes] using here
  | ret =>
    unfold operandsAt at read
    cases first : c.readCount offset with
    | error e =>
      rw [first] at read
      cases read
    | ok depth =>
      cases second : c.readCount (offset + 4) with
      | error e =>
        rw [first, second] at read
        cases read
      | ok args =>
        rw [first, second] at read
        cases read
        obtain ⟨smallDepth, here⟩ := hasBytes_of_readCount first
        obtain ⟨smallArgs, after⟩ := hasBytes_of_readCount second
        refine ⟨rfl, by simp [Instr.Fits, Instr.operands, Operand.Fits, smallDepth, smallArgs], ?_⟩
        have both := here.append (by rwa [LittleEndian.length_encode])
        simpa [Instr.operands, Operand.bytes] using both

theorem of_instrsFrom {before listing : Listing} (read : c.instrsFrom before offset = .ok listing)
    (inside : offset ≤ c.length) :
    ∃ rest : Listing, listing = before.reverse ++ rest ∧ (∀ e ∈ rest, e.2.Fits) ∧
      c.bytes.toList.drop offset = (rest.map Prod.snd).flatMap Instr.bytes := by
  induction before, offset using instrsFrom.induct c with
  | case1 before offset more e failed =>
    rw [instrsFrom, if_pos more, failed] at read
    cases read
  | case2 before offset more byte found unknown =>
    rw [instrsFrom, if_pos more, found] at read
    simp only [unknown] at read
    cases read
  | case3 before offset more byte found op known e failed =>
    rw [instrsFrom, if_pos more, found] at read
    simp only [known, failed] at read
    cases read
  | case4 before offset more byte found op known i operands ih =>
    rw [instrsFrom, if_pos more, found] at read
    simp only [known, operands] at read
    obtain ⟨rfl, fits, after⟩ := of_operandsAt operands
    have first := hasBytes_of_readByte found
    rw [← Opcode.code_of_ofCode? known] at first
    have here : c.HasBytes offset i.bytes := first.append (by rwa [LittleEndian.length_encode])
    have below := here.inside inside
    rw [i.length_bytes] at below
    obtain ⟨rest, same, all, bytes⟩ := ih read below
    refine ⟨(offset, i) :: rest, ?_, ?_, ?_⟩
    · rw [same, List.reverse_cons, List.append_assoc]
      rfl
    · intro e member
      rcases List.mem_cons.mp member with rfl | member
      · exact fits
      · exact all e member
    · unfold HasBytes at here
      rw [i.length_bytes] at here
      rw [here, List.map_cons, List.flatMap_cons, ← bytes]
      rfl
  | case5 before offset finished =>
    rw [instrsFrom, if_neg finished] at read
    cases read
    refine ⟨[], (List.append_nil _).symm, by simp, ?_⟩
    rw [List.drop_eq_nil_of_le]
    · rfl
    · rw [Array.length_toList]
      exact Nat.le_of_not_lt finished

theorem of_instrs {listing : Listing} (read : c.instrs = .ok listing) :
    (∀ e ∈ listing, e.2.Fits) ∧
      c.bytes.toList = (listing.map Prod.snd).flatMap Instr.bytes := by
  obtain ⟨rest, rfl, fits, bytes⟩ := of_instrsFrom read (Nat.zero_le _)
  exact ⟨fits, bytes⟩

theorem exists_emitAll {listing : Listing} (listed : c.instrs = .ok listing) :
    ∃ b, Builder.empty.emitAll (listing.map fun e => e.2.parts) = .ok b ∧ b.bytes = c.bytes := by
  obtain ⟨fits, bytes⟩ := of_instrs listed
  have fits' : ∀ i ∈ listing.map Prod.snd, i.Fits := by
    intro i member
    obtain ⟨e, inside, rfl⟩ := List.mem_map.mp member
    exact fits e inside
  have written := Builder.emitAll_eq (listing.map Prod.snd) Builder.empty fits'
  rw [List.map_map, ← bytes] at written
  exact ⟨_, written, by simp [Builder.empty]⟩

theorem holds_of_bytes (is : List (Instr Nat)) (before : List UInt8) (fits : ∀ i ∈ is, i.Fits)
    (bytes : c.bytes.toList = before ++ is.flatMap Instr.bytes) :
    c.Holds id before.length (is.map Line.instr) := by
  induction is generalizing before with
  | nil => trivial
  | cons i is ih =>
    rw [List.flatMap_cons] at bytes
    constructor
    · rw [i.map_id]
      exact hasInstr_of_bytes (fits i List.mem_cons_self) bytes
    · rw [← List.append_assoc] at bytes
      have rest := ih _ (fun i' member => fits i' (List.mem_cons_of_mem _ member)) bytes
      rwa [List.length_append, i.length_bytes] at rest

end Code

theorem sizeOfLines_instrs (is : List (Instr Nat)) :
    sizeOfLines (is.map Line.instr) = (is.flatMap Instr.bytes).length := by
  induction is with
  | nil => rfl
  | cons i is ih =>
    rw [List.map_cons, sizeOfLines_instr, List.flatMap_cons, List.length_append, i.length_bytes, ih]

theorem parts_located (offset : Nat) (is : List (Instr Nat)) :
    Listing.parts (located id offset (is.map Line.instr)) =
      InstrParts.placed offset (is.map Instr.parts) := by
  induction is generalizing offset with
  | nil => rfl
  | cons i is ih =>
    have rest := ih (offset + i.size)
    rw [List.map_cons, located, i.map_id, List.map_cons, InstrParts.placed]
    exact congrArg _ rest

theorem Code.instrs_of_bytes {c : Code} {is : List (Instr Nat)} (fits : ∀ i ∈ is, i.Fits)
    (bytes : c.bytes.toList = is.flatMap Instr.bytes) :
    ∃ listing : Listing, c.instrs = .ok listing ∧
      listing.parts = InstrParts.placed 0 (is.map Instr.parts) := by
  have holds := holds_of_bytes is [] fits bytes
  have length : c.length = sizeOfLines (is.map Line.instr) := by
    rw [sizeOfLines_instrs, ← bytes]
    exact Array.length_toList.symm
  exact ⟨_, instrs_of_holds holds length, parts_located 0 is⟩

theorem Instr.isWholeInstr_bytes (i : Instr Nat) : IsWholeInstr i.bytes :=
  ⟨i.opcode, i.operands.flatMap Operand.bytes, rfl, i.length_bytes⟩

theorem OperandKind.exists_operand (kind : OperandKind) {bs : List UInt8}
    (length : bs.length = kind.size) :
    ∃ o : Operand Nat, o.kind = kind ∧ o.Fits ∧ o.bytes = bs := by
  have small := LittleEndian.decode_lt bs
  have bytes := LittleEndian.encode_decode bs
  rw [length] at small bytes
  cases kind with
  | address => exact ⟨.address (LittleEndian.decode bs), rfl, small, bytes⟩
  | count => exact ⟨.count (LittleEndian.decode bs), rfl, small, bytes⟩
  | number =>
    exact ⟨.number (LittleEndian.decodeInt bs), rfl, LittleEndian.bmod_decodeInt length,
      LittleEndian.encodeInt_decodeInt length⟩

theorem exists_operands (kinds : List OperandKind) {bs : List UInt8}
    (length : bs.length = kinds.foldr (fun k n => k.size + n) 0) :
    ∃ os : List (Operand Nat), os.map Operand.kind = kinds ∧ (∀ o ∈ os, o.Fits) ∧
      os.flatMap Operand.bytes = bs := by
  induction kinds generalizing bs with
  | nil => exact ⟨[], rfl, by simp, (List.length_eq_zero_iff.mp length).symm⟩
  | cons kind kinds ih =>
    rw [List.foldr_cons] at length
    have first : (bs.take kind.size).length = kind.size := by
      rw [List.length_take]
      omega
    have later : (bs.drop kind.size).length = kinds.foldr (fun k n => k.size + n) 0 := by
      rw [List.length_drop]
      omega
    obtain ⟨o, here, fit, bytes⟩ := kind.exists_operand first
    obtain ⟨os, rest, fits, more⟩ := ih later
    refine ⟨o :: os, by rw [List.map_cons, here, rest], ?_, ?_⟩
    · intro o' member
      rcases List.mem_cons.mp member with rfl | member
      · exact fit
      · exact fits o' member
    · rw [List.flatMap_cons, bytes, more, List.take_append_drop]

theorem IsWholeInstr.exists_instr {bs : List UInt8} (whole : IsWholeInstr bs) :
    ∃ i : Instr Nat, i.bytes = bs ∧ i.Fits := by
  obtain ⟨op, rest, rfl, length⟩ := whole
  have width : rest.length = op.operandKinds.foldr (fun k n => k.size + n) 0 := by
    rw [List.length_cons, Opcode.size] at length
    omega
  obtain ⟨os, kinds, fits, bytes⟩ := exists_operands op.operandKinds width
  obtain ⟨i, same, fit⟩ := InstrParts.Proper.exists_instr (w := ⟨op, os⟩)
    ⟨kinds, fun o member => Operand.inRange_iff.mpr (fits o member)⟩
  refine ⟨i, ?_, fit⟩
  cases same
  rw [Instr.bytes, bytes]
  rfl

theorem exists_map_eq {α β : Type} {f : α → β} {good : α → Prop} {bs : List β}
    (each : ∀ b ∈ bs, ∃ a, f a = b ∧ good a) : ∃ as : List α, as.map f = bs ∧ ∀ a ∈ as, good a := by
  induction bs with
  | nil => exact ⟨[], rfl, by simp⟩
  | cons b bs ih =>
    obtain ⟨a, same, here⟩ := each b List.mem_cons_self
    obtain ⟨as, rest, all⟩ := ih fun b' member => each b' (List.mem_cons_of_mem _ member)
    refine ⟨a :: as, by rw [List.map_cons, same, rest], ?_⟩
    intro a' member
    rcases List.mem_cons.mp member with rfl | member
    · exact here
    · exact all a' member

theorem Code.instrs_isOk_iff {c : Code} :
    (∃ listing, c.instrs = .ok listing) ↔
      ∃ parts : List (List UInt8), (∀ part ∈ parts, IsWholeInstr part) ∧
        c.bytes.toList = parts.flatten := by
  constructor
  · rintro ⟨listing, listed⟩
    obtain ⟨_, bytes⟩ := of_instrs listed
    refine ⟨(listing.map Prod.snd).map Instr.bytes, ?_, bytes⟩
    intro part member
    obtain ⟨i, _, rfl⟩ := List.mem_map.mp member
    exact i.isWholeInstr_bytes
  · rintro ⟨parts, whole, bytes⟩
    obtain ⟨is, rfl, fits⟩ := exists_map_eq fun part member => (whole part member).exists_instr
    obtain ⟨listing, listed, _⟩ := instrs_of_bytes fits bytes
    exact ⟨listing, listed⟩

/-- What is written is listed as it was written; the instructions of a listing write the bytes
again; and there is no listing just where the bytes are not made up of whole instructions. -/
theorem Code.listing_inverts_writing (natives : Array Native) (functions : List EntryPoint)
    (filename : String) :
    (∀ ws : List InstrParts, (∀ w ∈ ws, w.Proper) →
      ∃ b, Builder.empty.emitAll ws = .ok b ∧
        ∃ listing : Listing, (b.toCode natives functions filename).instrs = .ok listing ∧
          listing.parts = InstrParts.placed 0 ws) ∧
    (∀ (c : Code) (listing : Listing), c.instrs = .ok listing →
      ∃ b, Builder.empty.emitAll (listing.map fun e => e.2.parts) = .ok b ∧
        (b.toCode natives functions filename).bytes = c.bytes) ∧
    ∀ c : Code, (∃ e, c.instrs = .error e) ↔
      ¬ ∃ parts : List (List UInt8), (∀ part ∈ parts, IsWholeInstr part) ∧
        c.bytes.toList = parts.flatten := by
  refine ⟨?_, ?_, ?_⟩
  · intro ws proper
    obtain ⟨is, rfl, fits⟩ := exists_map_eq fun w member => (proper w member).exists_instr
    let b : Builder := ⟨Builder.empty.bytes ++ is.flatMap Instr.bytes⟩
    have bytes : (b.toCode natives functions filename).bytes.toList = is.flatMap Instr.bytes := by
      simp [b, Builder.toCode, Builder.empty]
    obtain ⟨listing, listed, parts⟩ := instrs_of_bytes fits bytes
    exact ⟨_, Builder.emitAll_eq is Builder.empty fits, listing, listed, parts⟩
  · intro c listing listed
    exact exists_emitAll listed
  · intro c
    rw [← instrs_isOk_iff]
    cases c.instrs <;> simp

def sampleParts : List InstrParts :=
  [⟨.pushInt, [.number (-9223372036854775808)]⟩, ⟨.ret, [.count 4294967295, .count 0]⟩,
    ⟨.jump, [.address 4294967295]⟩, ⟨.pushInt, [.number 9223372036854775807]⟩, ⟨.stop, []⟩]

theorem sampleParts_proper : ∀ w ∈ sampleParts, w.Proper := by
  intro w member
  simp only [sampleParts, List.mem_cons, List.not_mem_nil, or_false] at member
  rcases member with rfl | rfl | rfl | rfl | rfl <;>
    exact ⟨rfl, by simp [Operand.InRange]⟩

theorem Code.listing_inverts_writing_sample :
    ∃ b, Builder.empty.emitAll sampleParts = .ok b ∧
      ∃ listing : Listing, (b.toCode #[] [] "sample").instrs = .ok listing ∧
        listing.parts = InstrParts.placed 0 sampleParts ∧
        ∃ b', Builder.empty.emitAll (listing.map fun e => e.2.parts) = .ok b' ∧
          (b'.toCode #[] [] "sample").bytes = (b.toCode #[] [] "sample").bytes := by
  obtain ⟨write, rewrite, _⟩ := listing_inverts_writing #[] [] "sample"
  obtain ⟨b, written, listing, listed, parts⟩ := write sampleParts sampleParts_proper
  exact ⟨b, written, listing, listed, parts, rewrite _ listing listed⟩

end Tally
