import Tally.Code.Builder

namespace Tally

/-- Blocks of bytes, known by number. A block keeps its length. -/
structure Storage where
  blocks : Array (Array UInt8)

namespace Storage

def block (s : Storage) (i : Nat) : Array UInt8 := s.blocks.getD i #[]

def contents (s : Storage) (i : Nat) : List UInt8 := (s.block i).toList

def allocate (s : Storage) (bytes : Array UInt8) : Nat × Storage :=
  (s.blocks.size, ⟨s.blocks.push bytes⟩)

/-- Puts bytes in the place of those from an offset on, if the block has as many. -/
def write (s : Storage) (i offset : Nat) (bytes : List UInt8) : Option Storage :=
  if offset + bytes.length ≤ (s.block i).size then
    some ⟨s.blocks.modify i fun block => Builder.overwriteFrom block offset bytes⟩
  else none

end Storage

inductive StorageFault where
  | operand (e : OperandFault)
  | outside
deriving DecidableEq

def StorageFault.message : StorageFault → String
  | operand e => e.message
  | outside => "Offset is outside the bounds of the DataView"

inductive Write where
  | op (code : Nat)
  | count (value : Number)
  | number (value : Int)
  | patch (offset value : Number)

inductive Request where
  | write (w : Write)
  | take
  /-- Asks for a copy of the bytes of code, the codes counted in the order they were taken. -/
  | copy (code : Nat)
  | scribble (copy offset : Nat) (byte : UInt8)

inductive Reply where
  | wrote (offset : Option Nat)
  | failed (e : StorageFault)
  | taken (code : Nat)
  | copied (copy : Nat)
  | scribbled
  | absent
deriving DecidableEq

/-- All that can be seen: the offset and the bytes so far, the bytes of codes and of copies. -/
structure View where
  offset : Nat
  bytes : List UInt8
  codes : List (List UInt8)
  copies : List (List UInt8)
deriving DecidableEq

def session {σ : Type} (perform : Request → σ → Reply × σ) (view : σ → View) :
    σ → List Request → List (Reply × View)
  | _, [] => []
  | s, r :: rs =>
    let (reply, s') := perform r s
    (reply, view s') :: session perform view s' rs

/-- A builder in storage, with all that was taken from it. Its bytes stand at the front of a block and
move to a longer one when it is full; codes taken from it, and copies of their bytes that are given
away, have blocks of their own. -/
structure Bench where
  storage : Storage
  block : Nat
  size : Nat
  codes : List Nat
  copies : List Nat

abbrev Working := EStateM StorageFault Bench

def doubledTo (needed capacity : Nat) (positive : 0 < capacity) : Nat :=
  if capacity < needed then doubledTo needed (2 * capacity) (Nat.mul_pos (by decide) positive)
  else capacity
termination_by needed - capacity

namespace Bench

def ofCapacity (capacity : Nat) : Bench := ⟨⟨#[Array.replicate capacity 0]⟩, 0, 0, [], []⟩

def withCapacity (capacity : Number) : Except OperandFault Bench :=
  if 0 ≤ capacity.whole ∧ capacity.whole ≤ Builder.greatestCapacity then
    .ok (ofCapacity capacity.whole.toNat)
  else .error (.capacity capacity)

def held (b : Bench) : Array UInt8 := b.storage.block b.block

/-- The bytes of a longer block that begins with what is written. -/
def grown (needed : Nat) (b : Bench) : Array UInt8 :=
  let capacity := doubledTo needed (max b.held.size 16) (by omega)
  Builder.overwriteFrom (Array.replicate capacity 0) 0 (b.held.toList.take b.size)

/-- Makes room for `needed` bytes: what is written moves to a longer block if they do not fit. -/
def withRoom (needed : Nat) (b : Bench) : Bench :=
  if b.held.size < needed then
    let (block, storage) := b.storage.allocate (b.grown needed)
    { b with storage, block }
  else b

def reserve (count : Nat) : Working Nat :=
  modifyGet fun b => (b.size, { b.withRoom (b.size + count) with size := b.size + count })

def put (offset : Nat) (bytes : List UInt8) : Working Unit := fun b =>
  match b.storage.write b.block offset bytes with
  | some storage => .ok () { b with storage }
  | none => .error .outside b

def checked {α : Type} : Except OperandFault α → Working α
  | .ok a => pure a
  | .error e => throw (.operand e)

def emit (bytes : List UInt8) : Working Nat := do
  let offset ← reserve bytes.length
  put offset bytes
  return offset

def operandOffset (offset : Number) (length : Nat) : Except OperandFault Nat :=
  match offset.toNat? with
  | some k => if k + 4 ≤ length then .ok k else .error (.place offset length)
  | none => .error (.place offset length)

def patchCount (offset value : Number) : Working Unit := do
  let bytes ← checked (Builder.countBytes value)
  let k ← checked (operandOffset offset (← get).size)
  put k bytes

def write : Write → Working (Option Nat)
  | .op code => some <$> emit (LittleEndian.encode 1 code)
  | .count value => do return some (← emit (← checked (Builder.countBytes value)))
  | .number value => do return some (← emit (← checked (Builder.numberBytes value)))
  | .patch offset value => do
    patchCount offset value
    return none

def perform : Request → Bench → Reply × Bench
  | .write w, b =>
    match write w b with
    | .ok offset b' => (.wrote offset, b')
    | .error e b' => (.failed e, b')
  | .take, b =>
    let (block, storage) := b.storage.allocate (b.held.extract 0 b.size)
    (.taken b.codes.length, { b with storage, codes := b.codes ++ [block] })
  | .copy code, b =>
    match b.codes[code]? with
    | some i =>
      let (block, storage) := b.storage.allocate (b.storage.block i)
      (.copied b.copies.length, { b with storage, copies := b.copies ++ [block] })
    | none => (.absent, b)
  | .scribble copy offset byte, b =>
    match b.copies[copy]? with
    | some i => (.scribbled, { b with storage := (b.storage.write i offset [byte]).getD b.storage })
    | none => (.absent, b)

def view (b : Bench) : View :=
  ⟨b.size, b.held.toList.take b.size, b.codes.map b.storage.contents,
    b.copies.map b.storage.contents⟩

end Bench

/-- The same writes in a builder whose bytes are a value. -/
def Builder.write (b : Builder) : Write → Except OperandFault (Option Nat × Builder)
  | .op code => .ok ((b.emitOp code).map some id)
  | .count value => (Prod.map some id) <$> b.emitCount value
  | .number value => (Prod.map some id) <$> b.emitNumber value
  | .patch offset value => (fun b' => (none, b')) <$> b.patchCount offset value

end Tally
