import Tally.Code.Bench

namespace Tally

structure Sheet where
  bytes : List UInt8
  codes : List (List UInt8)
  copies : List (List UInt8)

namespace Sheet

def blank : Sheet := ⟨[], [], []⟩

/-- The numbers of counts are below `2 ^ 32`. -/
def countBound : Nat := 4294967296

/-- Numbers lie from `- 2 ^ 63` up to below `2 ^ 63`. -/
def numberBound : Int := 9223372036854775808

def count? (value : Number) : Option Nat := value.toNat?.filter (· < countBound)

/-- The bytes after a write, and for one at the end how many there were before. -/
def written (bytes : List UInt8) : Write → Except OperandFault (Option Nat × List UInt8)
  | .op code => .ok (some bytes.length, bytes ++ LittleEndian.encode 1 code)
  | .count value =>
    match count? value with
    | some n => .ok (some bytes.length, bytes ++ LittleEndian.encode 4 n)
    | none => .error (.count value)
  | .number value =>
    if -numberBound ≤ value ∧ value < numberBound then
      .ok (some bytes.length, bytes ++ LittleEndian.encodeInt 8 value)
    else .error (.number value)
  | .patch offset value =>
    match count? value, offset.toNat?.filter (· + 4 ≤ bytes.length) with
    | none, _ => .error (.count value)
    | some _, none => .error (.place offset bytes.length)
    | some n, some k =>
      .ok (none, bytes.take k ++ LittleEndian.encode 4 n ++ bytes.drop (k + 4))

def perform : Request → Sheet → Reply × Sheet
  | .write w, s =>
    match written s.bytes w with
    | .ok (offset, bytes) => (.wrote offset, { s with bytes })
    | .error e => (.failed (.operand e), s)
  | .take, s => (.taken s.codes.length, { s with codes := s.codes ++ [s.bytes] })
  | .copy code, s =>
    match s.codes[code]? with
    | some bytes => (.copied s.copies.length, { s with copies := s.copies ++ [bytes] })
    | none => (.absent, s)
  | .scribble copy offset byte, s =>
    if copy < s.copies.length then
      (.scribbled, { s with copies := s.copies.modify copy fun bytes => bytes.set offset byte })
    else (.absent, s)

def view (s : Sheet) : View := ⟨s.bytes.length, s.bytes, s.codes, s.copies⟩

end Sheet

end Tally
