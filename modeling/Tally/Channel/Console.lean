import Tally.Channel
import Tally.Channel.Numeral
import Tally.Text.Utf8

namespace Tally

/-- The code points of white space and line ends, in pairs of first and last. -/
def blankRanges : List (Nat × Nat) :=
  [(0x09, 0x0D), (0x20, 0x20), (0xA0, 0xA0), (0x1680, 0x1680), (0x2000, 0x200A),
   (0x2028, 0x2029), (0x202F, 0x202F), (0x205F, 0x205F), (0x3000, 0x3000), (0xFEFF, 0xFEFF)]

def isBlank (c : Char) : Bool :=
  blankRanges.any fun (first, last) => first ≤ c.toNat && c.toNat ≤ last

inductive Delivery where
  | bytes (bs : List UInt8)
  | fails (code message : String)

def readSize : Nat := 4096

def pieces (size : Nat) (bs : List UInt8) : List (List UInt8) :=
  match bs with
  | [] => []
  | b :: bs => (b :: bs.take size) :: pieces size (bs.drop size)
termination_by bs.length
decreasing_by
  simp only [List.length_drop, List.length_cons]
  omega

namespace Delivery

/-- The reads that a delivery takes. A delivery of no bytes is the end of the input. -/
def split : Delivery → List Delivery
  | bytes [] => [bytes []]
  | bytes bs => (pieces (readSize - 1) bs).map bytes
  | fails code message => [fails code message]

end Delivery

structure Console where
  /-- What the next reads give; after the last of them the input is at its end. -/
  deliveries : List Delivery
  /-- Characters that were read and not yet used. -/
  unused : List Char
  ended : Bool
  lines : List String

namespace Console

def ofDeliveries (ds : List Delivery) : Console := ⟨ds.flatMap Delivery.split, [], false, []⟩

def output (c : Console) : List String := c.lines.reverse

/-- The next word of the unused characters and what follows it. A word is whole when white space
or the end of the input comes after it. -/
def word? (unused : List Char) (ended : Bool) : Option (List Char × List Char) :=
  let unused := unused.dropWhile isBlank
  let word := unused.takeWhile fun c => !isBlank c
  let rest := unused.dropWhile fun c => !isBlank c
  if word ≠ [] ∧ (rest ≠ [] ∨ ended) then some (word, rest) else none

inductive Found where
  | word (w : List Char)
  | nothing
  | failure (message : String)

def finish (lines : List String) (deliveries : List Delivery) (unused : List Char) :
    Found × Console :=
  match word? unused true with
  | some (w, rest) => (.word w, ⟨deliveries, rest, true, lines⟩)
  | none => (.nothing, ⟨deliveries, unused.dropWhile isBlank, true, lines⟩)

/-- Reads until a word is whole or the input is at its end. A read that would have to wait is
repeated. -/
def seek (lines : List String) (deliveries : List Delivery) (unused : List Char) :
    Found × Console :=
  match word? unused false with
  | some (w, rest) => (.word w, ⟨deliveries, rest, false, lines⟩)
  | none =>
    match deliveries with
    | [] => finish lines [] unused
    | .bytes [] :: more => finish lines more unused
    | .bytes bs :: more => seek lines more (unused.dropWhile isBlank ++ Utf8.decode bs)
    | .fails code message :: more =>
      if code = "EAGAIN" then seek lines more unused
      else if code = "EOF" then finish lines more unused
      else (.failure message, ⟨more, unused, false, lines⟩)

def read (c : Console) : Except String Int × Console :=
  let (found, c) :=
    if c.ended then finish c.lines c.deliveries c.unused
    else seek c.lines c.deliveries c.unused
  match found with
  | .word w => ((parseNumeral w).mapError NumeralFault.message, c)
  | .nothing => (.ok 0, c)
  | .failure message => (.error message, c)

def write (c : Console) (z : Int) : Console := { c with lines := toString z :: c.lines }

def channel : Channel Console where
  read := read
  write := write

end Console

end Tally
