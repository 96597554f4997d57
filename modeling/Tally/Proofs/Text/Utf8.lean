import Tally.Text.Utf8

namespace Tally.Utf8

variable {under : Option Unfinished} {out : List Char}

theorem enter_out (b : Nat) (out : List Char) :
    enter b out = ((enter b []).1, (enter b []).2 ++ out) := by
  unfold enter
  cases lead b <;> rfl

theorem step_out (under : Option Unfinished) (b : Nat) (out : List Char) :
    step under b out = ((step under b []).1, (step under b []).2 ++ out) := by
  cases under with
  | none => exact enter_out b out
  | some p =>
    unfold step
    dsimp only
    split
    · split <;> rfl
    · rw [enter_out, enter_out b [replacement], List.append_assoc]
      rfl

theorem decodeFrom_out (bytes : List UInt8) :
    decodeFrom under out bytes = out.reverse ++ decodeFrom under [] bytes := by
  induction bytes generalizing under out with
  | nil => cases under <;> simp [decodeFrom]
  | cons b bytes ih =>
    rw [decodeFrom, decodeFrom, step_out]
    dsimp only
    rw [ih, @ih _ (step under b.toNat []).2, List.reverse_append, List.append_assoc]

theorem decodeFrom_cons (b : UInt8) (bytes : List UInt8) :
    decodeFrom under [] (b :: bytes) = (step under b.toNat []).2.reverse ++
      decodeFrom (step under b.toNat []).1 [] bytes := by
  rw [decodeFrom]
  exact decodeFrom_out bytes

def unfinished (under : Option Unfinished) : List UInt8 → Option Unfinished
  | [] => under
  | b :: bytes => unfinished (step under b.toNat []).1 bytes

/-- No character that `left` begins and does not complete goes on with the first byte of `right`. -/
def Separate (left right : List UInt8) : Prop :=
  ∀ p ∈ unfinished none left, ∀ b ∈ right.head?, ¬ (p.least ≤ b.toNat ∧ b.toNat ≤ p.greatest)

theorem separate_of_whole {left : List UInt8} (whole : unfinished none left = none)
    (right : List UInt8) : Separate left right := by
  intro p under
  rw [whole] at under
  cases under

theorem decodeFrom_append {left right : List UInt8}
    (separate : ∀ p ∈ unfinished under left, ∀ b ∈ right.head?,
      ¬ (p.least ≤ b.toNat ∧ b.toNat ≤ p.greatest)) :
    decodeFrom under [] (left ++ right) = decodeFrom under [] left ++ decode right := by
  induction left generalizing under with
  | nil =>
    cases under with
    | none => rfl
    | some p =>
      cases right with
      | nil => rfl
      | cons b right =>
        have outside := separate p rfl b rfl
        have replaced : step (some p) b.toNat [] = enter b.toNat [replacement] := if_neg outside
        rw [List.nil_append, decode, decodeFrom_cons, decodeFrom_cons, replaced, enter_out]
        simp [decodeFrom, step]
  | cons b left ih =>
    rw [List.cons_append, decodeFrom_cons, decodeFrom_cons, ih separate, List.append_assoc]

theorem decode_append {left right : List UInt8} (separate : Separate left right) :
    decode (left ++ right) = decode left ++ decode right :=
  decodeFrom_append separate

/-- Pieces none of which ends inside a character that goes on after it. -/
def CutsBetween : List (List UInt8) → Prop
  | [] => True
  | piece :: pieces => Separate piece pieces.flatten ∧ CutsBetween pieces

theorem flatMap_decode {pieces : List (List UInt8)} (cuts : CutsBetween pieces) :
    pieces.flatMap decode = decode pieces.flatten := by
  induction pieces with
  | nil => rfl
  | cons piece pieces ih =>
    rw [List.flatMap_cons, List.flatten_cons, decode_append cuts.1, ih cuts.2]

theorem step_ascii {b : UInt8} (ascii : b.toNat < 128) :
    step none b.toNat [] = (none, [Char.ofNat b.toNat]) := by
  have whole : lead b.toNat = .whole (Char.ofNat b.toNat) := if_pos (Nat.le_of_lt_succ ascii)
  rw [step, enter, whole]

theorem decode_ascii {bytes : List UInt8} (ascii : ∀ b ∈ bytes, b.toNat < 128) :
    decode bytes = bytes.map fun b => Char.ofNat b.toNat := by
  induction bytes with
  | nil => rfl
  | cons b bytes ih =>
    have rest := ih fun b member => ascii b (List.mem_cons_of_mem _ member)
    rw [decode] at rest ⊢
    rw [decodeFrom_cons, step_ascii (ascii b List.mem_cons_self), rest]
    rfl

end Tally.Utf8
