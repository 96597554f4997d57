import Tally.Code.Listing
import Tally.Proofs.Channel.Numerals
import Tally.Proofs.Code.Encoding

namespace Tally

def Opcode.ofName? (name : String) : Option Opcode := all.find? fun op => op.name = name

def OperandKind.operand? : OperandKind → Int → Option (Operand Nat)
  | address, z => if 0 ≤ z then some (.address z.toNat) else none
  | count, z => if 0 ≤ z then some (.count z.toNat) else none
  | number, z => some (.number z)

def readOperands? : List OperandKind → List (List Char) → Option (List (Operand Nat))
  | [], [] => some []
  | kind :: kinds, w :: ws => do
    let z ← signedValue? w
    let o ← kind.operand? z
    let os ← readOperands? kinds ws
    return o :: os
  | _, _ => none

/-- The instruction in a line; its offset is passed over. -/
def InstrParts.ofLine? (line : List Char) : Option InstrParts :=
  match wordsOf line with
  | _ :: name :: operands => do
    let op ← Opcode.ofName? (String.ofList name)
    let os ← readOperands? op.operandKinds operands
    return ⟨op, os⟩
  | _ => none

def textLines (text : String) : List (List Char) := text.toList.splitOn '\n'

def isHeading (line : List Char) : Bool := line.contains ':'

/-- The instructions in the lines of a text, as they are to be written. -/
def reread? (text : String) : Option (List InstrParts) :=
  ((textLines text).filter fun line => !isHeading line).mapM InstrParts.ofLine?

def Listing.lines (listing : Listing) : List String := listing.map fun (offset, i) => i.line offset

theorem wordsOf_replicate_append (n : Nat) (cs : List Char) :
    wordsOf (List.replicate n ' ' ++ cs) = wordsOf cs := by
  induction n with
  | zero => rfl
  | succ n ih =>
    have blank : isBlank ' ' = true := by decide
    rw [List.replicate_succ, List.cons_append, wordsOf_blank_cons blank, ih]

theorem intercalate_cons_cons (w w' : List Char) (ws : List (List Char)) :
    [' '].intercalate (w :: w' :: ws) = w ++ ' ' :: [' '].intercalate (w' :: ws) := by
  simp [List.intercalate]

theorem wordsOf_intercalate {ws : List (List Char)}
    (words : ∀ w ∈ ws, w ≠ [] ∧ ∀ c ∈ w, isBlank c = false) :
    wordsOf ([' '].intercalate ws) = ws := by
  have blank : isBlank ' ' = true := by decide
  induction ws with
  | nil => rfl
  | cons w ws ih =>
    obtain ⟨⟨nonempty, whole⟩, rest⟩ := List.forall_mem_cons.mp words
    cases ws with
    | nil => simpa using wordsOf_word nonempty whole
    | cons w' ws =>
      rw [intercalate_cons_cons, wordsOf_append_blank blank, wordsOf_word nonempty whole, ih rest]
      rfl

def isListed (c : Char) : Bool := c = '-' || isWordChar c

theorem toNat_of_isListed {c : Char} (listed : isListed c = true) :
    c.toNat = 45 ∨ 48 ≤ c.toNat ∧ c.toNat ≤ 57 ∨ 65 ≤ c.toNat ∧ c.toNat ≤ 90 ∨ c.toNat = 95 ∨
      97 ≤ c.toNat ∧ c.toNat ≤ 122 := by
  simp only [isListed, isWordChar, isLetter, Bool.or_eq_true, decide_eq_true_eq] at listed
  rcases listed with rfl | (alpha | rfl) | digit
  · decide
  · rcases Bool.or_eq_true_iff.mp alpha with upper | lower
    · have range : 65 ≤ c.toNat ∧ c.toNat ≤ 90 := of_decide_eq_true upper
      omega
    · obtain ⟨least, most⟩ := Bool.and_eq_true_iff.mp lower
      have least : 97 ≤ c.toNat := of_decide_eq_true least
      have most : c.toNat ≤ 122 := of_decide_eq_true most
      omega
  · decide
  · have range := toNat_of_isDigit digit
    omega

theorem not_isBlank_of_isListed {c : Char} (listed : isListed c = true) : isBlank c = false := by
  have range := toNat_of_isListed listed
  simp [isBlank, blankRanges]
  omega

/-- A line of an instruction is no heading, and ends nowhere before its end. -/
def Plain (line : List Char) : Prop := ∀ c ∈ line, c = ' ' ∨ isListed c = true

theorem Plain.not_mem {line : List Char} (plain : Plain line) {c : Char} (other : c ≠ ' ')
    (unlisted : isListed c = false) : c ∉ line := by
  intro member
  rcases plain c member with blank | listed
  · exact other blank
  · rw [unlisted] at listed
    cases listed

theorem Plain.append {as bs : List Char} (first : Plain as) (second : Plain bs) :
    Plain (as ++ bs) := by
  intro c member
  rcases List.mem_append.mp member with member | member
  · exact first c member
  · exact second c member

theorem Plain.blank {cs : List Char} (plain : Plain cs) : Plain (' ' :: cs) := by
  intro c member
  rcases List.mem_cons.mp member with rfl | member
  · exact .inl rfl
  · exact plain c member

theorem Plain.blanks {cs : List Char} (plain : Plain cs) (n : Nat) :
    Plain (List.replicate n ' ' ++ cs) := by
  induction n with
  | zero => exact plain
  | succ n ih => exact ih.blank

theorem plain_intercalate {ws : List (List Char)}
    (listed : ∀ w ∈ ws, ∀ c ∈ w, isListed c = true) : Plain ([' '].intercalate ws) := by
  induction ws with
  | nil => nofun
  | cons w ws ih =>
    obtain ⟨first, rest⟩ := List.forall_mem_cons.mp listed
    have here : Plain w := fun c member => .inr (first c member)
    cases ws with
    | nil => simpa [List.intercalate] using here
    | cons w' ws =>
      rw [intercalate_cons_cons]
      exact here.append (ih rest).blank

theorem isListed_of_mem_toString {z : Int} {c : Char} (member : c ∈ (toString z).toList) :
    isListed c = true := by
  rcases mem_toString member with rfl | digit
  · decide
  · simp [isListed, isWordChar, digit]

theorem toString_ne_nil (z : Int) : (toString z).toList ≠ [] := by
  rw [toList_toString]
  split
  · exact Nat.toDigits_ne_nil
  · exact List.cons_ne_nil _ _

namespace Opcode

theorem isListed_of_mem_name (op : Opcode) : ∀ c ∈ op.name.toList, isListed c = true := by
  have all : op.name.toList.all isListed = true := by
    cases op <;> decide
  exact List.all_eq_true.mp all

theorem name_ne_nil (op : Opcode) : op.name.toList ≠ [] := by
  cases op <;> decide

theorem ofName?_name (op : Opcode) : ofName? op.name = some op := by
  cases op <;> decide

end Opcode

theorem OperandKind.operand?_toInt (o : Operand Nat) : o.kind.operand? o.toInt = some o := by
  cases o with
  | address n | count n => simp [Operand.kind, Operand.toInt, operand?]
  | number z => rfl

theorem readOperands?_toString (os : List (Operand Nat)) :
    readOperands? (os.map Operand.kind) (os.map fun o => (toString o.toInt).toList) = some os := by
  induction os with
  | nil => rfl
  | cons o os ih =>
    rw [List.map_cons, List.map_cons, readOperands?, signedValue?_toString, ih]
    simp [OperandKind.operand?_toInt]

namespace Instr

variable (offset : Nat) (i : Instr Nat)

def words (offset : Nat) (i : Instr Nat) : List (List Char) :=
  (toString (offset : Int)).toList :: i.opcode.name.toList ::
    i.operands.map fun o => (toString o.toInt).toList

theorem words_listed : ∀ w ∈ i.words offset, w ≠ [] ∧ ∀ c ∈ w, isListed c = true := by
  have number (z : Int) : (toString z).toList ≠ [] ∧ ∀ c ∈ (toString z).toList, isListed c = true :=
    ⟨toString_ne_nil z, fun c => isListed_of_mem_toString⟩
  intro w member
  rcases List.mem_cons.mp member with rfl | member
  · exact number offset
  rcases List.mem_cons.mp member with rfl | member
  · exact ⟨i.opcode.name_ne_nil, i.opcode.isListed_of_mem_name⟩
  · obtain ⟨o, _, rfl⟩ := List.mem_map.mp member
    exact number o.toInt

theorem toList_line : (i.line offset).toList =
    List.replicate (5 - (toString offset).length) ' ' ++ ((toString (offset : Int)).toList ++
      ' ' :: ' ' :: [' '].intercalate (i.words offset).tail) := by
  have same : toString offset = toString (offset : Int) := rfl
  simp [line, listingLine, rightAligned, blanks, words, String.toList_intercalate,
    Function.comp_def, ← same]

theorem operands_kinds : i.operands.map Operand.kind = i.opcode.operandKinds := by
  cases i <;> rfl

theorem wordsOf_line : wordsOf (i.line offset).toList = i.words offset := by
  have blank : isBlank ' ' = true := by decide
  have all : ∀ w ∈ i.words offset, w ≠ [] ∧ ∀ c ∈ w, isBlank c = false := fun w member =>
    (i.words_listed offset w member).imp_right fun listed c inside =>
      not_isBlank_of_isListed (listed c inside)
  obtain ⟨first, others⟩ := List.forall_mem_cons.mp all
  rw [toList_line, wordsOf_replicate_append, wordsOf_append_blank blank, wordsOf_blank_cons blank,
    wordsOf_word first.1 first.2]
  exact congrArg _ (wordsOf_intercalate others)

theorem ofLine?_line : InstrParts.ofLine? (i.line offset).toList = some i.parts := by
  have operands := readOperands?_toString i.operands
  rw [i.operands_kinds] at operands
  rw [InstrParts.ofLine?, wordsOf_line]
  simp only [words, String.ofList_toList, Opcode.ofName?_name, Option.bind_eq_bind,
    Option.bind_some, operands]
  rfl

theorem plain_line : Plain (i.line offset).toList := by
  have listed : ∀ w ∈ i.words offset, ∀ c ∈ w, isListed c = true :=
    fun w member => (i.words_listed offset w member).2
  obtain ⟨first, others⟩ := List.forall_mem_cons.mp listed
  have number : Plain (toString (offset : Int)).toList := fun c member => .inr (first c member)
  rw [toList_line]
  exact (number.append (plain_intercalate others).blank.blank).blanks _

end Instr

theorem textLines_intercalate {lines : List String} (nonempty : lines ≠ [])
    (whole : ∀ line ∈ lines, '\n' ∉ line.toList) :
    textLines ("\n".intercalate lines) = lines.map String.toList := by
  have apart : ∀ cs ∈ lines.map String.toList, '\n' ∉ cs := by
    intro cs member
    obtain ⟨line, inside, rfl⟩ := List.mem_map.mp member
    exact whole line inside
  rw [textLines, String.toList_intercalate]
  exact List.splitOn_intercalate '\n' apart (by simpa using nonempty)

theorem isHeading_append_colon (s : String) : isHeading (s ++ ":").toList = true := by
  simp [isHeading]

theorem EntryPoint.isHeading_heading (f : EntryPoint) : isHeading f.heading.toList = true :=
  isHeading_append_colon _

theorem Instr.not_isHeading_line (offset : Nat) (i : Instr Nat) :
    isHeading (i.line offset).toList = false := by
  have none : ':' ∉ (i.line offset).toList := (i.plain_line offset).not_mem (by decide) (by decide)
  simpa [isHeading] using none

namespace Code

def headingsAt (c : Code) (offset : Nat) : List String :=
  (if offset = 0 then ["<main>:"] else []) ++
    (c.functionAt? offset).toList.map EntryPoint.heading

variable {c : Code} {listing : Listing}

theorem linesAt_eq (c : Code) (offset : Nat) (i : Instr Nat) :
    c.linesAt offset i = c.headingsAt offset ++ [i.line offset] := rfl

theorem isHeading_headingsAt {offset : Nat} :
    ∀ line ∈ c.headingsAt offset, isHeading line.toList = true := by
  intro line member
  rcases List.mem_append.mp member with main | entry
  · by_cases first : offset = 0
    · rw [if_pos first] at main
      cases List.mem_singleton.mp main
      decide
    · rw [if_neg first] at main
      cases main
  · obtain ⟨f, _, rfl⟩ := List.mem_map.mp entry
    exact f.isHeading_heading

theorem filter_linesAt (c : Code) (offset : Nat) (i : Instr Nat) :
    ((c.linesAt offset i).map String.toList).filter (fun line => !isHeading line) =
      [(i.line offset).toList] := by
  have none : ((c.headingsAt offset).map String.toList).filter (fun line => !isHeading line) = [] := by
    apply List.filter_eq_nil_iff.mpr
    intro line member
    obtain ⟨heading, inside, rfl⟩ := List.mem_map.mp member
    simp [isHeading_headingsAt heading inside]
  rw [linesAt_eq, List.map_append, List.filter_append, none]
  simp [Instr.not_isHeading_line]

theorem no_break_headingsAt (whole : ∀ f ∈ c.functions, '\n' ∉ f.heading.toList) {offset : Nat} :
    ∀ line ∈ c.headingsAt offset, '\n' ∉ line.toList := by
  intro line member
  rcases List.mem_append.mp member with main | entry
  · by_cases first : offset = 0
    · rw [if_pos first] at main
      cases List.mem_singleton.mp main
      decide
    · rw [if_neg first] at main
      cases main
  · obtain ⟨f, found, rfl⟩ := List.mem_map.mp entry
    exact whole f (mem_of_functionAt? (Option.mem_toList.mp found)).1

theorem mapM_ofLine? (listing : Listing) :
    (listing.map fun e => (e.2.line e.1).toList).mapM InstrParts.ofLine? =
      some (listing.map fun e => e.2.parts) := by
  induction listing with
  | nil => rfl
  | cons e listing ih =>
    rw [List.map_cons, List.mapM_cons, ih, Instr.ofLine?_line]
    rfl

/-- The lines of a listing, where no name in a heading breaks one of them, and what is read back
from them. -/
theorem reread?_listing (listed : c.instrs = .ok listing) (nonempty : listing ≠ [])
    (whole : ∀ f ∈ c.functions, '\n' ∉ f.heading.toList) : ∃ text, c.listing = .ok text ∧
      textLines text = (listing.flatMap fun e => c.linesAt e.1 e.2).map String.toList ∧
      reread? text = some (listing.map fun e => e.2.parts) := by
  let lines := listing.flatMap fun e => c.linesAt e.1 e.2
  have made : c.listing = .ok ("\n".intercalate lines) := by
    unfold Code.listing listingLines
    rw [listed]
    rfl
  have split : textLines ("\n".intercalate lines) = lines.map String.toList := by
    refine textLines_intercalate ?_ ?_
    · obtain ⟨e, member⟩ := List.exists_mem_of_ne_nil _ nonempty
      intro none
      simpa [linesAt_eq] using List.flatMap_eq_nil_iff.mp none e member
    · intro line member
      obtain ⟨e, _, here⟩ := List.mem_flatMap.mp member
      rw [linesAt_eq] at here
      rcases List.mem_append.mp here with heading | last
      · exact no_break_headingsAt whole line heading
      · rw [List.mem_singleton.mp last]
        exact (e.2.plain_line e.1).not_mem (by decide) (by decide)
  refine ⟨_, made, split, ?_⟩
  have kept : (lines.map String.toList).filter (fun line => !isHeading line) =
      listing.map fun e => (e.2.line e.1).toList := by
    simp only [lines, List.map_flatMap, List.filter_flatMap, filter_linesAt]
    exact List.map_eq_flatMap.symm
  rw [reread?, split, kept, mapM_ofLine?]

end Code

end Tally
