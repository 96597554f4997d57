import Tally.Proofs.Assembly.Linking
import Tally.Proofs.Code.Decoding

namespace Tally

namespace Instr

variable {α β : Type}

def map (f : α → β) : Instr α → Instr β
  | pushFunc target => .pushFunc (f target)
  | pushNative index => .pushNative index
  | peek depth => .peek depth
  | pop => .pop
  | call args => .call args
  | add => .add
  | ret depth args => .ret depth args
  | jumpFalse target => .jumpFalse (f target)
  | jump target => .jump (f target)
  | stop => .stop
  | pushInt value => .pushInt value

def target? : Instr α → Option α
  | pushFunc target | jumpFalse target | jump target => some target
  | _ => none

def jumpTarget? : Instr α → Option α
  | jump target | jumpFalse target => some target
  | _ => none

@[simp] theorem opcode_map (f : α → β) (i : Instr α) : (i.map f).opcode = i.opcode := by
  cases i <;> rfl

@[simp] theorem size_map (f : α → β) (i : Instr α) : (i.map f).size = i.size := by
  unfold size
  rw [opcode_map]

end Instr

def Operand.piece : Operand Label → Piece
  | .address l => .label l
  | .count n => .bytes (LittleEndian.encode 4 n)
  | .number z => .bytes (LittleEndian.encodeInt 8 z)

def Instr.pieces (i : Instr Label) : List Piece :=
  .bytes (LittleEndian.encode 1 i.opcode.code) :: i.operands.map Operand.piece

theorem Instr.renderAll_pieces (addr : Label → Nat) (i : Instr Label) :
    renderAll addr i.pieces = (i.map addr).bytes := by
  cases i <;> simp [renderAll, pieces, Operand.piece, Piece.render, bytes, operands, map, opcode,
    Operand.bytes]

theorem Instr.sizeOfPieces_pieces (i : Instr Label) : sizeOfPieces i.pieces = i.size := by
  rw [← length_renderAll fun _ => 0, renderAll_pieces, length_bytes, size_map]

theorem Instr.label_mem_pieces {i : Instr Label} {l : Label} :
    .label l ∈ i.pieces ↔ i.target? = some l := by
  cases i <;> simp [pieces, operands, Operand.piece, target?, eq_comm]

namespace Line

def label? : Line → Option Label
  | label l => some l
  | instr _ => none

def size : Line → Nat
  | label _ => 0
  | instr i => i.size

def pieces : Line → List Piece
  | label _ => []
  | instr i => i.pieces

end Line

def labelsOf (ls : List Line) : List Label := ls.filterMap Line.label?

def sizeOfLines : List Line → Nat
  | [] => 0
  | line :: ls => line.size + sizeOfLines ls

def piecesOf (ls : List Line) : List Piece := ls.flatMap Line.pieces

theorem mem_labelsOf {l : Label} {ls : List Line} : l ∈ labelsOf ls ↔ .label l ∈ ls := by
  unfold labelsOf
  rw [List.mem_filterMap]
  constructor
  · rintro ⟨line, member, named⟩
    cases line with
    | label l' => cases named; exact member
    | instr i => cases named
  · intro member
    exact ⟨.label l, member, rfl⟩

theorem sizeOfLines_append (ls ms : List Line) :
    sizeOfLines (ls ++ ms) = sizeOfLines ls + sizeOfLines ms := by
  induction ls with
  | nil => exact (Nat.zero_add _).symm
  | cons line ls ih => rw [List.cons_append, sizeOfLines, sizeOfLines, ih, Nat.add_assoc]

theorem label_mem_piecesOf {l : Label} {ls : List Line} :
    .label l ∈ piecesOf ls ↔ ∃ i, .instr i ∈ ls ∧ i.target? = some l := by
  unfold piecesOf
  rw [List.mem_flatMap]
  constructor
  · rintro ⟨line, member, inside⟩
    cases line with
    | label l' => cases inside
    | instr i => exact ⟨i, member, Instr.label_mem_pieces.mp inside⟩
  · rintro ⟨i, member, named⟩
    exact ⟨.instr i, member, Instr.label_mem_pieces.mpr named⟩

/-- The lines stand in the code from an offset on, every label at its address. -/
def Code.Holds (c : Code) (addr : Label → Nat) : Nat → List Line → Prop
  | _, [] => True
  | offset, .label l :: ls => addr l = offset ∧ Holds c addr offset ls
  | offset, .instr i :: ls => c.HasInstr offset (i.map addr) ∧ Holds c addr (offset + i.size) ls

theorem Code.holds_append {c : Code} {addr : Label → Nat} {offset : Nat} {ls ms : List Line} :
    c.Holds addr offset (ls ++ ms) ↔
      c.Holds addr offset ls ∧ c.Holds addr (offset + sizeOfLines ls) ms := by
  induction ls generalizing offset with
  | nil => simp [Holds, sizeOfLines]
  | cons line ls ih =>
    cases line with
    | label l =>
      have next : sizeOfLines (.label l :: ls) = sizeOfLines ls := by simp [sizeOfLines, Line.size]
      rw [List.cons_append, Holds, Holds, ih, next, and_assoc]
    | instr i =>
      have next : offset + sizeOfLines (.instr i :: ls) = offset + i.size + sizeOfLines ls := by
        simp [sizeOfLines, Line.size, Nat.add_assoc]
      rw [List.cons_append, Holds, Holds, ih, next, and_assoc]

theorem Code.Holds.left {c : Code} {addr : Label → Nat} {offset : Nat} {ls ms : List Line}
    (holds : c.Holds addr offset (ls ++ ms)) : c.Holds addr offset ls :=
  (Code.holds_append.mp holds).1

theorem Code.Holds.right {c : Code} {addr : Label → Nat} {offset : Nat} {ls ms : List Line}
    (holds : c.Holds addr offset (ls ++ ms)) : c.Holds addr (offset + sizeOfLines ls) ms :=
  (Code.holds_append.mp holds).2

theorem Code.Holds.address {c : Code} {addr : Label → Nat} {offset : Nat} {ls ms : List Line}
    {l : Label} (holds : c.Holds addr offset (ls ++ .label l :: ms)) :
    addr l = offset + sizeOfLines ls := holds.right.1

namespace Sketch

def line (s : Sketch) : Line → Sketch
  | .label l => s.place l
  | .instr i => i.pieces.foldl add s

def lines (s : Sketch) (ls : List Line) : Sketch := ls.foldl line s

theorem foldl_add (s : Sketch) (ps : List Piece) :
    ps.foldl add s = { s with pieces := s.pieces ++ ps } := by
  induction ps generalizing s with
  | nil => rw [List.append_nil]; rfl
  | cons p ps ih =>
    rw [List.foldl_cons, ih, add]
    simp

theorem labels_lines (s : Sketch) (ls : List Line) : (s.lines ls).labels = s.labels := by
  induction ls generalizing s with
  | nil => rfl
  | cons line ls ih =>
    have same : (s.line line).labels = s.labels := by
      cases line with
      | label l => rfl
      | instr i => rw [Sketch.line, foldl_add]
    exact (ih (s.line line)).trans same

theorem pieces_lines (s : Sketch) (ls : List Line) :
    (s.lines ls).pieces = s.pieces ++ piecesOf ls := by
  induction ls generalizing s with
  | nil => exact (List.append_nil _).symm
  | cons line ls ih =>
    have first : (s.line line).pieces = s.pieces ++ line.pieces := by
      cases line with
      | label l => exact (List.append_nil _).symm
      | instr i => rw [Sketch.line, foldl_add, Line.pieces]
    have rest := ih (s.line line)
    rw [first, List.append_assoc] at rest
    exact rest

theorem size_line (s : Sketch) (line : Line) : (s.line line).size = s.size + line.size := by
  cases line with
  | label l => rfl
  | instr i =>
    rw [Sketch.line, foldl_add, size, sizeOfPieces_append, i.sizeOfPieces_pieces]
    rfl

theorem size_lines (s : Sketch) (ls : List Line) :
    (s.lines ls).size = s.size + sizeOfLines ls := by
  induction ls generalizing s with
  | nil => rfl
  | cons line ls ih =>
    have rest := ih (s.line line)
    rw [size_line, Nat.add_assoc] at rest
    exact rest

theorem places_line_of_ne (s : Sketch) {line : Line} {l : Label} (other : line.label? ≠ some l) :
    (s.line line).places l = s.places l := by
  cases line with
  | label l' => exact s.places_place_of_ne fun h => other (by rw [h]; rfl)
  | instr i => rw [Sketch.line, foldl_add]

theorem places_lines_of_notMem (s : Sketch) {ls : List Line} {l : Label} (free : l ∉ labelsOf ls) :
    (s.lines ls).places l = s.places l := by
  induction ls generalizing s with
  | nil => rfl
  | cons line ls ih =>
    have head : line.label? ≠ some l := by
      intro h
      exact free (by simp [labelsOf, h])
    have tail : l ∉ labelsOf ls := by
      intro h
      apply free
      rw [mem_labelsOf] at h ⊢
      exact List.mem_cons_of_mem _ h
    exact (ih (s.line line) tail).trans (s.places_line_of_ne head)

theorem exists_places (s : Sketch) {ls : List Line} {l : Label} (placed : l ∈ labelsOf ls) :
    ∃ a, (s.lines ls).places l = some a := by
  induction ls generalizing s with
  | nil => cases placed
  | cons line ls ih =>
    by_cases later : l ∈ labelsOf ls
    · exact ih (s.line line) later
    · have here : line = .label l := by
        rw [mem_labelsOf, List.mem_cons] at placed
        rcases placed with same | member
        · exact same.symm
        · exact absurd (mem_labelsOf.mpr member) later
      subst here
      exact ⟨s.size, ((s.place l).places_lines_of_notMem later).trans (s.places_place_self l)⟩

end Sketch

theorem Code.holds_of_sketch {c : Code} {addr : Label → Nat} (ls : List Line) (s : Sketch)
    (before : List UInt8) (nodup : (labelsOf ls).Nodup)
    (agree : ∀ l a, (s.lines ls).places l = some a → addr l = a)
    (fits : ∀ i, .instr i ∈ ls → (i.map addr).Fits) (length : before.length = s.size)
    (bytes : c.bytes.toList = before ++ renderAll addr (piecesOf ls)) : c.Holds addr s.size ls := by
  induction ls generalizing s before with
  | nil => trivial
  | cons line ls ih =>
    have split : renderAll addr (piecesOf (line :: ls)) =
        renderAll addr line.pieces ++ renderAll addr (piecesOf ls) := by
      rw [piecesOf, List.flatMap_cons, renderAll_append]
      rfl
    have fitsTail : ∀ i, .instr i ∈ ls → (i.map addr).Fits :=
      fun i member => fits i (List.mem_cons_of_mem _ member)
    have size := s.size_line line
    rw [split] at bytes
    cases line with
    | label l =>
      have nodup' : l ∉ labelsOf ls ∧ (labelsOf ls).Nodup := List.nodup_cons.mp nodup
      refine ⟨?_, ih (s.place l) before nodup'.2 agree fitsTail length bytes⟩
      apply agree
      exact ((s.place l).places_lines_of_notMem nodup'.1).trans (s.places_place_self l)
    | instr i =>
      rw [Line.pieces, i.renderAll_pieces] at bytes
      constructor
      · rw [← length]
        exact hasInstr_of_bytes (fits i (by simp)) bytes
      · rw [← List.append_assoc] at bytes
        have rest := ih (s.line (.instr i)) _ nodup agree fitsTail
          (by rw [List.length_append, length, size, Instr.length_bytes, Instr.size_map]; rfl) bytes
        rw [size] at rest
        exact rest

end Tally
