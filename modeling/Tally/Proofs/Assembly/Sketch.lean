import Tally.Assembly
import Tally.Proofs.Effects
import Mathlib.Logic.Function.Basic

namespace Tally

inductive Piece where
  | bytes (bs : List UInt8)
  | label (l : Label)
deriving DecidableEq

def Piece.size : Piece → Nat
  | bytes bs => bs.length
  | label _ => 4

def Piece.render (value : Label → Nat) : Piece → List UInt8
  | bytes bs => bs
  | label l => LittleEndian.encode 4 (value l)

def renderAll (value : Label → Nat) (pieces : List Piece) : List UInt8 :=
  pieces.flatMap (Piece.render value)

def sizeOfPieces : List Piece → Nat
  | [] => 0
  | p :: ps => p.size + sizeOfPieces ps

def slots (l : Label) : Nat → List Piece → List Nat
  | _, [] => []
  | offset, p :: ps => (if p = .label l then [offset] else []) ++ slots l (offset + p.size) ps

/-- Pieces, the number of labels, and the addresses of those that are placed. -/
structure Sketch where
  pieces : List Piece
  labels : Nat
  places : Label → Option Nat

namespace Sketch

def size (s : Sketch) : Nat := sizeOfPieces s.pieces

def value (s : Sketch) (l : Label) : Nat := (s.places l).getD 0

def bytes (s : Sketch) : List UInt8 := renderAll s.value s.pieces

def state (s : Sketch) (l : Label) : LabelState :=
  match s.places l with
  | some address => .placed address
  | none => .waiting (slots l 0 s.pieces).toArray

def add (s : Sketch) (p : Piece) : Sketch := { s with pieces := s.pieces ++ [p] }

def place (s : Sketch) (l : Label) : Sketch :=
  { s with places := Function.update s.places l (some s.size) }

end Sketch

/-- What a linker holds of a sketch. The address of a label fits where it was written. -/
structure Linker.Shows (k : Linker) (s : Sketch) : Prop where
  bytes : k.builder.bytes.toList = s.bytes
  labels : k.labels.states.size = s.labels
  states : ∀ l, l < s.labels → k.labels.states[l]? = some (s.state l)
  small : ∀ l a, .label l ∈ s.pieces → s.places l = some a → a < LittleEndian.modulus 4

theorem Piece.length_render (value : Label → Nat) (p : Piece) :
    (p.render value).length = p.size := by
  cases p with
  | bytes bs => rfl
  | label l => exact LittleEndian.length_encode 4 (value l)

theorem length_renderAll (value : Label → Nat) (pieces : List Piece) :
    (renderAll value pieces).length = sizeOfPieces pieces := by
  induction pieces with
  | nil => rfl
  | cons p ps ih =>
    simp only [renderAll, sizeOfPieces, List.flatMap_cons, List.length_append,
      Piece.length_render] at ih ⊢
    rw [ih]

theorem renderAll_append (value : Label → Nat) (ps qs : List Piece) :
    renderAll value (ps ++ qs) = renderAll value ps ++ renderAll value qs :=
  List.flatMap_append

theorem sizeOfPieces_append (ps qs : List Piece) :
    sizeOfPieces (ps ++ qs) = sizeOfPieces ps + sizeOfPieces qs := by
  induction ps with
  | nil => exact (Nat.zero_add _).symm
  | cons p ps ih => rw [List.cons_append, sizeOfPieces, sizeOfPieces, ih, Nat.add_assoc]

theorem renderAll_update_of_notMem (value : Label → Nat) (l : Label) (a : Nat) {ps : List Piece}
    (free : .label l ∉ ps) : renderAll (Function.update value l a) ps = renderAll value ps := by
  induction ps with
  | nil => rfl
  | cons p ps ih =>
    rw [List.mem_cons, not_or] at free
    have same : p.render (Function.update value l a) = p.render value := by
      cases p with
      | bytes bs => rfl
      | label l' =>
        have other : l' ≠ l := fun h => free.1 (by rw [h])
        rw [Piece.render, Piece.render, Function.update_of_ne other]
    simp only [renderAll, List.flatMap_cons] at ih ⊢
    rw [same, ih free.2]

theorem slots_append (l : Label) (offset : Nat) (ps qs : List Piece) :
    slots l offset (ps ++ qs) = slots l offset ps ++ slots l (offset + sizeOfPieces ps) qs := by
  induction ps generalizing offset with
  | nil => rfl
  | cons p ps ih =>
    have next : offset + p.size + sizeOfPieces ps = offset + sizeOfPieces (p :: ps) := by
      simp [sizeOfPieces, Nat.add_assoc]
    rw [List.cons_append, slots, ih, slots, List.append_assoc, next]

theorem slots_eq_nil {l : Label} {ps : List Piece} (offset : Nat) (free : .label l ∉ ps) :
    slots l offset ps = [] := by
  induction ps generalizing offset with
  | nil => rfl
  | cons p ps ih =>
    rw [List.mem_cons, not_or] at free
    have other : p ≠ .label l := fun h => free.1 h.symm
    rw [slots, if_neg other, ih _ free.2]
    rfl

theorem slots_ne_nil {l : Label} {ps : List Piece} (offset : Nat) (used : .label l ∈ ps) :
    slots l offset ps ≠ [] := by
  induction ps generalizing offset with
  | nil => cases used
  | cons p ps ih =>
    rw [slots]
    rcases List.mem_cons.mp used with head | tail
    · rw [if_pos head.symm]
      exact List.cons_ne_nil _ _
    · exact fun none => ih _ tail (List.append_eq_nil_iff.mp none).2

namespace Linking

theorem toList_overwriteFrom {bytes : Array UInt8} {before old after new : List UInt8}
    (h : bytes.toList = before ++ (old ++ after)) (same : old.length = new.length) :
    (Builder.overwriteFrom bytes before.length new).toList = before ++ (new ++ after) := by
  induction new generalizing bytes before old with
  | nil =>
    rw [List.length_nil, List.length_eq_zero_iff] at same
    rw [Builder.overwriteFrom, h, same]
  | cons b bs ih =>
    cases old with
    | nil => cases same
    | cons o os =>
      have set : (bytes.setIfInBounds before.length b).toList = (before ++ [b]) ++ (os ++ after) := by
        rw [Array.toList_setIfInBounds, h]
        simp
      have rest := ih set (Nat.succ.inj same)
      rw [List.length_append, List.length_singleton] at rest
      rw [Builder.overwriteFrom, rest]
      simp

theorem countBytes_of_lt {n : Nat} (small : n < LittleEndian.modulus 4) :
    Builder.countBytes n = .ok (LittleEndian.encode 4 n) := by
  unfold Builder.countBytes
  rw [Number.toNat?_natCast]
  exact if_pos small

theorem countBytes_of_ge {n : Nat} (large : LittleEndian.modulus 4 ≤ n) :
    Builder.countBytes n = .error (.count n) := by
  unfold Builder.countBytes
  rw [Number.toNat?_natCast]
  exact if_neg (by omega)

theorem patch_of_bytes (labels : LabelTable) {builder : Builder} {before old after : List UInt8}
    {a : Nat} (small : a < LittleEndian.modulus 4) (h : builder.bytes.toList = before ++ (old ++ after))
    (width : old.length = 4) :
    ∃ builder', patch before.length a ⟨labels, builder⟩ = .ok () ⟨labels, builder'⟩ ∧
      builder'.bytes.toList = before ++ (LittleEndian.encode 4 a ++ after) := by
  refine ⟨builder.overwrite before.length (LittleEndian.encode 4 a), ?_, ?_⟩
  · have inside : before.length + 4 ≤ builder.offset := by
      rw [Builder.offset, ← Array.length_toList, h]
      simp only [List.length_append, width]
      omega
    have place : builder.operandOffset before.length = .ok before.length := by
      unfold Builder.operandOffset
      rw [Number.toNat?_natCast]
      exact if_pos inside
    simp only [patch, countBytes_of_lt small, place]
  · exact toList_overwriteFrom h (by rw [width, LittleEndian.length_encode])

theorem patch_slots {l : Label} {a : Nat} (small : a < LittleEndian.modulus 4) (labels : LabelTable)
    (value : Label → Nat) (pieces : List Piece) (before : List UInt8) (builder : Builder)
    (h : builder.bytes.toList = before ++ renderAll value pieces) :
    ∃ builder', ((slots l before.length pieces).forM fun slot => patch slot a) ⟨labels, builder⟩ =
        .ok () ⟨labels, builder'⟩ ∧
      builder'.bytes.toList = before ++ renderAll (Function.update value l a) pieces := by
  induction pieces generalizing before builder with
  | nil => exact ⟨builder, rfl, h⟩
  | cons p ps ih =>
    have split (v : Label → Nat) : renderAll v (p :: ps) = p.render v ++ renderAll v ps := rfl
    by_cases isSlot : p = .label l
    · subst isSlot
      rw [split] at h
      obtain ⟨patched, done, bytes⟩ :=
        patch_of_bytes labels small h (LittleEndian.length_encode 4 _)
      rw [← List.append_assoc] at bytes
      obtain ⟨final, rest, all⟩ := ih _ patched bytes
      rw [List.length_append, LittleEndian.length_encode] at rest
      refine ⟨final, ?_, ?_⟩
      · rw [slots, if_pos rfl, List.singleton_append, forM_cons, bind_of_ok done]
        exact rest
      · rw [all, split, Piece.render, Function.update_self, List.append_assoc]
    · rw [split, ← List.append_assoc] at h
      obtain ⟨final, rest, all⟩ := ih _ builder h
      rw [List.length_append, Piece.length_render] at rest
      have same : p.render (Function.update value l a) = p.render value := by
        cases p with
        | bytes bs => rfl
        | label l' =>
          have other : l' ≠ l := fun h => isSlot (by rw [h])
          rw [Piece.render, Piece.render, Function.update_of_ne other]
      refine ⟨final, ?_, ?_⟩
      · rw [slots, if_neg isSlot, List.nil_append]
        exact rest
      · rw [all, split, same, List.append_assoc]

end Linking

end Tally
