import Tally.Proofs.Channel.Input

namespace Tally.Console

def Reads (cuts : List (List UInt8)) : Prop := ∀ read ∈ cuts, read ≠ [] ∧ read.length ≤ readSize

instance : DecidablePred Reads := fun cuts =>
  inferInstanceAs (Decidable (∀ read ∈ cuts, read ≠ [] ∧ read.length ≤ readSize))

variable {cuts left right : List (List UInt8)}

theorem split_of_reads (fits : Reads cuts) :
    (cuts.map Delivery.bytes).flatMap Delivery.split = cuts.map Delivery.bytes := by
  rw [List.flatMap_map]
  have single : ∀ read ∈ cuts, (Delivery.bytes read).split = [.bytes read] := by
    intro read member
    obtain ⟨nonempty, short⟩ := fits read member
    have whole : pieces (readSize - 1) read = [read] := pieces_of_length_le nonempty short
    rw [Delivery.split_bytes nonempty, whole]
    rfl
  rw [List.flatMap_congr single, List.map_eq_flatMap]

theorem reads_of_reads (fits : Reads cuts) (calls : Nat) :
    (reads calls (ofDeliveries (cuts.map .bytes))).1 =
      ((wordsOf (cuts.flatMap Utf8.decode)).map answerOf).takeD calls (.ok 0) := by
  have live : ∀ d ∈ cuts.map Delivery.bytes, ¬ d.Ends := by
    intro d member
    obtain ⟨read, inside, rfl⟩ := List.mem_map.mp member
    exact (fits read inside).1
  have owes := @owes_ofDeliveries _ [] live
  rw [split_of_reads fits, List.append_nil, List.flatMap_map, List.filterMap_map] at owes
  have calm : cuts.filterMap (Delivery.failure? ∘ .bytes) = [] :=
    List.filterMap_eq_nil_iff.mpr fun _ _ => rfl
  rw [calm] at owes
  have answers := (served_reads calls (by simp) owes).1.eq_takeD
  rw [length_reads] at answers
  exact answers

/-- Two ways to cut the same bytes, both of them between characters, give the same answers. -/
theorem reads_eq_of_flatten_eq (same : left.flatten = right.flatten)
    (fitsLeft : Reads left) (fitsRight : Reads right) (betweenLeft : Utf8.CutsBetween left)
    (betweenRight : Utf8.CutsBetween right) (calls : Nat) :
    (reads calls (ofDeliveries (left.map .bytes))).1 =
      (reads calls (ofDeliveries (right.map .bytes))).1 := by
  rw [reads_of_reads fitsLeft, reads_of_reads fitsRight, Utf8.flatMap_decode betweenLeft,
    Utf8.flatMap_decode betweenRight, same]

theorem reads_eq_around_noBreakSpace :
    Reads [[0x31], [0xC2, 0xA0, 0x32]] ∧ Reads [[0x31, 0xC2, 0xA0], [0x32]] ∧
      Utf8.CutsBetween [[0x31], [0xC2, 0xA0, 0x32]] ∧
      Utf8.CutsBetween [[0x31, 0xC2, 0xA0], [0x32]] ∧
      (reads 3 (ofDeliveries [.bytes [0x31], .bytes [0xC2, 0xA0, 0x32]])).1 =
        (reads 3 (ofDeliveries [.bytes [0x31, 0xC2, 0xA0], .bytes [0x32]])).1 := by
  have same : [[0x31], [0xC2, 0xA0, 0x32]].flatten = [[0x31, 0xC2, 0xA0], [(0x32 : UInt8)]].flatten :=
    rfl
  have fitsLeft : Reads [[0x31], [0xC2, 0xA0, 0x32]] := by decide
  have fitsRight : Reads [[0x31, 0xC2, 0xA0], [0x32]] := by decide
  have betweenLeft : Utf8.CutsBetween [[0x31], [0xC2, 0xA0, 0x32]] :=
    ⟨Utf8.separate_of_whole rfl _, Utf8.separate_of_whole rfl _, trivial⟩
  have betweenRight : Utf8.CutsBetween [[0x31, 0xC2, 0xA0], [0x32]] :=
    ⟨Utf8.separate_of_whole rfl _, Utf8.separate_of_whole rfl _, trivial⟩
  exact ⟨fitsLeft, fitsRight, betweenLeft, betweenRight,
    reads_eq_of_flatten_eq same fitsLeft fitsRight betweenLeft betweenRight 3⟩

/-- A read that ends inside the no-break space makes one malformed number of the two. -/
theorem reads_ne_across_noBreakSpace :
    [[0x31, 0xC2], [0xA0, 0x32]].flatten = [[0x31, 0xC2, 0xA0, (0x32 : UInt8)]].flatten ∧
      (reads 3 (ofDeliveries [.bytes [0x31, 0xC2], .bytes [0xA0, 0x32]])).1 =
          [.error "invalid integer input '1\uFFFD\uFFFD2'", .ok 0, .ok 0] ∧
      (reads 3 (ofDeliveries [.bytes [0x31, 0xC2, 0xA0, 0x32]])).1 = [.ok 1, .ok 2, .ok 0] := by
  have cut : ofDeliveries [.bytes [0x31, 0xC2], .bytes [0xA0, 0x32]] =
      ⟨[.bytes [0x31, 0xC2], .bytes [0xA0, 0x32]], [], false, []⟩ := by
    have fits : Reads [[0x31, 0xC2], [0xA0, 0x32]] := by decide
    exact congrArg (Console.mk · [] false []) (split_of_reads fits)
  have whole : ofDeliveries [.bytes [0x31, 0xC2, 0xA0, 0x32]] =
      ⟨[.bytes [0x31, 0xC2, 0xA0, 0x32]], [], false, []⟩ := by
    have fits : Reads [[0x31, 0xC2, 0xA0, 0x32]] := by decide
    exact congrArg (Console.mk · [] false []) (split_of_reads fits)
  rw [cut, whole]
  exact ⟨rfl, by decide, by decide⟩

end Tally.Console
