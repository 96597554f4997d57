import Tally.Proofs.Channel.Supply
import Tally.Proofs.Channel.Numerals
import Tally.Proofs.Text.Utf8

namespace Tally

theorem flatten_pieces (size : Nat) (bs : List UInt8) : (pieces size bs).flatten = bs := by
  fun_induction pieces size bs with
  | case1 => rfl
  | case2 b bs ih => rw [List.flatten_cons, ih, List.cons_append, List.take_append_drop]

theorem ne_nil_of_mem_pieces {size : Nat} {bs piece : List UInt8}
    (member : piece ∈ pieces size bs) : piece ≠ [] := by
  fun_induction pieces size bs with
  | case1 => cases member
  | case2 b bs ih =>
    rcases List.mem_cons.mp member with rfl | member
    · exact List.cons_ne_nil _ _
    · exact ih member

theorem pieces_of_length_le {size : Nat} {bs : List UInt8} (nonempty : bs ≠ [])
    (short : bs.length ≤ size + 1) : pieces size bs = [bs] := by
  cases bs with
  | nil => exact absurd rfl nonempty
  | cons b bs =>
    have short : bs.length ≤ size := Nat.le_of_succ_le_succ short
    rw [pieces, List.take_of_length_le short, List.drop_of_length_le short, pieces]

namespace Delivery

theorem split_bytes {bs : List UInt8} (nonempty : bs ≠ []) :
    split (bytes bs) = (pieces (readSize - 1) bs).map bytes := by
  cases bs with
  | nil => exact absurd rfl nonempty
  | cons b bs => rfl

theorem split_of_ends {d : Delivery} (ends : d.Ends) : d.split = [d] := by
  cases d with
  | bytes bs =>
    cases ends
    rfl
  | fails code message => rfl

theorem not_ends_of_mem_split {d e : Delivery} (live : ¬ d.Ends) (member : e ∈ d.split) :
    ¬ e.Ends := by
  cases d with
  | bytes bs =>
    rw [split_bytes live] at member
    obtain ⟨piece, inside, rfl⟩ := List.mem_map.mp member
    exact ne_nil_of_mem_pieces inside
  | fails code message =>
    rw [List.mem_singleton.mp member]
    exact live

theorem content_split (d : Delivery) : d.split.flatMap content = d.content := by
  cases d with
  | bytes bs =>
    by_cases empty : bs = []
    · rw [empty]
      rfl
    · rw [split_bytes empty, List.flatMap_map]
      exact List.flatMap_id'.trans (flatten_pieces _ bs)
  | fails code message => rfl

theorem failure?_split (d : Delivery) : d.split.filterMap failure? = d.failure?.toList := by
  cases d with
  | bytes bs =>
    by_cases empty : bs = []
    · rw [empty]
      rfl
    · rw [split_bytes empty, List.filterMap_map]
      exact List.filterMap_eq_nil_iff.mpr fun _ _ => rfl
  | fails code message =>
    rw [split, List.filterMap_cons]
    cases failure? (fails code message) <;> rfl

theorem content_flatMap_split (ds : List Delivery) :
    (ds.flatMap split).flatMap content = ds.flatMap content := by
  rw [List.flatMap_assoc]
  exact List.flatMap_congr fun d _ => d.content_split

theorem failures_flatMap_split (ds : List Delivery) :
    (ds.flatMap split).filterMap failure? = ds.filterMap failure? := by
  induction ds with
  | nil => rfl
  | cons d ds ih =>
    rw [List.flatMap_cons, List.filterMap_append, ih, failure?_split, List.filterMap_cons]
    cases d.failure? <;> rfl

theorem text_of_ascii {ds : List Delivery} (ascii : ∀ b ∈ ds.flatMap content, b.toNat < 128) :
    ds.flatMap text = (ds.flatMap content).map fun b => Char.ofNat b.toNat := by
  rw [List.map_flatMap]
  apply List.flatMap_congr
  intro d member
  exact Utf8.decode_ascii fun b inside => ascii b (List.mem_flatMap.mpr ⟨d, member, inside⟩)

end Delivery

theorem exists_byte {c : Char} (ascii : c.toNat < 128) :
    ∃ b : UInt8, String.utf8EncodeChar c = [b] ∧ b.toNat = c.toNat := by
  refine ⟨UInt8.ofNat c.toNat, if_pos (Nat.le_of_lt_succ ascii), ?_⟩
  rw [UInt8.toNat_ofNat']
  exact Nat.mod_eq_of_lt (Nat.lt_trans ascii (by decide))

theorem map_encode_ascii {text : List Char} (ascii : ∀ c ∈ text, c.toNat < 128) :
    (text.flatMap String.utf8EncodeChar).map (fun b => Char.ofNat b.toNat) = text := by
  induction text with
  | nil => rfl
  | cons c text ih =>
    obtain ⟨b, encoded, same⟩ := exists_byte (ascii c List.mem_cons_self)
    rw [List.flatMap_cons, encoded, List.singleton_append, List.map_cons, same, Char.ofNat_toNat,
      ih fun c member => ascii c (List.mem_cons_of_mem _ member)]

theorem encode_ascii_small {text : List Char} (ascii : ∀ c ∈ text, c.toNat < 128) :
    ∀ b ∈ text.flatMap String.utf8EncodeChar, b.toNat < 128 := by
  intro b member
  obtain ⟨c, inside, member⟩ := List.mem_flatMap.mp member
  obtain ⟨b', encoded, same⟩ := exists_byte (ascii c inside)
  rw [encoded, List.mem_singleton] at member
  rw [member, same]
  exact ascii c inside

namespace Console

variable {before after : List Delivery}

theorem owes_ofDeliveries (live : ∀ d ∈ before, ¬ d.Ends) :
    Owes (after.flatMap Delivery.split) (ofDeliveries (before ++ after))
      (wordsOf ((before.flatMap Delivery.split).flatMap Delivery.text))
      (before.filterMap Delivery.failure?) := by
  rw [ofDeliveries, List.flatMap_append, ← Delivery.failures_flatMap_split]
  apply Owes.reading
  intro e member
  obtain ⟨d, inside, member⟩ := List.mem_flatMap.mp member
  exact Delivery.not_ends_of_mem_split (live d inside) member

theorem ends_split (ends : ∀ d ∈ after.head?, d.Ends) :
    ∀ d ∈ (after.flatMap Delivery.split).head?, d.Ends := by
  cases after with
  | nil => simp
  | cons d after =>
    have last : d.Ends := ends d rfl
    rw [List.flatMap_cons, Delivery.split_of_ends last]
    simpa using last

/-- What a number of calls for numbers came to. The input was `text`, with `failures` among its
reads, and `last` are the reads from its end on. -/
structure Supplied (text : List Char) (failures : List String) (last : List Delivery) (calls : Nat)
    (answers : List (Except String Int)) (c : Console) : Prop where
  answered : answers.length = calls
  served : Served (wordsOf text) failures answers
  /-- The end that was not seen is still to be read, and after the end nothing is read. -/
  unread : if c.ended then c.deliveries = last.tail
    else ∃ left, (∀ d ∈ left, ¬ d.Ends) ∧ c.deliveries = left ++ last
  numbers : failures = [] → ∀ zs : List Int64,
    wordsOf text = zs.map (fun z => (toString z.toInt).toList) →
    answers = (zs.map fun z => .ok z.toInt).takeD calls (.ok 0)

theorem length_reads (calls : Nat) (c : Console) : (reads calls c).1.length = calls := by
  induction calls generalizing c with
  | zero => rfl
  | succ calls ih => exact congrArg (· + 1) (ih _)

theorem supplied_of_owes {text : List Char} {failures : List String} {last : List Delivery}
    {c : Console} (ends : ∀ d ∈ last.head?, d.Ends) (owes : Owes last c (wordsOf text) failures)
    (calls : Nat) : Supplied text failures last calls (reads calls c).1 (reads calls c).2 := by
  obtain ⟨served, ws', fs', left⟩ := served_reads calls ends owes
  refine ⟨length_reads calls c, served, ?_, ?_⟩
  · generalize (reads calls c).2 = c' at left
    cases left with
    | reading before live => exact ⟨before, live, rfl⟩
    | ended => rfl
  · rintro rfl zs words
    have answers := served.eq_takeD
    rw [words, List.map_map, length_reads] at answers
    rw [answers]
    congr 1
    apply List.map_congr_left
    intro z _
    exact congrArg (Except.mapError NumeralFault.message) (parseNumeral_toString z)

theorem owes_text {text : List Char} (ascii : ∀ c ∈ text, c.toNat < 128)
    (bytes : before.flatMap Delivery.content = text.flatMap String.utf8EncodeChar)
    (live : ∀ d ∈ before, ¬ d.Ends) :
    Owes (after.flatMap Delivery.split) (ofDeliveries (before ++ after)) (wordsOf text)
      (before.filterMap Delivery.failure?) := by
  have brought : (before.flatMap Delivery.split).flatMap Delivery.text = text := by
    rw [Delivery.text_of_ascii, Delivery.content_flatMap_split, bytes, map_encode_ascii ascii]
    rw [Delivery.content_flatMap_split, bytes]
    exact encode_ascii_small ascii
  have owes := @owes_ofDeliveries _ after live
  rwa [brought] at owes

theorem reads_numberLines {zs : List Int64} {before after : List Delivery}
    (bytes : before.flatMap Delivery.content =
      (numberLines (zs.map Int64.toInt)).flatMap String.utf8EncodeChar)
    (live : ∀ d ∈ before, ¬ d.Ends) (calm : before.filterMap Delivery.failure? = [])
    (ends : ∀ d ∈ after.head?, d.Ends) (calls : Nat) :
    (reads calls (ofDeliveries (before ++ after))).1 =
      (zs.map fun z => .ok z.toInt).takeD calls (.ok 0) := by
  have owes := @owes_text _ after _ (fun _ => ascii_of_mem_numberLines) bytes live
  have supplied := supplied_of_owes (ends_split ends) owes calls
  exact supplied.numbers calm zs ((wordsOf_numberLines _).trans (List.map_map ..))

/-- However an ASCII text is cut into reads, and wherever reads fail, the calls for numbers answer
with its words in their order and pass each failure on once. If the text is made of lines of
numbers and no read fails, the answers are these numbers and then zeros. -/
theorem supplied_reads {text : List Char} {before after : List Delivery}
    (ascii : ∀ c ∈ text, c.toNat < 128)
    (bytes : before.flatMap Delivery.content = text.flatMap String.utf8EncodeChar)
    (live : ∀ d ∈ before, ¬ d.Ends) (ends : ∀ d ∈ after.head?, d.Ends) (calls : Nat) :
    Supplied text (before.filterMap Delivery.failure?) (after.flatMap Delivery.split) calls
      (reads calls (ofDeliveries (before ++ after))).1
      (reads calls (ofDeliveries (before ++ after))).2 ∧
    ∀ zs : List Int64, text = numberLines (zs.map Int64.toInt) →
      before.filterMap Delivery.failure? = [] →
        (reads calls (ofDeliveries (before ++ after))).1 =
          (zs.map fun z => .ok z.toInt).takeD calls (.ok 0) := by
  constructor
  · exact supplied_of_owes (ends_split ends) (owes_text ascii bytes live) calls
  · rintro zs rfl calm
    exact reads_numberLines bytes live calm ends calls

def sampleReads : List Delivery :=
  [.bytes [0x35, 0x0A, 0x2D], .fails "EAGAIN" "again", .fails "EIO" "broken", .bytes [0x37]]

def sampleRest : List Delivery := [.fails "EOF" "end", .bytes [0x39]]

def sampleLines : List Delivery :=
  [.bytes [0x35, 0x0A, 0x2D], .fails "EAGAIN" "again", .bytes [0x37, 0x0A]]

theorem supplied_reads_sample :
    (∀ c ∈ "5\n-7".toList, c.toNat < 128) ∧
      sampleReads.flatMap Delivery.content = "5\n-7".toList.flatMap String.utf8EncodeChar ∧
      (∀ d ∈ sampleReads, ¬ d.Ends) ∧ (∀ d ∈ sampleRest.head?, d.Ends) ∧
      Supplied "5\n-7".toList ["broken"] (sampleRest.flatMap Delivery.split) 4
        (reads 4 (ofDeliveries (sampleReads ++ sampleRest))).1
        (reads 4 (ofDeliveries (sampleReads ++ sampleRest))).2 ∧
      (reads 3 (ofDeliveries (sampleLines ++ sampleRest))).1 = [.ok 5, .ok (-7), .ok 0] := by
  have small : ("5\n-7".toList.all fun c => c.toNat < 128) = true := by decide
  have ascii : ∀ c ∈ "5\n-7".toList, c.toNat < 128 :=
    fun c member => of_decide_eq_true (List.all_eq_true.mp small c member)
  have bytes : sampleReads.flatMap Delivery.content =
    "5\n-7".toList.flatMap String.utf8EncodeChar := by decide
  have live : ∀ d ∈ sampleReads, ¬ d.Ends := by decide
  have ends : ∀ d ∈ sampleRest.head?, d.Ends := by decide
  have smallLines : ("5\n-7\n".toList.all fun c => c.toNat < 128) = true := by decide
  have asciiLines : ∀ c ∈ "5\n-7\n".toList, c.toNat < 128 :=
    fun c member => of_decide_eq_true (List.all_eq_true.mp smallLines c member)
  have bytesLines : sampleLines.flatMap Delivery.content =
    "5\n-7\n".toList.flatMap String.utf8EncodeChar := by decide
  have liveLines : ∀ d ∈ sampleLines, ¬ d.Ends := by decide
  have lines : "5\n-7\n".toList = numberLines ([5, -7].map Int64.toInt) := by decide
  exact ⟨ascii, bytes, live, ends, (supplied_reads ascii bytes live ends 4).1,
    (supplied_reads asciiLines bytesLines liveLines ends 3).2 [5, -7] lines rfl⟩

end Console

end Tally
