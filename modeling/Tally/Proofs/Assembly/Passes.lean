import Tally.Proofs.Assembly.Acts
import Tally.Proofs.Code.Decoding
import Mathlib.Algebra.BigOperators.Intervals

namespace Tally

def slotsFrom : Nat → List Piece → List Slot
  | _, [] => []
  | offset, .bytes bs :: ps => slotsFrom (offset + bs.length) ps
  | offset, .label l :: ps => ⟨offset, l⟩ :: slotsFrom (offset + 4) ps

theorem slotsFrom_append (offset : Nat) (ps qs : List Piece) :
    slotsFrom offset (ps ++ qs) = slotsFrom offset ps ++ slotsFrom (offset + sizeOfPieces ps) qs := by
  induction ps generalizing offset with
  | nil => rfl
  | cons p ps ih =>
    cases p with
    | bytes bs => rw [List.cons_append, slotsFrom, slotsFrom, ih, sizeOfPieces, Piece.size, Nat.add_assoc]
    | label l =>
      rw [List.cons_append, slotsFrom, slotsFrom, ih, sizeOfPieces, Piece.size, Nat.add_assoc]
      rfl

theorem exists_of_mem_slotsFrom {slot : Slot} {offset : Nat} {ps : List Piece}
    (member : slot ∈ slotsFrom offset ps) :
    ∃ before after, ps = before ++ .label slot.label :: after ∧
      slot.offset = offset + sizeOfPieces before := by
  induction ps generalizing offset with
  | nil => cases member
  | cons p ps ih =>
    cases p with
    | bytes bs =>
      obtain ⟨before, after, rfl, place⟩ := ih member
      exact ⟨.bytes bs :: before, after, rfl, by rw [place, sizeOfPieces, Piece.size, Nat.add_assoc]⟩
    | label l =>
      rcases List.mem_cons.mp member with rfl | later
      · exact ⟨[], ps, rfl, rfl⟩
      · obtain ⟨before, after, rfl, place⟩ := ih later
        exact ⟨.label l :: before, after, rfl,
          by rw [place, sizeOfPieces, Piece.size, Nat.add_assoc]⟩

theorem exists_slot_of_mem {l : Label} {ps : List Piece} (offset : Nat) (used : .label l ∈ ps) :
    ∃ slot ∈ slotsFrom offset ps, slot.label = l := by
  obtain ⟨before, after, rfl⟩ := List.append_of_mem used
  rw [slotsFrom_append]
  exact ⟨⟨_, l⟩, List.mem_append_right _ List.mem_cons_self, rfl⟩

theorem renderAll_congr {v w : Label → Nat} {ps : List Piece}
    (same : ∀ l, .label l ∈ ps → v l = w l) : renderAll v ps = renderAll w ps := by
  induction ps with
  | nil => rfl
  | cons p ps ih =>
    have first : p.render v = p.render w := by
      cases p with
      | bytes bs => rfl
      | label l => rw [Piece.render, Piece.render, same l List.mem_cons_self]
    have rest := ih fun l used => same l (List.mem_cons_of_mem _ used)
    simp only [renderAll, List.flatMap_cons] at rest ⊢
    rw [first, rest]

theorem getElem?_renderAll {v w : Label → Nat} {ps : List Piece} {offset i : Nat}
    (outside : ∀ slot ∈ slotsFrom offset ps, ¬ slot.Covers (offset + i)) :
    (renderAll v ps)[i]? = (renderAll w ps)[i]? := by
  induction ps generalizing offset i with
  | nil => rfl
  | cons p ps ih =>
    have split (u : Label → Nat) : renderAll u (p :: ps) = p.render u ++ renderAll u ps := rfl
    rw [split, split, List.getElem?_append, List.getElem?_append, p.length_render, p.length_render]
    cases p with
    | bytes bs =>
      by_cases inside : i < Piece.size (.bytes bs)
      · rw [if_pos inside, if_pos inside]
        rfl
      · rw [if_neg inside, if_neg inside]
        apply @ih (offset + bs.length)
        intro slot member
        have place : offset + bs.length + (i - Piece.size (.bytes bs)) = offset + i := by
          have size : Piece.size (.bytes bs) = bs.length := rfl
          omega
        rw [place]
        exact outside slot member
    | label l =>
      have here : ¬ Slot.Covers ⟨offset, l⟩ (offset + i) := outside _ List.mem_cons_self
      have inside : ¬ i < Piece.size (.label l) := by
        intro small
        exact here ⟨Nat.le_add_right _ _, Nat.add_lt_add_left small _⟩
      rw [if_neg inside, if_neg inside]
      apply @ih (offset + 4)
      intro slot member
      have place : offset + 4 + (i - Piece.size (.label l)) = offset + i := by
        have size : Piece.size (.label l) = 4 := rfl
        omega
      rw [place]
      exact outside slot (List.mem_cons_of_mem _ member)

theorem sum_waiting {n : Nat} (places : Label → Option Nat) {offset : Nat} {ps : List Piece}
    (known : ∀ l, .label l ∈ ps → l < n) :
    ∑ l ∈ Finset.range n, (if places l = none then (slots l offset ps).length else 0) =
      (slotsFrom offset ps).countP fun slot => places slot.label = none := by
  induction ps generalizing offset with
  | nil => simp [slots, slotsFrom]
  | cons p ps ih =>
    have rest := @ih (offset + p.size) fun l used => known l (List.mem_cons_of_mem _ used)
    cases p with
    | bytes bs => simpa [slots, slotsFrom, Piece.size] using rest
    | label l =>
      have bound : l < n := known l List.mem_cons_self
      have head (l' : Label) : (slots l' offset (.label l :: ps)).length =
          (if l = l' then 1 else 0) + (slots l' (offset + 4) ps).length := by
        rw [slots, List.length_append]
        by_cases same : l = l' <;> simp [same, Piece.size]
      have split (l' : Label) :
          (if places l' = none then (slots l' offset (.label l :: ps)).length else 0) =
            (if l = l' then if places l' = none then 1 else 0 else 0) +
              if places l' = none then (slots l' (offset + 4) ps).length else 0 := by
        rw [head]
        by_cases none : places l' = none <;> simp [none]
      rw [Finset.sum_congr rfl fun l' _ => split l', Finset.sum_add_distrib, Finset.sum_ite_eq,
        if_pos (Finset.mem_range.mpr bound), slotsFrom, List.countP_cons, Nat.add_comm]
      rw [Piece.size] at rest
      rw [rest]
      simp

namespace Linker.Shows

variable {k : Linker} {s : Sketch}

theorem pendingCount (shown : k.Shows s) (sound : s.Sound) : k.labels.pendingCount =
    (slotsFrom 0 s.pieces).countP fun slot => s.places slot.label = none := by
  have states : k.labels.states.toList = (List.range s.labels).map s.state := by
    apply List.ext_getElem?
    intro l
    rw [Array.getElem?_toList, List.getElem?_map]
    by_cases known : l < s.labels
    · rw [shown.states l known, List.getElem?_range known]
      rfl
    · rw [Array.getElem?_eq_none (by rw [shown.labels]; omega),
        List.getElem?_eq_none (by rw [List.length_range]; omega)]
      rfl
  have count (l : Label) : (s.state l).waitingCount =
      if s.places l = none then (slots l 0 s.pieces).length else 0 := by
    unfold Sketch.state
    cases s.places l with
    | none => rfl
    | some a => rfl
  have total : k.labels.pendingCount =
      ∑ l ∈ Finset.range s.labels, (s.state l).waitingCount := by
    unfold LabelTable.pendingCount
    rw [states, List.foldr_map, Finset.sum_eq_multiset_sum, Finset.range_val, Multiset.range,
      Multiset.map_coe, Multiset.sum_coe, List.sum, List.foldr_map]
  rw [total, Finset.sum_congr rfl fun l _ => count l, sum_waiting s.places sound.used]

theorem readCount (shown : k.Shows s) {slot : Slot} (member : slot ∈ slotsFrom 0 s.pieces) :
    (k.builder.toCode #[] [] "").readCount slot.offset = .ok ((s.places slot.label).getD 0) := by
  obtain ⟨before, after, split, place⟩ := exists_of_mem_slotsFrom member
  have used : .label slot.label ∈ s.pieces := by
    rw [split]
    exact List.mem_append_right _ List.mem_cons_self
  have small : s.value slot.label < LittleEndian.modulus 4 := by
    unfold Sketch.value
    cases placed : s.places slot.label with
    | none => decide
    | some a => exact shown.small _ a used placed
  have bytes : (k.builder.toCode #[] [] "").bytes.toList = renderAll s.value before ++
      (LittleEndian.encode 4 (s.value slot.label) ++ renderAll s.value after) := by
    have all := shown.bytes
    rw [Sketch.bytes, split, renderAll_append] at all
    exact all
  rw [place, Nat.zero_add, ← length_renderAll s.value before]
  exact Code.readCount_of_bytes small bytes

end Linker.Shows

namespace Sketch

/-- The first pass: the pieces of the code, and the addresses of the labels. -/
def ofActs (acts : List Act) : Sketch := acts.foldl after blank

theorem pieces_extended_foldl (acts : List Act) (s : Sketch) :
    s.pieces <+: (acts.foldl after s).pieces := by
  induction acts generalizing s with
  | nil => exact List.prefix_refl _
  | cons a acts ih =>
    have first : s.pieces <+: (s.after a).pieces := by
      unfold after
      cases done : s.act a with
      | ok s' => exact (grows_of_act done).pieces_extended
      | error e => exact List.prefix_refl _
    exact first.trans (ih _)

end Sketch

/-- The second pass, with all addresses known. -/
def assemble (addr : Label → Nat) (acts : List Act) : List UInt8 :=
  renderAll addr (Sketch.ofActs acts).pieces

namespace Log

structure Follows (log : Log) (s : Sketch) : Prop where
  shows : log.linker.Shows s
  sound : s.Sound
  slots : log.slots = slotsFrom 0 s.pieces
  places : log.places = s.places

theorem follows_blank : blank.Follows Sketch.blank where
  shows := ⟨rfl, rfl, nofun, nofun⟩
  sound := Sketch.sound_blank
  slots := rfl
  places := rfl

variable {log : Log} {s : Sketch}

theorem Follows.after (follows : log.Follows s) (small : s.size < 2 ^ 32) (a : Act) :
    (log.after a).Follows (s.after a) := by
  have agrees := Linking.perform_agrees follows.shows follows.sound small a
  have offset : log.offset = s.size := follows.shows.offset
  unfold Log.after Sketch.after
  cases done : s.act a with
  | error e =>
    rw [done] at agrees
    have failed : a.perform log.linker = .error e log.linker := agrees
    rw [failed]
    exact follows
  | ok s' =>
    rw [done] at agrees
    obtain ⟨_, k, performed, shown⟩ := agrees
    have grows := Sketch.grows_of_act done
    rw [performed]
    refine ⟨shown, grows.sound follows.sound, ?_, ?_⟩
    · dsimp only
      rw [follows.slots, offset]
      cases grows with
      | create | place => exact List.append_nil _
      | reference known =>
        rw [Act.referenced?, Number.toNat?_natCast, Sketch.add, slotsFrom_append, Nat.zero_add]
        rfl
      | op | count | number =>
        rw [Sketch.add, slotsFrom_append]
        rfl
    · dsimp only
      rw [follows.places, offset]
      cases grows with
      | place known fresh =>
        rw [Act.placed?, Number.toNat?_natCast]
        rfl
      | create | reference | op | count | number => rfl

theorem offset_le_after (log : Log) (a : Act) : log.offset ≤ (log.after a).offset := by
  have lengthens := Linking.perform_lengthens a log.linker
  unfold Log.after
  cases done : a.perform log.linker with
  | ok u k | error e k =>
    rw [done] at lengthens
    exact lengthens

theorem offset_le_foldl (acts : List Act) (log : Log) :
    log.offset ≤ (acts.foldl Log.after log).offset := by
  induction acts generalizing log with
  | nil => exact Nat.le_refl _
  | cons a acts ih => exact Nat.le_trans (log.offset_le_after a) (ih _)

theorem Follows.foldl (acts : List Act) (follows : log.Follows s)
    (small : (acts.foldl Log.after log).offset < 2 ^ 32) :
    (acts.foldl Log.after log).Follows (acts.foldl Sketch.after s) := by
  induction acts generalizing log s with
  | nil => exact follows
  | cons a acts ih =>
    have now : s.size < 2 ^ 32 := by
      have offset : log.offset = s.size := follows.shows.offset
      have later := offset_le_foldl (a :: acts) log
      omega
    exact ih (follows.after now a) small

theorem follows_ofActs {acts : List Act} (small : (ofActs acts).offset < 2 ^ 32) :
    (ofActs acts).Follows (Sketch.ofActs acts) := follows_blank.foldl acts small

/-- What acts on a table have in common with an assembler of two passes. -/
structure Assembles (acts : List Act) (log : Log) : Prop where
  /-- An operand for a label reads as its address, and as zero where it has none. -/
  slots : ∀ slot ∈ log.slots, log.code.readCount slot.offset = .ok ((log.places slot.label).getD 0)
  /-- No later act changes a byte outside of these operands. -/
  stays : ∀ more, (ofActs (acts ++ more)).offset < 2 ^ 32 → ∀ i < log.offset,
    (∀ slot ∈ log.slots, ¬ slot.Covers i) → (ofActs (acts ++ more)).code.bytes[i]? = log.code.bytes[i]?
  pending : log.linker.labels.pendingCount =
    (log.slots.filter fun slot => log.places slot.label = none).length
  resolved : log.linker.labels.assertResolved = .ok () ↔
    ∀ slot ∈ log.slots, ∃ a, log.places slot.label = some a
  /-- The first pass finds the labels where they were placed. -/
  places : (Sketch.ofActs acts).places = log.places
  bytes : log.linker.labels.assertResolved = .ok () → ∀ addr : Label → Nat,
    (∀ l a, log.places l = some a → addr l = a) → log.code.bytes.toList = assemble addr acts
  /-- What is refused is known from the first pass, and changes nothing. -/
  refused : ∀ a e k, a.perform log.linker = .error e k ↔
    (Sketch.ofActs acts).act a = .error e ∧ k = log.linker

theorem Follows.stays {later : Log} {s' : Sketch} (follows : log.Follows s)
    (further : later.Follows s') (longer : s.pieces <+: s'.pieces) {i : Nat} (inside : i < log.offset)
    (outside : ∀ slot ∈ log.slots, ¬ slot.Covers i) : later.code.bytes[i]? = log.code.bytes[i]? := by
  obtain ⟨rest, split⟩ := longer
  have old : log.code.bytes.toList = renderAll s.value s.pieces := follows.shows.bytes
  have new : later.code.bytes.toList = renderAll s'.value s.pieces ++ renderAll s'.value rest := by
    rw [← renderAll_append, split]
    exact further.shows.bytes
  have offset : log.offset = s.size := follows.shows.offset
  have within : i < (renderAll s'.value s.pieces).length := by
    rw [length_renderAll]
    rwa [offset] at inside
  rw [← Array.getElem?_toList, ← Array.getElem?_toList, old, new, List.getElem?_append_left within]
  apply @getElem?_renderAll _ _ _ 0
  intro slot member
  rw [Nat.zero_add]
  exact outside slot (by rwa [follows.slots])

theorem Follows.pendingCount (follows : log.Follows s) : log.linker.labels.pendingCount =
    (log.slots.filter fun slot => log.places slot.label = none).length := by
  rw [follows.shows.pendingCount follows.sound, follows.slots, follows.places,
    List.countP_eq_length_filter]

theorem Follows.resolved (follows : log.Follows s) :
    log.linker.labels.assertResolved = .ok () ↔
      ∀ slot ∈ log.slots, ∃ a, log.places slot.label = some a := by
  have none : log.linker.labels.assertResolved = .ok () ↔ log.linker.labels.pendingCount = 0 := by
    unfold LabelTable.assertResolved
    by_cases zero : log.linker.labels.pendingCount = 0 <;> simp [zero]
  rw [none, follows.pendingCount, List.length_eq_zero_iff, List.filter_eq_nil_iff]
  simp only [decide_eq_true_eq, ← Option.ne_none_iff_exists', ne_eq]

theorem Follows.bytes (follows : log.Follows s)
    (resolved : log.linker.labels.assertResolved = .ok ()) {addr : Label → Nat}
    (agree : ∀ l a, log.places l = some a → addr l = a) :
    log.code.bytes.toList = renderAll addr s.pieces := by
  have placed := follows.resolved.mp resolved
  have bytes : log.code.bytes.toList = s.bytes := follows.shows.bytes
  rw [bytes]
  apply renderAll_congr
  intro l used
  obtain ⟨slot, member, rfl⟩ := exists_slot_of_mem 0 used
  obtain ⟨a, here⟩ := placed slot (by rwa [follows.slots])
  rw [agree _ a here, Sketch.value, ← follows.places, here]
  rfl

theorem Follows.refused (follows : log.Follows s) (small : s.size < 2 ^ 32) (a : Act)
    (e : LabelFault) (k : Linker) :
    a.perform log.linker = .error e k ↔ s.act a = .error e ∧ k = log.linker := by
  have agrees := Linking.perform_agrees follows.shows follows.sound small a
  cases outcome : s.act a with
  | ok s' =>
    rw [outcome] at agrees
    obtain ⟨_, k', done, _⟩ := agrees
    rw [done]
    constructor
    · intro same
      cases same
    · rintro ⟨same, _⟩
      cases same
  | error e' =>
    rw [outcome] at agrees
    have failed : a.perform log.linker = .error e' log.linker := agrees
    rw [failed]
    constructor
    · intro same
      cases same
      exact ⟨rfl, rfl⟩
    · rintro ⟨same, rfl⟩
      cases same
      rfl

/-- Acts on one table of labels, in any order, give the code of an assembler that knows all
addresses; what is not known yet is zero. -/
theorem assembles_ofActs (acts : List Act) (small : (ofActs acts).offset < 2 ^ 32) :
    (ofActs acts).Assembles acts := by
  have follows := follows_ofActs small
  have size : (Sketch.ofActs acts).size < 2 ^ 32 := by
    rw [← follows.shows.offset]
    exact small
  constructor
  · intro slot member
    rw [follows.places]
    rw [follows.slots] at member
    exact follows.shows.readCount member
  · intro more later i inside outside
    apply follows.stays (follows_ofActs later) _ inside outside
    unfold Sketch.ofActs
    rw [List.foldl_append]
    exact Sketch.pieces_extended_foldl more _
  · exact follows.pendingCount
  · exact follows.resolved
  · exact follows.places.symm
  · exact fun resolved addr agree => follows.bytes resolved agree
  · exact follows.refused size

def sampleActs : List Act :=
  [.create, .create, .create, .op 8, .reference 0, .count 7, .place 0, .reference 0, .place 0,
   .reference 5, .count (-1), .reference 1, .number (2 ^ 63), .place 1, .op 9]

theorem assembles_ofActs_sample :
    (ofActs sampleActs).offset < 2 ^ 32 ∧ (ofActs sampleActs).Assembles sampleActs := by
  have small : (ofActs sampleActs).offset < 2 ^ 32 := by decide +kernel
  exact ⟨small, assembles_ofActs sampleActs small⟩

end Log

end Tally
