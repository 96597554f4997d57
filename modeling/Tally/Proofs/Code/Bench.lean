import Tally.Code.Sheet
import Tally.Proofs.Assembly.Acts
import Mathlib.Data.List.Nodup

namespace Tally

theorem le_doubledTo (needed capacity : Nat) (positive : 0 < capacity) :
    needed ≤ doubledTo needed capacity positive := by
  induction capacity, positive using doubledTo.induct needed with
  | case1 capacity positive small ih =>
    rw [doubledTo, if_pos small]
    exact ih
  | case2 capacity positive fits =>
    rw [doubledTo, if_neg fits]
    exact Nat.le_of_not_lt fits

theorem toList_overwriteFrom_eq {bytes : Array UInt8} {offset : Nat} {new : List UInt8}
    (inside : offset + new.length ≤ bytes.toList.length) :
    (Builder.overwriteFrom bytes offset new).toList =
      bytes.toList.take offset ++ new ++ bytes.toList.drop (offset + new.length) := by
  have split : bytes.toList = bytes.toList.take offset ++
      ((bytes.toList.drop offset).take new.length ++ bytes.toList.drop (offset + new.length)) := by
    rw [← List.drop_drop, List.take_append_drop, List.take_append_drop]
  have front : (bytes.toList.take offset).length = offset := List.length_take_of_le (by omega)
  have width : ((bytes.toList.drop offset).take new.length).length = new.length :=
    List.length_take_of_le (by rw [List.length_drop]; omega)
  have replaced := Linking.toList_overwriteFrom split width
  rw [front] at replaced
  rw [replaced, List.append_assoc]

namespace Storage

variable {s s' : Storage} {i offset : Nat} {is js : List Nat} {bytes : Array UInt8}

structure ChangedAt (i : Nat) (s s' : Storage) : Prop where
  size : s'.blocks.size = s.blocks.size
  others : ∀ j, j ≠ i → s'.contents j = s.contents j

structure Apart (s : Storage) (is : List Nat) : Prop where
  nodup : is.Nodup
  stored : ∀ i ∈ is, i < s.blocks.size

theorem contents_allocate (s : Storage) (bytes : Array UInt8) :
    (s.allocate bytes).2.contents s.blocks.size = bytes.toList := by
  simp [contents, block, allocate]

theorem contents_allocate_of_lt (stored : i < s.blocks.size) :
    (s.allocate bytes).2.contents i = s.contents i := by
  simp [contents, block, allocate, Array.getElem?_push_lt stored, Array.getElem?_eq_getElem stored]

theorem Apart.map_contents_allocate (apart : s.Apart is) :
    is.map (s.allocate bytes).2.contents = is.map s.contents :=
  List.map_congr_left fun i member => contents_allocate_of_lt (apart.stored i member)

theorem Apart.allocate (apart : s.Apart is) (bytes : Array UInt8) :
    (s.allocate bytes).2.Apart (s.blocks.size :: is) where
  nodup := List.nodup_cons.mpr ⟨fun old => Nat.lt_irrefl _ (apart.stored _ old), apart.nodup⟩
  stored i member := by
    have size : (s.allocate bytes).2.blocks.size = s.blocks.size + 1 := Array.size_push _
    rw [size]
    rcases List.mem_cons.mp member with rfl | old
    · exact Nat.lt_succ_self _
    · exact Nat.lt_succ_of_lt (apart.stored i old)

theorem Apart.perm (apart : s.Apart is) (same : is.Perm js) : s.Apart js where
  nodup := same.nodup_iff.mp apart.nodup
  stored i member := apart.stored i (same.mem_iff.mpr member)

theorem Apart.sublist (apart : s.Apart is) (fewer : js.Sublist is) : s.Apart js where
  nodup := apart.nodup.sublist fewer
  stored i member := apart.stored i (fewer.subset member)

theorem Apart.changedAt (apart : s.Apart is) (changed : ChangedAt i s s') : s'.Apart is where
  nodup := apart.nodup
  stored i member := changed.size ▸ apart.stored i member

theorem ChangedAt.map_contents (changed : ChangedAt i s s') (free : i ∉ is) :
    is.map s'.contents = is.map s.contents :=
  List.map_congr_left fun j member => changed.others j fun same => free (same ▸ member)

theorem ChangedAt.map_contents_modify (changed : ChangedAt i s s') (nodup : is.Nodup) {k : Nat}
    (found : is[k]? = some i) {f : List UInt8 → List UInt8}
    (new : s'.contents i = f (s.contents i)) :
    is.map s'.contents = (is.map s.contents).modify k f := by
  induction is generalizing k with
  | nil => cases found
  | cons a as ih =>
    obtain ⟨free, rest⟩ := List.nodup_cons.mp nodup
    cases k with
    | zero =>
      cases found
      rw [List.map_cons, List.map_cons, List.modify_zero_cons, new, changed.map_contents free]
    | succ k =>
      have other : a ≠ i := fun same => free (same ▸ List.mem_of_getElem? found)
      rw [List.map_cons, List.map_cons, List.modify_succ_cons, changed.others a other,
        ih rest found]

theorem changedAt_of_write {new : List UInt8} (done : s.write i offset new = some s') :
    ChangedAt i s s' := by
  unfold write at done
  split at done
  · cases done
    refine ⟨Array.size_modify, fun j other => ?_⟩
    simp [contents, block, Array.getElem?_modify, other.symm]
  · cases done

theorem contents_of_write {new : List UInt8} (stored : i < s.blocks.size)
    (done : s.write i offset new = some s') :
    s'.contents i = (Builder.overwriteFrom (s.block i) offset new).toList := by
  unfold write at done
  split at done
  · cases done
    simp [contents, block, Array.getElem?_modify, Array.getElem?_eq_getElem stored]
  · cases done

theorem exists_write {new : List UInt8} (stored : i < s.blocks.size)
    (inside : offset + new.length ≤ (s.contents i).length) :
    ∃ s', s.write i offset new = some s' ∧ ChangedAt i s s' ∧ s'.contents i =
      (s.contents i).take offset ++ new ++ (s.contents i).drop (offset + new.length) := by
  have done : s.write i offset new = some _ := if_pos inside
  refine ⟨_, done, changedAt_of_write done, ?_⟩
  rw [contents_of_write stored done]
  exact toList_overwriteFrom_eq inside

theorem changedAt_set (stored : i < s.blocks.size) (offset : Nat) (byte : UInt8) :
    ChangedAt i s ((s.write i offset [byte]).getD s) ∧
      ((s.write i offset [byte]).getD s).contents i = (s.contents i).set offset byte := by
  cases done : s.write i offset [byte] with
  | some s' =>
    refine ⟨changedAt_of_write done, ?_⟩
    rw [Option.getD_some, contents_of_write stored done, Builder.overwriteFrom,
      Builder.overwriteFrom, Array.toList_setIfInBounds]
    rfl
  | none =>
    have outside : ¬ offset + 1 ≤ (s.block i).size := fun inside => by
      rw [write, List.length_singleton, if_pos inside] at done
      cases done
    refine ⟨⟨rfl, fun _ _ => rfl⟩, ?_⟩
    rw [Option.getD_none, List.set_eq_of_length_le]
    rw [contents, Array.length_toList]
    omega

end Storage

namespace Sheet

theorem countBytes_eq (value : Number) : Builder.countBytes value =
    match count? value with
    | some n => .ok (LittleEndian.encode 4 n)
    | none => .error (.count value) := by
  have modulus : LittleEndian.modulus 4 = countBound := by decide
  unfold Builder.countBytes count?
  rw [modulus]
  cases value.toNat? with
  | none => rfl
  | some n =>
    simp only [Option.filter_some, decide_eq_true_eq]
    split <;> rfl

theorem numberBytes_eq (value : Int) : Builder.numberBytes value =
    if -numberBound ≤ value ∧ value < numberBound then .ok (LittleEndian.encodeInt 8 value)
    else .error (.number value) := by
  have bound : numberBound = 2 ^ 63 := by decide
  unfold Builder.numberBytes
  rw [bound]
  exact if_congr Linking.numberBytes_iff rfl rfl

theorem operandOffset_eq (offset : Number) (length : Nat) : Bench.operandOffset offset length =
    match offset.toNat?.filter (· + 4 ≤ length) with
    | some k => .ok k
    | none => .error (.place offset length) := by
  unfold Bench.operandOffset
  cases offset.toNat? with
  | none => rfl
  | some k =>
    simp only [Option.filter_some, decide_eq_true_eq]
    split <;> rfl

end Sheet

namespace Bench

variable {b : Bench} {s : Sheet} {codes copies : List (List UInt8)}

def owners (b : Bench) : List Nat := b.block :: (b.codes ++ b.copies)

/-- What was taken from a builder stands in blocks that nobody else knows. -/
structure Keeps (b : Bench) (codes copies : List (List UInt8)) : Prop where
  codes : b.codes.map b.storage.contents = codes
  copies : b.copies.map b.storage.contents = copies
  apart : b.storage.Apart b.owners

/-- A builder in storage shows a sheet. Its block may go on behind the bytes of the sheet. -/
structure Shows (b : Bench) (s : Sheet) : Prop where
  size : b.size = s.bytes.length
  bytes : s.bytes <+: b.storage.contents b.block
  keeps : b.Keeps s.codes s.copies

theorem Keeps.stored (keeps : b.Keeps codes copies) : b.block < b.storage.blocks.size :=
  keeps.apart.stored _ List.mem_cons_self

theorem Keeps.apart_taken (keeps : b.Keeps codes copies) : b.storage.Apart (b.codes ++ b.copies) :=
  keeps.apart.sublist (List.sublist_cons_self _ _)

theorem Keeps.map_allocate (keeps : b.Keeps codes copies) (bytes : Array UInt8) :
    b.codes.map (b.storage.allocate bytes).2.contents = codes ∧
      b.copies.map (b.storage.allocate bytes).2.contents = copies :=
  ⟨(keeps.apart_taken.sublist (List.sublist_append_left _ _)).map_contents_allocate.trans keeps.codes,
    (keeps.apart_taken.sublist (List.sublist_append_right _ _)).map_contents_allocate.trans keeps.copies⟩

theorem Keeps.changedAt_block {storage : Storage} (keeps : b.Keeps codes copies)
    (changed : Storage.ChangedAt b.block b.storage storage) :
    Keeps { b with storage } codes copies where
  codes := by
    have free := (List.nodup_cons.mp keeps.apart.nodup).1
    rw [changed.map_contents fun code => free (List.mem_append_left _ code), keeps.codes]
  copies := by
    have free := (List.nodup_cons.mp keeps.apart.nodup).1
    rw [changed.map_contents fun copy => free (List.mem_append_right _ copy), keeps.copies]
  apart := keeps.apart.changedAt changed

theorem Shows.take_held (shown : b.Shows s) : b.held.toList.take b.size = s.bytes := by
  rw [shown.size]
  exact (List.prefix_iff_eq_take.mp shown.bytes).symm

theorem Shows.view (shown : b.Shows s) : b.view = s.view := by
  rw [Bench.view, Sheet.view, shown.take_held, shown.size, shown.keeps.codes, shown.keeps.copies]

theorem shows_ofCapacity (capacity : Nat) : (ofCapacity capacity).Shows Sheet.blank where
  size := rfl
  bytes := List.nil_prefix
  keeps := ⟨rfl, rfl, List.nodup_singleton 0, fun i member => by
    rw [List.mem_singleton.mp member]
    exact Nat.one_pos⟩

theorem Shows.grown (shown : b.Shows s) {needed : Nat} (enough : s.bytes.length ≤ needed) :
    s.bytes <+: (b.grown needed).toList ∧ needed ≤ (b.grown needed).toList.length := by
  have large := le_doubledTo needed (max b.held.size 16) (by omega)
  have room : 0 + s.bytes.length ≤
      (Array.replicate (doubledTo needed (max b.held.size 16) (by omega)) (0 : UInt8)).toList.length := by
    rw [Array.toList_replicate, List.length_replicate]
    omega
  rw [Bench.grown, shown.take_held, toList_overwriteFrom_eq room, List.take_zero, List.nil_append]
  refine ⟨List.prefix_append _ _, ?_⟩
  rw [List.length_append, List.length_drop, Array.toList_replicate, List.length_replicate]
  omega

theorem Shows.withRoom (shown : b.Shows s) {needed : Nat} (enough : s.bytes.length ≤ needed) :
    (b.withRoom needed).Shows s ∧ needed ≤ (b.withRoom needed).held.size := by
  unfold Bench.withRoom
  by_cases short : b.held.size < needed
  · rw [if_pos short]
    obtain ⟨begins, large⟩ := shown.grown enough
    have held := Storage.contents_allocate b.storage (b.grown needed)
    have apart := shown.keeps.apart_taken.allocate (b.grown needed)
    obtain ⟨codes, copies⟩ := shown.keeps.map_allocate (b.grown needed)
    have room : needed ≤
        ((b.storage.allocate (b.grown needed)).2.contents b.storage.blocks.size).length :=
      held ▸ large
    -- The old block is left behind, so only what was taken has to be apart from the new one.
    exact ⟨⟨shown.size, held ▸ begins, codes, copies, apart⟩, room⟩
  · rw [if_neg short]
    exact ⟨shown, Nat.le_of_not_lt short⟩

theorem exists_put {offset : Nat} {new : List UInt8} (keeps : b.Keeps codes copies)
    (inside : offset + new.length ≤ (b.storage.contents b.block).length) :
    ∃ storage, put offset new b = .ok () { b with storage } ∧
      Keeps { b with storage } codes copies ∧
      storage.contents b.block = (b.storage.contents b.block).take offset ++ new ++
        (b.storage.contents b.block).drop (offset + new.length) := by
  obtain ⟨storage, done, changed, replaced⟩ := Storage.exists_write keeps.stored inside
  refine ⟨storage, ?_, keeps.changedAt_block changed, replaced⟩
  unfold put
  rw [done]

theorem Shows.emit (shown : b.Shows s) (new : List UInt8) :
    ∃ b', Bench.emit new b = .ok s.bytes.length b' ∧ b'.Shows { s with bytes := s.bytes ++ new } := by
  obtain ⟨roomy, room⟩ := shown.withRoom (Nat.le_add_right s.bytes.length new.length)
  obtain ⟨spare, held⟩ := roomy.bytes
  set r := b.withRoom (s.bytes.length + new.length) with same
  -- Between claiming bytes and putting them there, no sheet is shown; what was taken is kept.
  let claimed : Bench := { r with size := s.bytes.length + new.length }
  have reserved : reserve new.length b = .ok s.bytes.length claimed := by
    change EStateM.Result.ok b.size { b.withRoom (b.size + new.length) with
      size := b.size + new.length } = _
    rw [shown.size, ← same]
  have keeps : claimed.Keeps s.codes s.copies :=
    ⟨roomy.keeps.codes, roomy.keeps.copies, roomy.keeps.apart⟩
  obtain ⟨storage, done, keeps', written⟩ := exists_put keeps room
  refine ⟨{ claimed with storage }, ?_, List.length_append.symm, ?_, keeps'⟩
  · unfold Bench.emit
    rw [bind_of_ok reserved, bind_of_ok done]
    rfl
  · have front : (r.storage.contents r.block).take s.bytes.length = s.bytes := by
      rw [← held, List.take_left]
    exact ⟨_, (written.trans (by rw [front])).symm⟩

theorem Shows.put (shown : b.Shows s) {k : Nat} {new : List UInt8}
    (inside : k + new.length ≤ s.bytes.length) :
    ∃ b', Bench.put k new b = .ok () b' ∧
      b'.Shows { s with bytes := s.bytes.take k ++ new ++ s.bytes.drop (k + new.length) } := by
  obtain ⟨spare, held⟩ := shown.bytes
  have room : k + new.length ≤ (b.storage.contents b.block).length :=
    Nat.le_trans inside (held ▸ List.length_append ▸ Nat.le_add_right _ _)
  obtain ⟨storage, done, keeps, written⟩ := exists_put shown.keeps room
  rw [← held, List.take_append_of_le_length (by omega), List.drop_append_of_le_length inside,
    ← List.append_assoc] at written
  refine ⟨{ b with storage }, done, ?_, ⟨spare, written.symm⟩, keeps⟩
  simp only [List.length_append, List.length_take, List.length_drop, shown.size]
  omega

theorem checked_of_ok {α : Type} {r : Except OperandFault α} {a : α} (h : r = .ok a) :
    checked r b = .ok a b := by
  rw [h]
  rfl

theorem checked_of_error {α : Type} {r : Except OperandFault α} {e : OperandFault}
    (h : r = .error e) : checked r b = .error (.operand e) b := by
  rw [h]
  rfl

theorem patchCount_eq {value : Number} {bytes : List UInt8} (offset : Number)
    (counted : Builder.countBytes value = .ok bytes) : patchCount offset value b =
      (checked (operandOffset offset b.size) >>= fun k => Bench.put k bytes) b :=
  (bind_of_ok (checked_of_ok counted)).trans (bind_of_ok (x := get) rfl)

/-- A write in storage does what it does to a list of bytes, and one that is refused changes
nothing at all. -/
theorem Shows.write (shown : b.Shows s) (w : Write) :
    match Sheet.written s.bytes w with
    | .ok (offset, bytes) => ∃ b', Bench.write w b = .ok offset b' ∧ b'.Shows { s with bytes }
    | .error e => Bench.write w b = .error (.operand e) b := by
  cases w with
  | op code =>
    obtain ⟨b', done, shown'⟩ := shown.emit (LittleEndian.encode 1 code)
    exact ⟨b', map_of_ok done, shown'⟩
  | count value =>
    simp only [Sheet.written]
    have counted := Sheet.countBytes_eq value
    cases natural : Sheet.count? value with
    | none =>
      rw [natural] at counted
      exact bind_of_error (checked_of_error counted)
    | some n =>
      rw [natural] at counted
      obtain ⟨b', done, shown'⟩ := shown.emit (LittleEndian.encode 4 n)
      exact ⟨b', (bind_of_ok (checked_of_ok counted)).trans (bind_of_ok done), shown'⟩
  | number value =>
    simp only [Sheet.written]
    have signed := Sheet.numberBytes_eq value
    by_cases fits : -Sheet.numberBound ≤ value ∧ value < Sheet.numberBound
    · obtain ⟨b', done, shown'⟩ := shown.emit (LittleEndian.encodeInt 8 value)
      rw [if_pos fits] at signed ⊢
      exact ⟨b', (bind_of_ok (checked_of_ok signed)).trans (bind_of_ok done), shown'⟩
    · rw [if_neg fits] at signed ⊢
      exact bind_of_error (checked_of_error signed)
  | patch offset value =>
    simp only [Sheet.written]
    have counted := Sheet.countBytes_eq value
    have place := Sheet.operandOffset_eq offset s.bytes.length
    cases natural : Sheet.count? value with
    | none =>
      rw [natural] at counted
      exact bind_of_error (bind_of_error (checked_of_error counted))
    | some n =>
      rw [natural] at counted
      have patched := patchCount_eq (b := b) offset counted
      rw [shown.size] at patched
      cases inside : offset.toNat?.filter (· + 4 ≤ s.bytes.length) with
      | none =>
        rw [inside] at place
        exact bind_of_error (patched.trans (bind_of_error (checked_of_error place)))
      | some k =>
        rw [inside] at place
        have fits : k + 4 ≤ s.bytes.length := by simpa using (Option.filter_eq_some_iff.mp inside).2
        rw [← LittleEndian.length_encode 4 n] at fits
        obtain ⟨b', done, shown'⟩ := shown.put fits
        rw [LittleEndian.length_encode] at shown'
        have put := patched.trans ((bind_of_ok (checked_of_ok place)).trans done)
        exact ⟨b', bind_of_ok put, shown'⟩

theorem Keeps.addCode (keeps : b.Keeps codes copies) (bytes : Array UInt8) :
    Keeps { b with storage := (b.storage.allocate bytes).2, codes := b.codes ++ [b.storage.blocks.size] }
      (codes ++ [bytes.toList]) copies where
  codes := by
    rw [List.map_append, (keeps.map_allocate bytes).1, List.map_singleton, Storage.contents_allocate]
  copies := (keeps.map_allocate bytes).2
  apart := by
    refine (keeps.apart.allocate bytes).perm ?_
    change List.Perm _ (b.block :: (b.codes ++ [b.storage.blocks.size] ++ b.copies))
    rw [List.append_assoc, List.singleton_append]
    exact (List.Perm.swap _ _ _).trans (List.perm_middle.symm.cons _)

theorem Keeps.addCopy (keeps : b.Keeps codes copies) (bytes : Array UInt8) :
    Keeps { b with storage := (b.storage.allocate bytes).2, copies := b.copies ++ [b.storage.blocks.size] }
      codes (copies ++ [bytes.toList]) where
  codes := (keeps.map_allocate bytes).1
  copies := by
    rw [List.map_append, (keeps.map_allocate bytes).2, List.map_singleton, Storage.contents_allocate]
  apart := by
    refine (keeps.apart.allocate bytes).perm ?_
    change List.Perm _ (b.block :: (b.codes ++ (b.copies ++ [b.storage.blocks.size])))
    rw [← List.append_assoc, ← List.cons_append]
    exact (List.perm_append_singleton _ _).symm

theorem Shows.perform_take (shown : b.Shows s) :
    (b.perform .take).1 = (s.perform .take).1 ∧ (b.perform .take).2.Shows (s.perform .take).2 := by
  have bytes : (b.held.extract 0 b.size).toList = s.bytes := by
    rw [← shown.take_held]
    simp
  have codes := shown.keeps.addCode (b.held.extract 0 b.size)
  rw [bytes] at codes
  refine ⟨?_, shown.size, ?_, codes⟩
  · rw [Bench.perform, Sheet.perform, ← shown.keeps.codes, List.length_map]
  · exact (Storage.contents_allocate_of_lt shown.keeps.stored).symm ▸ shown.bytes

theorem Shows.perform_copy (shown : b.Shows s) (code : Nat) :
    (b.perform (.copy code)).1 = (s.perform (.copy code)).1 ∧
      (b.perform (.copy code)).2.Shows (s.perform (.copy code)).2 := by
  have known : s.codes[code]? = b.codes[code]?.map b.storage.contents := by
    rw [← shown.keeps.codes, List.getElem?_map]
  rw [Bench.perform, Sheet.perform, known]
  cases b.codes[code]? with
  | none => exact ⟨rfl, shown⟩
  | some i =>
    refine ⟨?_, shown.size, ?_, shown.keeps.addCopy (b.storage.block i)⟩
    · simp only [Option.map_some, ← shown.keeps.copies, List.length_map]
    · exact (Storage.contents_allocate_of_lt shown.keeps.stored).symm ▸ shown.bytes

theorem Shows.perform_scribble (shown : b.Shows s) (copy offset : Nat) (byte : UInt8) :
    (b.perform (.scribble copy offset byte)).1 = (s.perform (.scribble copy offset byte)).1 ∧
      (b.perform (.scribble copy offset byte)).2.Shows (s.perform (.scribble copy offset byte)).2 := by
  have count : s.copies.length = b.copies.length := by
    rw [← shown.keeps.copies, List.length_map]
  rw [Bench.perform, Sheet.perform, count]
  cases found : b.copies[copy]? with
  | none =>
    rw [if_neg (Nat.not_lt.mpr (List.getElem?_eq_none_iff.mp found))]
    exact ⟨rfl, shown⟩
  | some i =>
    obtain ⟨inside, -⟩ := List.getElem?_eq_some_iff.mp found
    have member : i ∈ b.copies := List.mem_of_getElem? found
    have apart := shown.keeps.apart
    obtain ⟨others, nodup⟩ := List.nodup_cons.mp apart.nodup
    obtain ⟨-, copies, disjoint⟩ := List.nodup_append'.mp nodup
    have stored := apart.stored i (List.mem_cons_of_mem _ (List.mem_append_right _ member))
    obtain ⟨changed, set⟩ := Storage.changedAt_set stored offset byte
    have elsewhere : b.block ≠ i := fun same => others (same ▸ List.mem_append_right _ member)
    rw [if_pos inside]
    refine ⟨rfl, shown.size, changed.others _ elsewhere ▸ shown.bytes, ?_, ?_, apart.changedAt changed⟩
    · rw [changed.map_contents fun code => disjoint code member, shown.keeps.codes]
    · rw [changed.map_contents_modify copies found (f := (·.set offset byte)) set, shown.keeps.copies]

/-- A request is answered as from lists of bytes. -/
theorem Shows.perform (shown : b.Shows s) (r : Request) :
    (b.perform r).1 = (s.perform r).1 ∧ (b.perform r).2.Shows (s.perform r).2 := by
  cases r with
  | write w =>
    have step := shown.write w
    rw [Bench.perform, Sheet.perform]
    cases done : Sheet.written s.bytes w with
    | error e =>
      rw [done] at step
      rw [step]
      exact ⟨rfl, shown⟩
    | ok whole =>
      rw [done] at step
      obtain ⟨b', ended, shown'⟩ := step
      rw [ended]
      exact ⟨rfl, shown'⟩
  | take => exact shown.perform_take
  | copy code => exact shown.perform_copy code
  | scribble copy offset byte => exact shown.perform_scribble copy offset byte

theorem Shows.session (shown : b.Shows s) (requests : List Request) :
    session Bench.perform Bench.view b requests = Tally.session Sheet.perform Sheet.view s requests := by
  induction requests generalizing b s with
  | nil => rfl
  | cons r rs ih =>
    obtain ⟨reply, shown'⟩ := shown.perform r
    simp only [Tally.session]
    rw [reply, shown'.view, ih shown']

theorem Shows.foldl (shown : b.Shows s) (requests : List Request) :
    Shows (requests.foldl (fun b r => (b.perform r).2) b)
      (requests.foldl (fun s r => (s.perform r).2) s) := by
  induction requests generalizing b s with
  | nil => exact shown
  | cons r rs ih => exact ih (shown.perform r).2

/-- Only an operand or an offset makes a request fail, and then nothing is changed, not even room is
made. -/
theorem Shows.unchanged (shown : b.Shows s) {r : Request} {e : StorageFault}
    (failed : (b.perform r).1 = .failed e) : (b.perform r).2 = b ∧ ∃ e', e = .operand e' := by
  cases r with
  | write w =>
    have step := shown.write w
    rw [Bench.perform] at failed ⊢
    cases done : Sheet.written s.bytes w with
    | error e' =>
      rw [done] at step
      rw [step] at failed ⊢
      cases failed
      exact ⟨rfl, e', rfl⟩
    | ok whole =>
      rw [done] at step
      obtain ⟨b', ended, -⟩ := step
      rw [ended] at failed
      cases failed
  | take => cases failed
  | copy code =>
    rw [Bench.perform] at failed
    cases known : b.codes[code]? <;> rw [known] at failed <;> cases failed
  | scribble copy offset byte =>
    rw [Bench.perform] at failed
    cases known : b.copies[copy]? <;> rw [known] at failed <;> cases failed

end Bench

namespace Builder

theorem patchCount_eq (b : Builder) (offset value : Number) : b.patchCount offset value =
    (Builder.countBytes value >>= fun bytes =>
      (fun k => b.overwrite k bytes) <$> Bench.operandOffset offset b.bytes.toList.length) := rfl

theorem write_eq_written (b : Builder) (w : Write) :
    (fun r : Option Nat × Builder => (r.1, r.2.bytes.toList)) <$> b.write w =
      Sheet.written b.bytes.toList w := by
  cases w with
  | op code => simp [Builder.write, emitOp, emit, Builder.offset, Sheet.written]
  | count value =>
    rw [Builder.write, emitCount, Sheet.countBytes_eq, Sheet.written]
    cases Sheet.count? value <;> simp [emit, Builder.offset]
  | number value =>
    rw [Builder.write, emitNumber, Sheet.numberBytes_eq, Sheet.written]
    split <;> simp [emit, Builder.offset]
  | patch offset value =>
    rw [Builder.write, patchCount_eq, Sheet.countBytes_eq, Sheet.operandOffset_eq, Sheet.written]
    cases Sheet.count? value with
    | none => rfl
    | some n =>
      cases inside : offset.toNat?.filter (· + 4 ≤ b.bytes.toList.length) with
      | none => rfl
      | some k =>
        have fits : k + 4 ≤ b.bytes.toList.length := by
          simpa using (Option.filter_eq_some_iff.mp inside).2
        rw [← LittleEndian.length_encode 4 n] at fits
        have replaced := toList_overwriteFrom_eq fits
        rw [LittleEndian.length_encode] at replaced
        exact congrArg (fun bytes => Except.ok (none, bytes)) replaced

end Builder

namespace Bench

/-- Whatever the capacity, a builder replies and shows what a list of bytes does: nothing else tells
how its bytes are kept. A request that fails leaves it as it is. -/
theorem session_eq_sheet (capacity : Nat) (requests : List Request) :
    (capacity ≤ Builder.greatestCapacity → withCapacity capacity = .ok (ofCapacity capacity)) ∧
      (ofCapacity capacity).view = Sheet.blank.view ∧
      session Bench.perform Bench.view (ofCapacity capacity) requests =
        session Sheet.perform Sheet.view Sheet.blank requests ∧
      (∀ r e, let b := requests.foldl (fun b r => (b.perform r).2) (ofCapacity capacity)
        (b.perform r).1 = .failed e → (b.perform r).2 = b ∧ ∃ e', e = .operand e') ∧
      ∀ (b : Builder) (w : Write), (fun r => (r.1, r.2.bytes.toList)) <$> b.write w =
        Sheet.written b.bytes.toList w := by
  have shown := shows_ofCapacity capacity
  refine ⟨fun small => ?_, shown.view, shown.session requests,
    fun r e failed => (shown.foldl requests).unchanged failed, Builder.write_eq_written⟩
  have whole : Number.whole capacity = capacity := by simp [Number.whole]
  unfold withCapacity
  rw [whole, if_pos ⟨Int.natCast_nonneg capacity, small⟩, Int.toNat_natCast]

example : session Bench.perform Bench.view (ofCapacity 2)
    [.write (.op 4), .write (.count 7), .take, .write (.patch 2 1), .write (.patch 1 9)] =
    [(.wrote (some 0), ⟨1, [4], [], []⟩),
      (.wrote (some 1), ⟨5, [4, 7, 0, 0, 0], [], []⟩),
      (.taken 0, ⟨5, [4, 7, 0, 0, 0], [[4, 7, 0, 0, 0]], []⟩),
      (.failed (.operand (.place 2 5)), ⟨5, [4, 7, 0, 0, 0], [[4, 7, 0, 0, 0]], []⟩),
      (.wrote none, ⟨5, [4, 9, 0, 0, 0], [[4, 7, 0, 0, 0]], []⟩)] :=
  ((shows_ofCapacity 2).session _).trans (by decide +kernel)

end Bench

end Tally
