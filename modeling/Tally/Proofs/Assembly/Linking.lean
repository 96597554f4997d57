import Tally.Proofs.Assembly.Sketch

namespace Tally

/-- The result of an act that leads to a sketch and makes sure of `post`. A number that is refused
is one that was mentioned. -/
def Yields {α : Type} (mentioned : Nat → Prop) (r : EStateM.Result LabelFault Linker α) (s : Sketch)
    (post : Prop) : Prop :=
  (∃ a k, r = .ok a k ∧ k.Shows s ∧ post) ∨
    ∃ (v : Nat) (k : Linker), r = .error (.operand (.count v)) k ∧ LittleEndian.modulus 4 ≤ v ∧
      mentioned v

section

variable {mentioned : Nat → Prop}

theorem Yields.bind {α β : Type} {x : Linking α} {f : α → Linking β} {k : Linker} {s s' : Sketch}
    {p q : Prop} (first : Yields mentioned (x k) s p)
    (rest : ∀ a k', k'.Shows s → p → Yields mentioned (f a k') s' q) :
    Yields mentioned ((x >>= f) k) s' q := by
  rcases first with ⟨a, k', done, shows', post⟩ | ⟨v, k', failed, large⟩
  · rw [bind_of_ok done]
    exact rest a k' shows' post
  · right
    exact ⟨v, k', bind_of_error failed, large⟩

theorem Yields.ok {α : Type} {a : α} {k : Linker} {s : Sketch} {p : Prop} (shows' : k.Shows s)
    (post : p) : Yields mentioned (.ok a k) s p := Or.inl ⟨a, k, rfl, shows', post⟩

end

namespace Linker.Shows

variable {k : Linker} {s : Sketch}

theorem offset (shown : k.Shows s) : k.builder.offset = s.size := by
  rw [Builder.offset, ← Array.length_toList, shown.bytes, Sketch.bytes, length_renderAll]
  rfl

theorem state (shown : k.Shows s) {l : Label} (known : l < s.labels) :
    k.labels.state l = .ok (s.state l) := by
  unfold LabelTable.state
  rw [shown.states l known]

end Linker.Shows

theorem Sketch.state_add (s : Sketch) (p : Piece) (l : Label) :
    (s.add p).state l = if p = .label l then (s.state l).addSlot s.size else s.state l := by
  have offset : 0 + sizeOfPieces s.pieces = s.size := Nat.zero_add _
  unfold Sketch.state
  simp only [Sketch.add]
  cases s.places l with
  | some a => simp [LabelState.addSlot]
  | none =>
    rw [slots_append, slots, slots, offset]
    by_cases isSlot : p = .label l
    · simp [isSlot, LabelState.addSlot]
    · simp [isSlot]

theorem Sketch.bytes_add (s : Sketch) (p : Piece) :
    (s.add p).bytes = s.bytes ++ p.render s.value := by
  have same : (s.add p).value = s.value := rfl
  rw [Sketch.bytes, same, Sketch.add, renderAll_append]
  simp [renderAll, Sketch.bytes]

theorem Sketch.places_place_self (s : Sketch) (l : Label) : (s.place l).places l = some s.size :=
  Function.update_self l _ _

theorem Sketch.places_place_of_ne (s : Sketch) {l l' : Label} (other : l' ≠ l) :
    (s.place l).places l' = s.places l' :=
  Function.update_of_ne other _ _

theorem Sketch.value_place (s : Sketch) (l : Label) :
    (s.place l).value = Function.update s.value l s.size := by
  funext l'
  unfold Sketch.value
  by_cases same : l' = l
  · subst same
    rw [s.places_place_self, Function.update_self]
    rfl
  · rw [s.places_place_of_ne same, Function.update_of_ne same]

theorem Sketch.state_place (s : Sketch) (l l' : Label) :
    (s.place l).state l' = if l = l' then .placed s.size else s.state l' := by
  unfold Sketch.state
  by_cases same : l = l'
  · subst same
    rw [s.places_place_self, if_pos rfl]
  · have other : l' ≠ l := fun h => same h.symm
    rw [s.places_place_of_ne other, if_neg same]
    rfl

namespace Linking

variable {mentioned : Nat → Prop} {k : Linker} {s : Sketch}

theorem states_setPlaced (shown : k.Shows s) (l : Label) (l' : Label)
    (known : l' < (s.place l).labels) :
    (k.labels.setPlaced l s.size).states[l']? = some ((s.place l).state l') := by
  have bound : l' < k.labels.states.size := by rw [shown.labels]; exact known
  rw [LabelTable.setPlaced, Array.getElem?_setIfInBounds, Sketch.state_place]
  by_cases same : l = l'
  · subst same
    rw [if_pos rfl, if_pos bound, if_pos rfl]
  · rw [if_neg same, if_neg same]
    exact shown.states l' known

theorem shows_add_bytes (shown : k.Shows s) (bs : List UInt8) :
    Linker.Shows ⟨k.labels, ⟨k.builder.bytes ++ bs⟩⟩ (s.add (.bytes bs)) where
  bytes := by
    rw [Sketch.bytes_add, ← shown.bytes, Piece.render]
    simp
  labels := shown.labels
  states l known := by
    rw [Sketch.state_add, if_neg (by simp)]
    exact shown.states l known
  small l a used placed := by
    refine shown.small l a ?_ placed
    simpa [Sketch.add] using used

theorem emitOp_yields (shown : k.Shows s) (code : Nat) :
    Yields mentioned (emitOp code k) (s.add (.bytes (LittleEndian.encode 1 code))) True :=
  Yields.ok (shows_add_bytes shown _) trivial

theorem emitCount_yields (shown : k.Shows s) {n : Nat} (mentions : mentioned n) :
    Yields mentioned (emitCount n k) (s.add (.bytes (LittleEndian.encode 4 n)))
      (n < LittleEndian.modulus 4) := by
  by_cases small : n < LittleEndian.modulus 4
  · rw [emitCount, countBytes_of_lt small]
    exact Yields.ok (shows_add_bytes shown _) small
  · have large : LittleEndian.modulus 4 ≤ n := by omega
    rw [emitCount, countBytes_of_ge large]
    right
    exact ⟨n, k, rfl, large, mentions⟩

theorem emitNumber_yields (shown : k.Shows s) {z : Int} (fits : z.bmod (LittleEndian.modulus 8) = z) :
    Yields mentioned (emitNumber z k) (s.add (.bytes (LittleEndian.encodeInt 8 z))) True := by
  rw [emitNumber, Builder.numberBytes, if_pos fits]
  exact Yields.ok (shows_add_bytes shown _) trivial

theorem shows_reference_placed (shown : k.Shows s) {l : Label} {a : Nat}
    (placed : s.places l = some a) (small : a < LittleEndian.modulus 4) :
    Linker.Shows ⟨k.labels, ⟨k.builder.bytes ++ LittleEndian.encode 4 a⟩⟩ (s.add (.label l)) where
  bytes := by
    have value : s.value l = a := by rw [Sketch.value, placed]; rfl
    rw [Sketch.bytes_add, ← shown.bytes, Piece.render, value]
    simp
  labels := shown.labels
  states l' known := by
    rw [Sketch.state_add, shown.states l' known]
    by_cases same : Piece.label l = .label l'
    · cases same
      rw [if_pos rfl, Sketch.state, placed]
      rfl
    · rw [if_neg same]
  small l' a' used placed' := by
    have cases : .label l' ∈ s.pieces ∨ l' = l := by simpa [Sketch.add] using used
    rcases cases with old | rfl
    · exact shown.small l' a' old placed'
    · have same : a' = a := Option.some.inj (placed'.symm.trans placed)
      rw [same]
      exact small

theorem shows_reference_waiting (shown : k.Shows s) {l : Label} (waiting : s.places l = none) :
    Linker.Shows ⟨k.labels.addSlot l s.size, ⟨k.builder.bytes ++ LittleEndian.encode 4 0⟩⟩
      (s.add (.label l)) where
  bytes := by
    have value : s.value l = 0 := by rw [Sketch.value, waiting]; rfl
    rw [Sketch.bytes_add, ← shown.bytes, Piece.render, value]
    simp
  labels := by
    rw [LabelTable.addSlot, Array.size_modify]
    exact shown.labels
  states l' known := by
    rw [Sketch.state_add, LabelTable.addSlot, Array.getElem?_modify, shown.states l' known]
    by_cases same : l = l'
    · rw [if_pos same, if_pos (by rw [same])]
      rfl
    · rw [if_neg same, if_neg (by simpa using same)]
  small l' a' used placed := by
    have cases : .label l' ∈ s.pieces ∨ l' = l := by simpa [Sketch.add] using used
    rcases cases with old | rfl
    · exact shown.small l' a' old placed
    · cases waiting.symm.trans placed

theorem reference_yields (shown : k.Shows s) {l : Label} (known : l < s.labels)
    (mentions : ∀ a, s.places l = some a → mentioned a) :
    Yields mentioned (reference l k) (s.add (.label l)) True := by
  have state := shown.state known
  cases placed : s.places l with
  | some a =>
    have act : reference l k = (emitCount a >>= fun _ => pure ()) k := by
      rw [Sketch.state, placed] at state
      change (ofExcept (k.labels.state l) >>= _) k = _
      rw [state]
      rfl
    rw [act]
    by_cases small : a < LittleEndian.modulus 4
    · rw [emitCount, countBytes_of_lt small]
      exact Yields.ok (shows_reference_placed shown placed small) trivial
    · have large : LittleEndian.modulus 4 ≤ a := by omega
      rw [emitCount, countBytes_of_ge large]
      right
      exact ⟨a, k, rfl, large, mentions a placed⟩
  | none =>
    have act : reference l k = (emitCount (0 : Nat) >>= addSlot l) k := by
      rw [Sketch.state, placed] at state
      change (ofExcept (k.labels.state l) >>= _) k = _
      rw [state]
      rfl
    rw [act, emitCount, countBytes_of_lt (by decide)]
    have shown' := shows_reference_waiting shown placed
    rw [← shown.offset] at shown'
    exact Yields.ok shown' trivial

theorem shows_place_unused (shown : k.Shows s) {l : Label}
    (unused : .label l ∉ s.pieces) :
    Linker.Shows ⟨k.labels.setPlaced l s.size, k.builder⟩ (s.place l) where
  bytes := by
    rw [Sketch.bytes, Sketch.value_place, Sketch.place, renderAll_update_of_notMem _ _ _ unused]
    exact shown.bytes
  labels := by
    rw [LabelTable.setPlaced, Array.size_setIfInBounds]
    exact shown.labels
  states := states_setPlaced shown l
  small l' a used placed := by
    have other : l' ≠ l := fun h => unused (by rwa [← h])
    rw [s.places_place_of_ne other] at placed
    exact shown.small l' a used placed

theorem shows_place_used (shown : k.Shows s) {l : Label} {builder : Builder}
    (small : s.size < LittleEndian.modulus 4)
    (bytes : builder.bytes.toList = renderAll (Function.update s.value l s.size) s.pieces) :
    Linker.Shows ⟨k.labels.setPlaced l s.size, builder⟩ (s.place l) where
  bytes := by
    rw [Sketch.bytes, Sketch.value_place, Sketch.place]
    exact bytes
  labels := by
    rw [LabelTable.setPlaced, Array.size_setIfInBounds]
    exact shown.labels
  states := states_setPlaced shown l
  small l' a used placed := by
    by_cases same : l' = l
    · subst same
      rw [s.places_place_self] at placed
      cases placed
      exact small
    · rw [s.places_place_of_ne same] at placed
      exact shown.small l' a used placed

theorem place_yields (shown : k.Shows s) {l : Label} (known : l < s.labels)
    (fresh : s.places l = none) (mentions : mentioned s.size) :
    Yields mentioned (place l k) (s.place l) True := by
  have state := shown.state known
  rw [Sketch.state, fresh] at state
  have act : place l k = (((slots l 0 s.pieces).forM fun slot => patch slot s.size) >>= fun _ =>
      setPlaced l s.size >>= fun _ => pure s.size) k := by
    change (ofExcept (k.labels.state l) >>= _) k = _
    rw [state, ← shown.offset]
    rfl
  rw [act]
  by_cases used : .label l ∈ s.pieces
  · by_cases small : s.size < LittleEndian.modulus 4
    · obtain ⟨builder, done, bytes⟩ :=
        patch_slots (l := l) small k.labels s.value s.pieces [] k.builder shown.bytes
      rw [List.length_nil] at done
      rw [bind_of_ok done]
      exact Yields.ok (shows_place_used shown small bytes) trivial
    · have large : LittleEndian.modulus 4 ≤ s.size := by omega
      obtain ⟨slot, rest, nonempty⟩ := List.exists_cons_of_ne_nil (slots_ne_nil 0 used)
      have refused : patch slot s.size k = .error (.operand (.count s.size)) k := by
        simp only [patch, countBytes_of_ge large]
      rw [nonempty, forM_cons, bind_of_error (bind_of_error refused)]
      right
      exact ⟨s.size, k, rfl, large, mentions⟩
  · rw [slots_eq_nil 0 used]
    exact Yields.ok (shows_place_unused shown used) trivial

end Linking

end Tally
