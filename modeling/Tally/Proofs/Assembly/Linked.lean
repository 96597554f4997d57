import Tally.Proofs.Assembly.Layout

namespace Tally

structure Assembly.WellLabelled (a : Assembly) : Prop where
  nodup : (labelsOf a.lines.toList).Nodup
  known : ∀ l ∈ labelsOf a.lines.toList, l < a.labels
  targets : ∀ i l, .instr i ∈ a.lines.toList → i.target? = some l → l ∈ labelsOf a.lines.toList
  entries : ∀ f ∈ a.functions, f.entry ∈ labelsOf a.lines.toList
  numbers : ∀ z, .instr (.pushInt z) ∈ a.lines.toList → z.bmod (LittleEndian.modulus 8) = z

structure Assembly.LinkedTo (a : Assembly) (addr : Label → Nat) (c : Code) : Prop where
  holds : c.Holds addr 0 a.lines.toList
  length : c.length = sizeOfLines a.lines.toList
  functions : c.functions = a.functions.map fun f => ⟨f.name, addr f.entry, f.arity⟩
  natives : c.natives = a.natives

/-- What an operand that was written is known to satisfy. -/
def Operand.Written : Operand Label → Prop
  | .count n => n < LittleEndian.modulus 4
  | _ => True

def Instr.Written (i : Instr Label) : Prop := ∀ o ∈ i.operands, o.Written

/-- A number that linking may write and may find too large: an address or a count. -/
def Assembly.Mentions (a : Assembly) (v : Nat) : Prop :=
  v ≤ sizeOfLines a.lines.toList ∨ ∃ i, .instr i ∈ a.lines.toList ∧ .count v ∈ i.operands

namespace Linking

variable {mentioned : Nat → Prop}

theorem operand_yields {k : Linker} {s : Sketch} (shown : k.Shows s) (o : Operand Label)
    (known : ∀ l, o = .address l → l < s.labels)
    (number : ∀ z, o = .number z → z.bmod (LittleEndian.modulus 8) = z)
    (addresses : ∀ l a, s.places l = some a → mentioned a)
    (count : ∀ n : Nat, o = .count n → mentioned n) :
    Yields mentioned (operand o k) (s.add o.piece) o.Written := by
  cases o with
  | address l => exact reference_yields shown (known l rfl) (addresses l)
  | count n =>
    apply (emitCount_yields shown (count n rfl)).bind
    intro _ k' shown' small
    exact Yields.ok shown' small
  | number z =>
    apply (emitNumber_yields shown (number z rfl)).bind
    intro _ k' shown' _
    exact Yields.ok shown' trivial

theorem operands_yields (os : List (Operand Label)) {k : Linker} {s : Sketch} (shown : k.Shows s)
    (known : ∀ l, .address l ∈ os → l < s.labels)
    (numbers : ∀ z, .number z ∈ os → z.bmod (LittleEndian.modulus 8) = z)
    (addresses : ∀ l a, s.places l = some a → mentioned a)
    (counts : ∀ n : Nat, .count n ∈ os → mentioned n) :
    Yields mentioned (os.forM operand k) ((os.map Operand.piece).foldl Sketch.add s)
      (∀ o ∈ os, o.Written) := by
  induction os generalizing k s with
  | nil => exact Yields.ok shown (by simp)
  | cons o os ih =>
    rw [forM_cons]
    apply (operand_yields shown o (fun l h => known l (by simp [h]))
      (fun z h => numbers z (by simp [h])) addresses (fun n h => counts n (by simp [h]))).bind
    intro _ k' shown' written
    rcases ih shown' (fun l h => known l (by simp [h])) (fun z h => numbers z (by simp [h]))
      addresses (fun n h => counts n (by simp [h])) with ⟨u, k'', done, shown'', all⟩ | failed
    · refine Or.inl ⟨u, k'', done, shown'', ?_⟩
      intro o' member
      rcases List.mem_cons.mp member with rfl | member
      · exact written
      · exact all o' member
    · exact Or.inr failed

theorem line_yields {k : Linker} {s : Sketch} (shown : k.Shows s) (ln : Line)
    (fresh : ∀ l, ln = .label l → s.places l = none)
    (known : ∀ l, ln = .label l → l < s.labels)
    (targets : ∀ i l, ln = .instr i → i.target? = some l → l < s.labels)
    (numbers : ∀ z, ln = .instr (.pushInt z) → z.bmod (LittleEndian.modulus 8) = z)
    (here : ∀ l, ln = .label l → mentioned s.size)
    (addresses : ∀ l a, s.places l = some a → mentioned a)
    (counts : ∀ i n, ln = .instr i → .count n ∈ i.operands → mentioned n) :
    Yields mentioned (line ln k) (s.line ln) (∀ i, ln = .instr i → i.Written) := by
  cases ln with
  | label l =>
    apply (place_yields shown (known l rfl) (fresh l rfl) (here l rfl)).bind
    intro _ k' shown' _
    refine Yields.ok shown' ?_
    intro i h
    cases h
  | instr i =>
    apply (emitOp_yields shown i.opcode.code).bind
    intro _ k' shown' _
    have operandTargets : ∀ l, .address l ∈ i.operands → l < s.labels := by
      intro l member
      refine targets i l rfl (Instr.label_mem_pieces.mp ?_)
      unfold Instr.pieces
      rw [List.mem_cons, List.mem_map]
      exact Or.inr ⟨.address l, member, rfl⟩
    have operandNumbers : ∀ z, .number z ∈ i.operands → z.bmod (LittleEndian.modulus 8) = z := by
      intro z member
      apply numbers z
      cases i <;> simp [Instr.operands] at member
      rw [member]
    rcases operands_yields i.operands shown' operandTargets operandNumbers addresses
      (fun n member => counts i n rfl member) with ⟨u, k'', done, shown'', written⟩ | failed
    · refine Or.inl ⟨u, k'', done, shown'', ?_⟩
      intro i' same
      cases same
      exact written
    · exact Or.inr failed

theorem lines_yields (ls : List Line) {k : Linker} {s : Sketch} (shown : k.Shows s)
    (nodup : (labelsOf ls).Nodup) (fresh : ∀ l ∈ labelsOf ls, s.places l = none)
    (known : ∀ l ∈ labelsOf ls, l < s.labels)
    (targets : ∀ i l, .instr i ∈ ls → i.target? = some l → l < s.labels)
    (numbers : ∀ z, .instr (.pushInt z) ∈ ls → z.bmod (LittleEndian.modulus 8) = z)
    (offsets : labelsOf ls ≠ [] → ∀ a ≤ s.size + sizeOfLines ls, mentioned a)
    (addresses : ∀ l a, s.places l = some a → mentioned a)
    (counts : ∀ i n, .instr i ∈ ls → .count n ∈ i.operands → mentioned n) :
    Yields mentioned (ls.forM line k) (s.lines ls) (∀ i, .instr i ∈ ls → i.Written) := by
  induction ls generalizing k s with
  | nil => exact Yields.ok shown (by simp)
  | cons ln ls ih =>
    have inHead : ∀ l, ln = .label l → l ∈ labelsOf (ln :: ls) := by
      intro l h
      rw [mem_labelsOf, h]
      exact List.mem_cons_self
    have inTail : ∀ l, l ∈ labelsOf ls → l ∈ labelsOf (ln :: ls) := by
      intro l h
      rw [mem_labelsOf] at h ⊢
      exact List.mem_cons_of_mem _ h
    have apart : ∀ l ∈ labelsOf ls, ln.label? ≠ some l := by
      intro l member same
      rw [labelsOf, List.filterMap_cons, same] at nodup
      exact (List.nodup_cons.mp nodup).1 member
    have nodupTail : (labelsOf ls).Nodup := by
      cases ln with
      | label l => exact (List.nodup_cons.mp nodup).2
      | instr i => exact nodup
    have labels : (s.line ln).labels = s.labels := s.labels_lines [ln]
    have here : ∀ l, ln = .label l → mentioned s.size := fun l h =>
      offsets (List.ne_nil_of_mem (inHead l h)) s.size (Nat.le_add_right _ _)
    rw [forM_cons]
    apply (line_yields shown ln (fun l h => fresh l (inHead l h)) (fun l h => known l (inHead l h))
      (fun i l h => targets i l (by simp [h])) (fun z h => numbers z (by simp [h])) here addresses
      (fun i n h => counts i n (by simp [h]))).bind
    intro _ k' shown' written
    have freshTail : ∀ l ∈ labelsOf ls, (s.line ln).places l = none := by
      intro l member
      rw [s.places_line_of_ne (apart l member)]
      exact fresh l (inTail l member)
    have offsetsTail : labelsOf ls ≠ [] → ∀ a ≤ (s.line ln).size + sizeOfLines ls,
        mentioned a := by
      intro some a below
      obtain ⟨l, member⟩ := List.exists_mem_of_ne_nil _ some
      rw [s.size_line, Nat.add_assoc] at below
      exact offsets (List.ne_nil_of_mem (inTail l member)) a below
    have addressesTail : ∀ l a, (s.line ln).places l = some a → mentioned a := by
      intro l a placed
      by_cases named : ln.label? = some l
      · cases ln with
        | label l' =>
          cases named
          rw [Sketch.line, s.places_place_self] at placed
          cases placed
          exact here _ rfl
        | instr i => cases named
      · rw [s.places_line_of_ne named] at placed
        exact addresses l a placed
    rcases ih shown' nodupTail freshTail (fun l h => by rw [labels]; exact known l (inTail l h))
      (fun i l h named => by rw [labels]; exact targets i l (List.mem_cons_of_mem _ h) named)
      (fun z h => numbers z (List.mem_cons_of_mem _ h)) offsetsTail addressesTail
      (fun i n h => counts i n (List.mem_cons_of_mem _ h)) with ⟨u, k'', done, shown'', all⟩ | failed
    · refine Or.inl ⟨u, k'', done, shown'', ?_⟩
      intro i member
      rcases List.mem_cons.mp member with same | member
      · exact written i same.symm
      · exact all i member
    · exact Or.inr failed

theorem pendingCount_eq_zero {t : LabelTable}
    (none : ∀ state ∈ t.states.toList, state.waitingCount = 0) : t.pendingCount = 0 := by
  unfold LabelTable.pendingCount
  generalize t.states.toList = states at none ⊢
  induction states with
  | nil => rfl
  | cons state states ih =>
    rw [List.foldr_cons, none state List.mem_cons_self, Nat.zero_add]
    exact ih fun state' member => none state' (List.mem_cons_of_mem _ member)

theorem assertResolved_of_shows {k : Linker} {s : Sketch} (shown : k.Shows s)
    (placed : ∀ l, .label l ∈ s.pieces → ∃ a, s.places l = some a) :
    k.labels.assertResolved = .ok () := by
  have none : k.labels.pendingCount = 0 := by
    apply pendingCount_eq_zero
    intro state inside
    obtain ⟨l, found⟩ := List.mem_iff_getElem?.mp inside
    rw [Array.getElem?_toList] at found
    have bound : l < s.labels := by
      rw [← shown.labels]
      exact (Array.getElem?_eq_some_iff.mp found).1
    have same : state = s.state l := Option.some.inj (found.symm.trans (shown.states l bound))
    rw [same, Sketch.state]
    cases here : s.places l with
    | some a => rfl
    | none =>
      have free : .label l ∉ s.pieces := by
        intro used
        obtain ⟨a, some⟩ := placed l used
        cases here.symm.trans some
      rw [slots_eq_nil 0 free]
      rfl
  unfold LabelTable.assertResolved
  rw [if_pos none]

theorem entryPoints_of_shows {k : Linker} {s : Sketch} (shown : k.Shows s)
    (functions : List AssemblyFunction)
    (placed : ∀ f ∈ functions, f.entry < s.labels ∧ ∃ a, s.places f.entry = some a) :
    functions.mapM entryPoint k =
      .ok (functions.map fun f => ⟨f.name, s.value f.entry, f.arity⟩) k := by
  induction functions with
  | nil => rfl
  | cons f fs ih =>
    obtain ⟨known, a, here⟩ := placed f List.mem_cons_self
    have state := shown.state known
    have value : s.value f.entry = a := by rw [Sketch.value, here]; rfl
    rw [Sketch.state, here] at state
    have first : entryPoint f k = .ok ⟨f.name, a, f.arity⟩ k := by
      change (ofExcept (k.labels.address? f.entry) >>= _) k = _
      have address : k.labels.address? f.entry = .ok (some a) := by
        unfold LabelTable.address?
        rw [state]
        rfl
      rw [address]
      rfl
    rw [List.mapM_cons, bind_of_ok first,
      bind_of_ok (ih fun f member => placed f (List.mem_cons_of_mem _ member)), List.map_cons, value]
    rfl

end Linking

namespace Assembly

def blank (a : Assembly) : Sketch := ⟨[], a.labels, fun _ => none⟩

def emptyLinker (a : Assembly) : Linker := ⟨⟨Array.replicate a.labels (.waiting #[])⟩, .empty⟩

theorem link_of_ok {a : Assembly} {filename : String} {c : Code} {k : Linker}
    (done : a.linking filename a.emptyLinker = .ok c k) : a.link filename = .ok c := by
  unfold emptyLinker at done
  simp only [link, done]

theorem link_of_error {a : Assembly} {filename : String} {e : LabelFault} {k : Linker}
    (failed : a.linking filename a.emptyLinker = .error e k) : a.link filename = .error e := by
  unfold emptyLinker at failed
  simp only [link, failed]

theorem shows_blank (a : Assembly) : a.emptyLinker.Shows a.blank where
  bytes := rfl
  labels := Array.size_replicate
  states l known := by
    have bound : l < a.labels := known
    rw [emptyLinker, Array.getElem?_replicate, if_pos bound]
    rfl
  small l a' used _ := by cases used

theorem fits_of_written {a : Assembly} (labelled : a.WellLabelled) {k : Linker}
    (shown : k.Shows (a.blank.lines a.lines.toList))
    (written : ∀ i, .instr i ∈ a.lines.toList → i.Written) (i : Instr Label)
    (member : .instr i ∈ a.lines.toList) :
    (i.map (a.blank.lines a.lines.toList).value).Fits := by
  have address : ∀ l, i.target? = some l → (a.blank.lines a.lines.toList).value l < LittleEndian.modulus 4 := by
    intro l named
    have placed := labelled.targets i l member named
    obtain ⟨addr, here⟩ := a.blank.exists_places placed
    rw [Sketch.value, here]
    apply shown.small l addr ?_ here
    rw [Sketch.pieces_lines, List.mem_append]
    exact Or.inr (label_mem_piecesOf.mpr ⟨i, member, named⟩)
  have counts := written i member
  unfold Instr.Fits
  unfold Instr.Written at counts
  cases i with
  | pop | add | stop => simp [Instr.map, Instr.operands]
  | pushFunc l | jumpFalse l | jump l =>
    simpa [Instr.map, Instr.operands, Operand.Fits] using address l rfl
  | pushNative n | peek n | call n | ret n m =>
    simpa [Instr.map, Instr.operands, Operand.Fits, Operand.Written] using counts
  | pushInt z =>
    simpa [Instr.map, Instr.operands, Operand.Fits] using labelled.numbers z member

/-- Linking gives code that holds the assembly, or meets a number that is too large. An offset can
be too large only where there are labels. -/
theorem link_cases_of {a : Assembly} {mentioned : Nat → Prop} (labelled : a.WellLabelled)
    (filename : String)
    (offsets : labelsOf a.lines.toList ≠ [] → ∀ v ≤ sizeOfLines a.lines.toList, mentioned v)
    (counts : ∀ i n, .instr i ∈ a.lines.toList → .count n ∈ i.operands → mentioned n) :
    (∃ v : Nat, a.link filename = .error (.operand (.count v)) ∧ LittleEndian.modulus 4 ≤ v ∧
      mentioned v) ∨ ∃ addr c, a.link filename = .ok c ∧ a.LinkedTo addr c := by
  have targets : ∀ i l, .instr i ∈ a.lines.toList → i.target? = some l → l < a.blank.labels :=
    fun i l member named => labelled.known l (labelled.targets i l member named)
  have offsets' : labelsOf a.lines.toList ≠ [] →
      ∀ v ≤ a.blank.size + sizeOfLines a.lines.toList, mentioned v := by
    intro some v below
    exact offsets some v (Nat.le_trans below (Nat.le_of_eq (Nat.zero_add _)))
  rcases Linking.lines_yields a.lines.toList a.shows_blank labelled.nodup (fun _ _ => rfl)
    labelled.known targets labelled.numbers offsets' (fun _ _ placed => nomatch placed) counts with
    ⟨_, k, done, shown, written⟩ | ⟨v, k, failed, large⟩
  · right
    let s := a.blank.lines a.lines.toList
    have placed : ∀ l, .label l ∈ s.pieces → ∃ addr, s.places l = some addr := by
      intro l used
      rw [Sketch.pieces_lines, List.mem_append] at used
      rcases used with used | used
      · cases used
      · obtain ⟨i, member, named⟩ := label_mem_piecesOf.mp used
        exact a.blank.exists_places (labelled.targets i l member named)
    have entries : ∀ f ∈ a.functions,
        f.entry < s.labels ∧ ∃ addr, s.places f.entry = some addr := by
      intro f member
      have inside := labelled.entries f member
      rw [Sketch.labels_lines]
      exact ⟨labelled.known _ inside, a.blank.exists_places inside⟩
    let functions : List EntryPoint :=
      a.functions.map fun f => ⟨f.name, s.value f.entry, f.arity⟩
    let c : Code := k.builder.toCode a.natives functions filename
    have linking : a.linking filename a.emptyLinker = .ok c k := by
      unfold linking
      rw [bind_of_ok done]
      change (Linking.ofExcept k.labels.assertResolved >>= _) k = _
      rw [Linking.assertResolved_of_shows shown placed]
      change (a.functions.mapM Linking.entryPoint >>= _) k = _
      rw [bind_of_ok (Linking.entryPoints_of_shows shown a.functions entries)]
      rfl
    have bytes : c.bytes.toList = [] ++ renderAll s.value (piecesOf a.lines.toList) := by
      have all := shown.bytes
      rw [Sketch.bytes, Sketch.pieces_lines] at all
      exact all
    refine ⟨s.value, c, link_of_ok linking, ?_, ?_, rfl, rfl⟩
    · apply Code.holds_of_sketch a.lines.toList a.blank [] labelled.nodup ?_
        (fits_of_written labelled shown written) rfl bytes
      intro l addr here
      unfold Sketch.value
      rw [here]
      rfl
    · have size := shown.offset
      rw [Sketch.size_lines] at size
      exact size.trans (Nat.zero_add _)
  · left
    refine ⟨v, link_of_error (k := k) ?_, large⟩
    unfold linking
    rw [bind_of_error failed]

theorem link_cases {a : Assembly} (labelled : a.WellLabelled) (filename : String) :
    (∃ v : Nat, a.link filename = .error (.operand (.count v)) ∧ LittleEndian.modulus 4 ≤ v ∧
      a.Mentions v) ∨ ∃ addr c, a.link filename = .ok c ∧ a.LinkedTo addr c :=
  link_cases_of labelled filename (fun _ _ below => Or.inl below)
    fun i _ member count => Or.inr ⟨i, member, count⟩

end Assembly

end Tally
