import Tally.Proofs.Code.Listed

namespace Tally

def InstrAt (ls : List Line) (pc : Nat) (i : Instr Label) : Prop :=
  ∃ before after, ls = before ++ .instr i :: after ∧ pc = sizeOfLines before

def CallBehind (ls : List Line) (i : Instr Label) (pc : Nat) : Prop :=
  ∃ before n after, ls = before ++ .instr i :: .instr (.call n) :: after ∧
    pc = sizeOfLines before + i.size

theorem labels_of_sizeOfLines {ls : List Line} (empty : sizeOfLines ls = 0) :
    ∀ line ∈ ls, ∃ l, line = .label l := by
  intro line member
  cases line with
  | label l => exact ⟨l, rfl⟩
  | instr i =>
    obtain ⟨before, after, rfl⟩ := List.append_of_mem member
    have positive := i.size_pos
    rw [sizeOfLines_append, sizeOfLines_instr] at empty
    omega

theorem cut_cases {p q as bs : List Line} (same : p ++ as = q ++ bs)
    (size : sizeOfLines p = sizeOfLines q) :
    ∃ marks, (∀ line ∈ marks, ∃ l, line = .label l) ∧
      ((q = p ++ marks ∧ as = marks ++ bs) ∨ (p = q ++ marks ∧ bs = marks ++ as)) := by
  rcases List.append_eq_append_iff.mp same with ⟨marks, rfl, rfl⟩ | ⟨marks, rfl, rfl⟩
  · rw [sizeOfLines_append] at size
    exact ⟨marks, labels_of_sizeOfLines (by omega), Or.inl ⟨rfl, rfl⟩⟩
  · rw [sizeOfLines_append] at size
    exact ⟨marks, labels_of_sizeOfLines (by omega), Or.inr ⟨rfl, rfl⟩⟩

theorem marks_eq_nil {p before marks : List Line} {i : Instr Label}
    (labels : ∀ line ∈ marks, ∃ l, line = .label l) (same : before ++ [.instr i] = p ++ marks) :
    marks = [] := by
  rcases List.eq_nil_or_concat marks with none | ⟨others, last, rfl⟩
  · exact none
  · rw [List.concat_eq_append, ← List.append_assoc] at same
    obtain ⟨l, rfl⟩ := labels last (by simp)
    cases (List.append_inj' same rfl).2

namespace CallBehind

variable {ls before after : List Line} {i j : Instr Label}

theorem eq_of_instr (split : ls = before ++ .instr i :: after)
    (called : CallBehind ls j (sizeOfLines before + i.size)) : i = j := by
  obtain ⟨before', n, after', split', size⟩ := called
  have same : (before ++ [.instr i]) ++ after =
      (before' ++ [.instr j]) ++ .instr (.call n) :: after' := by
    rw [List.append_assoc, List.append_assoc]
    exact split.symm.trans split'
  have sizes : sizeOfLines (before ++ [.instr i]) = sizeOfLines (before' ++ [.instr j]) := by
    rw [sizeOfLines_append, sizeOfLines_append, sizeOfLines_instr, sizeOfLines_instr]
    exact size
  obtain ⟨marks, labels, ⟨whole, _⟩ | ⟨whole, _⟩⟩ := cut_cases same sizes
  · rw [marks_eq_nil labels whole, List.append_nil] at whole
    cases (List.append_inj' whole rfl).2
    rfl
  · rw [marks_eq_nil labels whole, List.append_nil] at whole
    cases (List.append_inj' whole rfl).2
    rfl

theorem not_label {l : Label} (split : ls = before ++ .label l :: after) :
    ¬ CallBehind ls j (sizeOfLines before) := by
  rintro ⟨before', n, after', split', size⟩
  have same : (before ++ [.label l]) ++ after =
      (before' ++ [.instr j]) ++ .instr (.call n) :: after' := by
    rw [List.append_assoc, List.append_assoc]
    exact split.symm.trans split'
  have sizes : sizeOfLines (before ++ [.label l]) = sizeOfLines (before' ++ [.instr j]) := by
    rw [sizeOfLines_append, sizeOfLines_append, sizeOfLines_instr, sizeOfLines_label]
    exact size
  obtain ⟨marks, labels, ⟨whole, _⟩ | ⟨whole, rest⟩⟩ := cut_cases same sizes
  · rw [marks_eq_nil labels whole, List.append_nil] at whole
    cases (List.append_inj' whole rfl).2
  · cases marks with
    | nil =>
      rw [List.append_nil] at whole
      cases (List.append_inj' whole rfl).2
    | cons mark marks =>
      obtain ⟨l', rfl⟩ := labels mark List.mem_cons_self
      cases rest

theorem not_start : ¬ CallBehind ls j 0 := by
  rintro ⟨before, n, after, _, size⟩
  have positive := j.size_pos
  omega

end CallBehind

theorem Code.HasInstr.lt_length {c : Code} {pc : Nat} {i : Instr Nat} (here : c.HasInstr pc i) :
    pc < c.length := by
  have read := here.opcode
  unfold readByte slice at read
  by_cases inside : pc + 1 ≤ c.length
  · exact inside
  · rw [if_neg inside] at read
    cases read

section

variable {c : Code} {addr : Label → Nat} {ls : List Line}

theorem exists_instrAt (length : c.length = sizeOfLines ls) {before after : List Line}
    (split : ls = before ++ after) {j : Instr Nat} (here : c.HasInstr (sizeOfLines before) j) :
    ∃ i, InstrAt ls (sizeOfLines before) i := by
  induction after generalizing before with
  | nil =>
    have inside := here.lt_length
    rw [length, split, List.append_nil] at inside
    exact absurd inside (Nat.lt_irrefl _)
  | cons line after ih =>
    cases line with
    | instr i => exact ⟨i, before, after, split, rfl⟩
    | label l =>
      have size : sizeOfLines (before ++ [.label l]) = sizeOfLines before := by
        rw [sizeOfLines_append, sizeOfLines_label]
        rfl
      have next : ls = (before ++ [.label l]) ++ after := by
        rw [List.append_assoc]
        exact split
      rw [← size] at here ⊢
      exact ih next here

variable {pc : Nat}

theorem InstrAt.hasInstr (holds : c.Holds addr 0 ls) {i : Instr Label} (listed : InstrAt ls pc i) :
    c.HasInstr pc (i.map addr) := by
  obtain ⟨before, after, rfl, rfl⟩ := listed
  have here := holds.right.1
  rwa [Nat.zero_add] at here

theorem InstrAt.mem_located {i : Instr Label} (listed : InstrAt ls pc i) :
    (pc, i.map addr) ∈ located addr 0 ls := by
  obtain ⟨before, after, same, rfl⟩ := listed
  exact Tally.mem_located.mpr ⟨before, i, after, same, by rw [Nat.zero_add]⟩

end

end Tally
